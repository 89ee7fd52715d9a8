import ByteEmbed.Proofs.Tree.Embed
import ByteEmbed.Proofs.Tree.Walk

/-!
# The entry that a job replaces

`target` is the entry to which an output goes, and `Replaces` says that a job is done and
that its output goes to an entry.  What such a job leaves in the entry is
`get?_embed_of_replaces`, and that it leaves all others alone is
`get?_embed_of_not_replaces`: the two together are the step of every run of jobs.

An output that leads nowhere names a link or nothing (`get?_of_outputSlot`), so a job never
takes the place of a directory, and it keeps the mode of every file that it replaces.

The last part finds the entry among those which resolving the output looks up.
-/

namespace ByteEmbed
namespace FileTree

variable {tree : FileTree}

/-- The entry to which an output goes: where it leads, or else the entry that it names. -/
def target (tree : FileTree) (workDir : Place) (output : Path) : Except FileError Place :=
  match tree.resolve workDir output with
  | .ok place => .ok place
  | .error _ => tree.namedPlace workDir output

/-- Whether a job is done and its output goes to an entry. -/
def Replaces (tree : FileTree) (workDir : Place) (job : Job) (place : Place) : Prop :=
  (∃ n, (tree.embed workDir job).1 = .ok n) ∧ tree.target workDir job.output = .ok place

/-! ### Slots -/

/-- A path whose last name is neither free nor a link's leads to the entry that it names. -/
theorem resolve_of_namedPlace {workDir place : Place} {path : Path} {entry : Entry}
    (hwalk : path.IsWalkable) (hend : path.endsInSlash = false)
    (hplace : tree.namedPlace workDir path = .ok place) (hentry : tree.get? place = some entry)
    (hlink : ∀ target, entry ≠ .link target) : tree.resolve workDir path = .ok place := by
  obtain ⟨name, folder, hlast, hlength, hfolder, rfl⟩ := namedPlace_eq_ok_iff.mp hplace
  obtain ⟨links, mode, hmode, hresolve⟩ := resolve_eq_follow_into hwalk hlast hend hfolder
  rw [hresolve]
  exact follow_into_of_not_link hmode hlength hentry hlink links

/-- An output that leads nowhere names a link or nothing. -/
theorem get?_of_destination {workDir place : Place} {output : Path} {e : FileError}
    (hplace : tree.destination workDir output none = .ok place)
    (herror : tree.resolve workDir output = .error e) :
    tree.get? place = none ∨ ∃ target, tree.get? place = some (.link target) := by
  obtain ⟨hwalk, hend, hnamed⟩ := destination_none_eq_ok_iff.mp hplace
  by_contra hentry
  rw [not_or, not_exists] at hentry
  obtain ⟨entry, hsome⟩ := Option.ne_none_iff_exists'.mp hentry.1
  have hlink : ∀ target, entry ≠ .link target := by
    rintro target rfl
    exact hentry.2 target hsome
  rw [resolve_of_namedPlace hwalk hend hnamed hsome hlink] at herror
  cases herror

/-- There is a slot in place of a file, and otherwise at a destination. -/
theorem outputSlot_eq_ok_iff {workDir : Place} {output : Path} {slot : Slot} :
    tree.outputSlot workDir output = .ok slot ↔
      (tree.resolve workDir output = .ok slot.place ∧
        ∃ old, tree.get? slot.place = some (.file old) ∧ slot.mode = old.mode) ∨
      ((∃ e, tree.resolve workDir output = .error e) ∧
        tree.destination workDir output none = .ok slot.place ∧ slot.mode = .newFile) := by
  constructor
  · intro h
    rcases target_of_outputSlot h with hfile | ⟨⟨e, herror⟩, -, hmode⟩
    · exact .inl hfile
    · exact .inr ⟨⟨e, herror⟩, (destination_of_outputSlot h herror).1, hmode⟩
  · rintro (⟨hresolve, old, hold, hmode⟩ | ⟨⟨e, herror⟩, hplace, hmode⟩)
    · rw [outputSlot, hresolve]
      dsimp only
      rw [hold]
      dsimp only
      rw [← hmode]
    · obtain ⟨name, folder, -, -, hfolder, -⟩ :=
        namedPlace_eq_ok_iff.mp (destination_none_eq_ok_iff.mp hplace).2.2
      rw [outputSlot, herror]
      dsimp only
      rw [hfolder]
      dsimp only
      rw [hplace]
      dsimp only
      rcases get?_of_destination hplace herror with hentry | ⟨target, hentry⟩
      · rw [hentry, ← hmode]
      · rw [hentry, ← hmode]

/-- No slot is a directory's. -/
theorem get?_ne_directory_of_outputSlot {workDir : Place} {output : Path} {slot : Slot}
    (h : tree.outputSlot workDir output = .ok slot) (mode : Mode) :
    tree.get? slot.place ≠ some (.directory mode) := by
  rcases outputSlot_eq_ok_iff.mp h with ⟨-, old, hold, -⟩ | ⟨⟨e, herror⟩, -, -⟩
  · rw [hold]
    exact nofun
  · exact (destination_of_outputSlot h herror).2 mode

/-- The mode of a slot is that of the entry which is there before. -/
theorem mode_of_outputSlot {workDir : Place} {output : Path} {slot : Slot}
    (h : tree.outputSlot workDir output = .ok slot) : slot.mode = tree.modeAt slot.place := by
  rw [modeAt]
  rcases outputSlot_eq_ok_iff.mp h with ⟨-, old, hold, hmode⟩ | ⟨⟨e, herror⟩, hplace, hmode⟩
  · rw [hold, hmode]
  · rcases get?_of_destination hplace herror with hentry | ⟨target, hentry⟩
    · rw [hentry, hmode]
    · rw [hentry, hmode]

theorem target_of_outputSlot_eq_ok {workDir : Place} {output : Path} {slot : Slot}
    (h : tree.outputSlot workDir output = .ok slot) :
    tree.target workDir output = .ok slot.place := by
  rw [target]
  rcases target_of_outputSlot h with ⟨hresolve, -⟩ | ⟨⟨e, herror⟩, hplace, -⟩
  · rw [hresolve]
  · rw [herror]
    exact hplace

/-! ### One job -/

theorem replaces_iff {workDir place : Place} {job : Job} :
    tree.Replaces workDir job place ↔
      ∃ bytes slot, tree.read workDir job.input = .ok bytes ∧
        tree.outputSlot workDir job.output = .ok slot ∧ slot.place = place := by
  constructor
  · rintro ⟨⟨n, hdone⟩, htarget⟩
    obtain ⟨bytes, slot, hread, hslot, -, -⟩ := exists_slot_of_embed hdone
    rw [target_of_outputSlot_eq_ok hslot] at htarget
    exact ⟨bytes, slot, hread, hslot, Except.ok.inj htarget⟩
  · rintro ⟨bytes, slot, hread, hslot, rfl⟩
    refine ⟨⟨bytes.length, ?_⟩, target_of_outputSlot_eq_ok hslot⟩
    rw [embed_eq, hread]
    dsimp only
    rw [hslot]

/-- A job that is done replaces an entry. -/
theorem exists_replaces_of_embed {workDir : Place} {job : Job} {n : Nat}
    (h : (tree.embed workDir job).1 = .ok n) : ∃ place, tree.Replaces workDir job place := by
  obtain ⟨bytes, slot, hread, hslot, -, -⟩ := exists_slot_of_embed h
  exact ⟨slot.place, replaces_iff.mpr ⟨bytes, slot, hread, hslot, rfl⟩⟩

/-- A job puts a new file with the declaration of its input into the entry that it
replaces, and the mode of the entry stays. -/
theorem get?_embed_of_replaces {workDir place : Place} {job : Job}
    (h : tree.Replaces workDir job place) :
    ∃ bytes, tree.read workDir job.input = .ok bytes ∧
      (tree.embed workDir job).2.get? place =
        some (.file ⟨tree.freshId, tree.modeAt place,
          (Declaration.render ⟨job.name, bytes⟩).encode⟩) := by
  obtain ⟨bytes, slot, hread, hslot, rfl⟩ := replaces_iff.mp h
  refine ⟨bytes, hread, ?_⟩
  rw [embed_eq, hread]
  dsimp only
  rw [hslot]
  dsimp only
  rw [get?_set_self, mode_of_outputSlot hslot]

theorem get?_embed_of_not_replaces {workDir place : Place} {job : Job}
    (h : ¬ tree.Replaces workDir job place) :
    (tree.embed workDir job).2.get? place = tree.get? place := by
  rw [embed_eq]
  cases hread : tree.read workDir job.input with
  | error e => rfl
  | ok bytes =>
      cases hslot : tree.outputSlot workDir job.output with
      | error e => rfl
      | ok slot =>
          apply get?_set_of_ne
          rintro rfl
          exact h (replaces_iff.mpr ⟨bytes, slot, hread, hslot, rfl⟩)

theorem embed_of_error {workDir : Place} {job : Job} {e : EmbedError}
    (h : (tree.embed workDir job).1 = .error e) : (tree.embed workDir job).2 = tree := by
  ext place : 1
  apply get?_embed_of_not_replaces
  rintro ⟨⟨n, hdone⟩, -⟩
  rw [h] at hdone
  cases hdone

theorem get?_ne_directory_of_replaces {workDir place : Place} {job : Job}
    (h : tree.Replaces workDir job place) (mode : Mode) :
    tree.get? place ≠ some (.directory mode) := by
  obtain ⟨bytes, slot, -, hslot, rfl⟩ := replaces_iff.mp h
  exact get?_ne_directory_of_outputSlot hslot mode

/-- A job changes no mode: not that of the entry which it replaces, and no other. -/
theorem modeAt_embed (tree : FileTree) (workDir : Place) (job : Job) (place : Place) :
    (tree.embed workDir job).2.modeAt place = tree.modeAt place := by
  by_cases h : tree.Replaces workDir job place
  · obtain ⟨bytes, -, hafter⟩ := get?_embed_of_replaces h
    rw [modeAt, hafter]
  · rw [modeAt, modeAt, get?_embed_of_not_replaces h]

/-! ### Where the entry is looked up -/

theorem mem_advanceLookups_of_arrived {here place : Place} {steps : List Step}
    (h : tree.advance here steps = .ok (.arrived place)) :
    place ∈ tree.advanceLookups here steps := by
  induction steps generalizing here with
  | nil =>
      rw [advance.eq_def] at h
      dsimp only at h
      split at h
      · cases h
        exact List.mem_singleton_self _
      · cases h
        exact List.mem_singleton_self _
      · cases h
      · cases h
  | cons step rest ih =>
      rw [advance_cons] at h
      rw [advanceLookups]
      split at h
      · cases h
      · next next hmove =>
          rw [hmove]
          exact List.mem_append_right _ (ih h)
      · cases h

theorem mem_followLookups_of_follow {links : Nat} {here place : Place} {steps : List Step}
    (h : tree.follow links here steps = .ok place) :
    place ∈ tree.followLookups links here steps := by
  rw [followLookups.eq_def]
  fun_induction follow tree links here steps with
  | case1 links here steps e hadvance => cases h
  | case2 links here steps found hadvance =>
      cases h
      exact List.mem_append_left _ (mem_advanceLookups_of_arrived hadvance)
  | case3 here steps folder target rest hadvance => cases h
  | case4 here steps folder target rest hadvance links ih =>
      rw [hadvance]
      dsimp only
      rw [followLookups.eq_def]
      exact List.mem_append_right _ (ih h)

/-- Where a path leads is looked up on the way. -/
theorem mem_lookups_of_resolve {workDir place : Place} {path : Path}
    (h : tree.resolve workDir path = .ok place) : place ∈ tree.lookups workDir path := by
  obtain ⟨hwalk, hfollow⟩ := resolve_eq_ok_iff.mp h
  exact mem_lookups_iff.mpr ⟨hwalk, mem_followLookups_of_follow hfollow⟩

theorem mem_advanceLookups_append {here stop place : Place} {steps rest : List Step}
    (h : tree.reach here steps = .ok (.arrived stop))
    (hplace : place ∈ tree.advanceLookups stop rest) :
    place ∈ tree.advanceLookups here (steps ++ rest) := by
  induction steps generalizing here with
  | nil =>
      cases h
      exact hplace
  | cons step steps ih =>
      rw [reach] at h
      rw [List.cons_append, advanceLookups]
      split at h
      · cases h
      · next next hmove =>
          rw [hmove]
          exact List.mem_append_right _ (ih h)
      · cases h

theorem mem_followLookups_of_reach {links : Nat} {here stop place : Place}
    {steps rest : List Step} (h : tree.reach here steps = .ok (.arrived stop))
    (hplace : place ∈ tree.followLookups links stop rest) :
    place ∈ tree.followLookups links here (steps ++ rest) := by
  rw [followLookups.eq_def] at hplace ⊢
  rw [advance_append, h]
  rcases List.mem_append.mp hplace with hleg | hbehind
  · exact List.mem_append_left _ (mem_advanceLookups_append h hleg)
  · exact List.mem_append_right _ hbehind

/-- A walk looks up what is looked up from where its first steps lead. -/
theorem mem_followLookups_append {links : Nat} {here place : Place} {stop : Waypoint}
    {steps rest : List Step} (h : tree.travel links here steps = .ok stop)
    (hplace : place ∈ tree.followLookups stop.links stop.place rest) :
    place ∈ tree.followLookups links here (steps ++ rest) := by
  fun_induction travel tree links here steps with
  | case1 links here steps e hreach => cases h
  | case2 links here steps arrived hreach =>
      cases h
      exact mem_followLookups_of_reach hreach hplace
  | case3 here steps folder target left hreach => cases h
  | case4 here steps folder target left hreach links ih =>
      rw [followLookups.eq_def, advance_append, hreach]
      dsimp only
      rw [← List.append_assoc]
      exact List.mem_append_right _ (ih h)

/-- The entry that a path names is looked up to see where the path leads. -/
theorem mem_lookups_of_namedPlace {workDir place : Place} {path : Path}
    (hwalk : path.IsWalkable) (hend : path.endsInSlash = false)
    (hplace : tree.namedPlace workDir path = .ok place) : place ∈ tree.lookups workDir path := by
  obtain ⟨name, folder, hlast, hlength, hfolder, rfl⟩ := namedPlace_eq_ok_iff.mp hplace
  obtain ⟨front, links, mode, hsteps, htravel, hmode⟩ :=
    exists_travel_to_folder hlast hend hfolder
  apply mem_lookups_iff.mpr
  refine ⟨hwalk, ?_⟩
  rw [hsteps]
  apply mem_followLookups_append htravel
  rw [followLookups.eq_def, advanceLookups, moveLookups_into hmode hlength]
  simp

/-- The slot of an output is looked up to see where the output leads. -/
theorem mem_lookups_of_outputSlot {workDir : Place} {output : Path} {slot : Slot}
    (h : tree.outputSlot workDir output = .ok slot) :
    slot.place ∈ tree.lookups workDir output := by
  rcases outputSlot_eq_ok_iff.mp h with ⟨hresolve, -⟩ | ⟨-, hplace, -⟩
  · exact mem_lookups_of_resolve hresolve
  · obtain ⟨hwalk, hend, hnamed⟩ := destination_none_eq_ok_iff.mp hplace
    exact mem_lookups_of_namedPlace hwalk hend hnamed

end FileTree
end ByteEmbed
