import ByteEmbed.Proofs.Tree.Plan

/-!
# Jobs that do not meet

Two jobs of which neither replaces an entry that the other looks up have the same plans in
either order, and so the same outcomes (`embed_comm`).  The trees that they leave differ only
in the identifiers that the two new files get: `Alike` compares trees without them, by what
each entry shows and by which entries are of one file.
-/

namespace ByteEmbed

/-- An entry without what tells its file from others. -/
def Entry.anonymous : Entry → Entry
  | .file shown => .file { shown with id := 0 }
  | entry => entry

namespace FileTree

variable {tree : FileTree}

/-! ### Trees that are alike -/

/-- Whether the entries at two places are of one file. -/
def Linked (tree : FileTree) (place other : Place) : Prop :=
  ∃ file twin, tree.get? place = some (.file file) ∧ tree.get? other = some (.file twin) ∧
    file.id = twin.id

/-- Whether two trees are the same but for the identifiers of their files. -/
structure Alike (tree other : FileTree) : Prop where
  -- The same paths have entries of the same kind, mode, contents and link target.
  entries : ∀ place,
    (tree.get? place).map Entry.anonymous = (other.get? place).map Entry.anonymous
  -- The same entries are hard links of each other.
  linked : ∀ place twin, tree.Linked place twin ↔ other.Linked place twin

theorem Alike.refl (tree : FileTree) : tree.Alike tree :=
  ⟨fun _ => rfl, fun _ _ => Iff.rfl⟩

/-! ### Two jobs -/

/-- A new file has one entry, and the other entries are linked as before. -/
theorem linked_put_iff {plan : Plan} {place twin : Place} :
    (tree.put plan).Linked place twin ↔
      (place = plan.slot.place ∧ twin = plan.slot.place) ∨
      (place ≠ plan.slot.place ∧ twin ≠ plan.slot.place ∧ tree.Linked place twin) := by
  by_cases hplace : place = plan.slot.place
  · by_cases htwin : twin = plan.slot.place
    · simp [Linked, hplace, htwin, get?_put_self]
    · -- The identifier of the new file is not that of an older one.
      have hold : ∀ file, tree.get? twin = some (.file file) → tree.freshId ≠ file.id :=
        fun file hfile => (Nat.ne_of_lt (id_lt_freshId hfile)).symm
      simpa [Linked, hplace, htwin, get?_put_self, get?_put_of_ne] using hold
  · by_cases htwin : twin = plan.slot.place
    · have hold : ∀ file, tree.get? place = some (.file file) → file.id ≠ tree.freshId :=
        fun file hfile => Nat.ne_of_lt (id_lt_freshId hfile)
      simpa [Linked, hplace, htwin, get?_put_self, get?_put_of_ne] using hold
    · simp [Linked, hplace, htwin, get?_put_of_ne]

/-- Files are put at different places in either order. -/
theorem put_comm_alike (tree : FileTree) {first second : Plan}
    (h : first.slot.place ≠ second.slot.place) :
    ((tree.put first).put second).Alike ((tree.put second).put first) where
  entries place := by
    by_cases hfirst : place = first.slot.place
    · subst hfirst
      rw [get?_put_of_ne _ h, get?_put_self, get?_put_self]
      rfl
    · by_cases hsecond : place = second.slot.place
      · subst hsecond
        rw [get?_put_self, get?_put_of_ne _ h.symm, get?_put_self]
        rfl
      · rw [get?_put_of_ne _ hsecond, get?_put_of_ne _ hfirst, get?_put_of_ne _ hfirst,
          get?_put_of_ne _ hsecond]
  linked place twin := by
    have hother : twin = second.slot.place → twin ≠ first.slot.place :=
      fun htwin => htwin ▸ h.symm
    simp only [linked_put_iff]
    by_cases hfirst : place = first.slot.place
    · simpa [hfirst, h] using fun htwin hcontra => hother hcontra htwin
    · by_cases hsecond : place = second.slot.place
      · simpa [hsecond, h.symm] using hother
      · simp [hfirst, hsecond, and_left_comm]

/-- Two jobs of which neither replaces an entry that the other looks up have the same
outcomes in either order, and leave the same tree. -/
theorem embed_comm {workDir : Place} {first second : Job}
    (hfirst : ∀ place, tree.Replaces workDir first place →
      place ∉ tree.jobLookups workDir second)
    (hsecond : ∀ place, tree.Replaces workDir second place →
      place ∉ tree.jobLookups workDir first) :
    ((tree.embed workDir second).2.embed workDir first).1 = (tree.embed workDir first).1 ∧
      ((tree.embed workDir first).2.embed workDir second).1 = (tree.embed workDir second).1 ∧
      ((tree.embed workDir first).2.embed workDir second).2.Alike
        ((tree.embed workDir second).2.embed workDir first).2 := by
  have hplanFirst : (tree.embed workDir second).2.plan workDir first =
      tree.plan workDir first :=
    plan_congr fun place hplace =>
      get?_embed_of_not_replaces fun h => hsecond place h hplace
  have hplanSecond : (tree.embed workDir first).2.plan workDir second =
      tree.plan workDir second :=
    plan_congr fun place hplace =>
      get?_embed_of_not_replaces fun h => hfirst place h hplace
  rw [embed_eq_plan (tree.embed workDir second).2, embed_eq_plan (tree.embed workDir first).2,
    hplanFirst, hplanSecond, embed_eq_plan tree workDir first,
    embed_eq_plan tree workDir second]
  cases hone : tree.plan workDir first with
  | error e =>
      cases tree.plan workDir second with
      | error e => exact ⟨rfl, rfl, .refl _⟩
      | ok plan => exact ⟨rfl, rfl, .refl _⟩
  | ok plan =>
      cases htwo : tree.plan workDir second with
      | error e => exact ⟨rfl, rfl, .refl _⟩
      | ok other =>
          refine ⟨rfl, rfl, put_comm_alike tree ?_⟩
          -- The second job looks up the entry that it replaces, so that one is not the
          -- first job's.
          intro hplace
          apply hfirst plan.slot.place (replaces_of_plan hone)
          rw [hplace]
          exact mem_jobLookups_of_plan htwo

/-- The job of embedding the file `l` in place of `p`. -/
def otherJob : Job :=
  ⟨⟨[0x6C]⟩, ⟨[0x70]⟩, ['y']⟩

theorem embed_comm_linkedTree :
    (∀ place, linkedTree.Replaces [] linkedJob place →
        place ∉ linkedTree.jobLookups [] otherJob) ∧
      (∀ place, linkedTree.Replaces [] otherJob place →
        place ∉ linkedTree.jobLookups [] linkedJob) ∧
      ((linkedTree.embed [] otherJob).2.embed [] linkedJob).1 =
        (linkedTree.embed [] linkedJob).1 ∧
      ((linkedTree.embed [] linkedJob).2.embed [] otherJob).1 =
        (linkedTree.embed [] otherJob).1 ∧
      ((linkedTree.embed [] linkedJob).2.embed [] otherJob).2.Alike
        ((linkedTree.embed [] otherJob).2.embed [] linkedJob).2 := by
  have hfirst : ∀ place, linkedTree.Replaces [] linkedJob place →
      place ∉ linkedTree.jobLookups [] otherJob := by
    intro place h
    have htarget : linkedTree.target [] linkedJob.output = .ok [[0x6B]] := by
      decide +kernel
    obtain rfl := Except.ok.inj (htarget.symm.trans h.2)
    decide +kernel
  have hsecond : ∀ place, linkedTree.Replaces [] otherJob place →
      place ∉ linkedTree.jobLookups [] linkedJob := by
    intro place h
    have htarget : linkedTree.target [] otherJob.output = .ok [[0x70]] := by
      decide +kernel
    obtain rfl := Except.ok.inj (htarget.symm.trans h.2)
    decide +kernel
  exact ⟨hfirst, hsecond, embed_comm hfirst hsecond⟩

end FileTree
end ByteEmbed
