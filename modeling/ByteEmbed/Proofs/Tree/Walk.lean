import ByteEmbed.Proofs.Tree.Lookup
import ByteEmbed.Proofs.Tree.Steps

/-!
# Walks and their parts

A walk along some steps and then others is a walk along the first and, from where that
one stands and with the links that it has left, a walk along the others
(`follow_append`).  A walk with another number of links ends at the same place or runs
out of links (`follow_eq_or_linkLoop`), and one that ends somewhere has followed every link
that it looked up, and ends there if it looked up a file (`entry_of_mem_followLookups`).

Together these tell what it means that a path leads nowhere though a link in which it ends
is followed on the way of some path: links have run out (`eq_linkLoop_of_mem_lookups`).  So
the walk to the folder of a path that leads nowhere does not depend on the entry which the
path names, unless links run out (`not_mem_lookups_folder`).
-/

namespace ByteEmbed

/-- The path of a folder can be walked if the path itself can. -/
theorem Path.IsWalkable.folder {path : Path} (h : path.IsWalkable) : path.folder.IsWalkable := by
  obtain ⟨hzero, -, hlength⟩ := h
  rcases Path.folder_eq_or_bytes_folder_prefix path with hdot | ⟨hne, hfolder⟩
  · rw [hdot]
    exact ⟨by decide, by decide, by decide⟩
  · exact ⟨fun hmem => hzero (hfolder.subset hmem), hne,
      Nat.lt_of_le_of_lt hfolder.length_le hlength⟩

namespace FileTree

variable {tree : FileTree}

/-! ### Steps behind steps -/

/-- How far a walk gets along some steps without following a link, whatever stands at
their end. -/
def reach (tree : FileTree) (here : Place) : List Step → Except FileError Leg
  | [] => .ok (.arrived here)
  | step :: rest =>
      match tree.move here step with
      | .error e => .error e
      | .ok (.to place) => tree.reach place rest
      | .ok (.link target) => .ok (.link here target rest)

/-- Where a walk stands, and how many links it may still follow. -/
structure Waypoint where
  place : Place
  links : Nat

/-- Walks along some steps, whatever stands at their end. -/
def travel (tree : FileTree) (links : Nat) (here : Place) (steps : List Step) :
    Except FileError Waypoint :=
  match tree.reach here steps with
  | .error e => .error e
  | .ok (.arrived place) => .ok ⟨place, links⟩
  | .ok (.link folder target rest) =>
      match links with
      | 0 => .error .linkLoop
      | links + 1 => tree.travel links (target.start folder) (target.steps ++ rest)

theorem advance_append (here : Place) (steps rest : List Step) :
    tree.advance here (steps ++ rest) =
      match tree.reach here steps with
      | .error e => .error e
      | .ok (.arrived place) => tree.advance place rest
      | .ok (.link folder target left) => .ok (.link folder target (left ++ rest)) := by
  induction steps generalizing here with
  | nil => rfl
  | cons step steps ih =>
      rw [List.cons_append, advance_cons, reach]
      rcases tree.move here step with e | place | target
      · rfl
      · exact ih place
      · rfl

/-- A walk goes on from where its first steps lead, with the links that they leave. -/
theorem follow_append (links : Nat) (here : Place) (steps rest : List Step) :
    tree.follow links here (steps ++ rest) =
      match tree.travel links here steps with
      | .error e => .error e
      | .ok stop => tree.follow stop.links stop.place rest := by
  induction links generalizing here steps with
  | zero =>
      rw [follow, advance_append, travel]
      rcases tree.reach here steps with e | place | ⟨folder, target, left⟩
      · rfl
      · dsimp only
        rw [follow]
      · rfl
  | succ links ih =>
      rw [follow, advance_append, travel]
      rcases tree.reach here steps with e | place | ⟨folder, target, left⟩
      · rfl
      · dsimp only
        rw [follow]
      · dsimp only
        rw [← List.append_assoc, ih]

theorem follow_append_eq_ok_iff {links : Nat} {here place : Place} {steps rest : List Step} :
    tree.follow links here (steps ++ rest) = .ok place ↔
      ∃ stop, tree.travel links here steps = .ok stop ∧
        tree.follow stop.links stop.place rest = .ok place := by
  rw [follow_append]
  rcases tree.travel links here steps with e | stop
  · simp
  · simp

/-- A walk with steps left to take stands at a directory. -/
theorem get?_of_follow_cons {links : Nat} {here place : Place} {step : Step}
    {rest : List Step} (h : tree.follow links here (step :: rest) = .ok place) :
    ∃ mode, tree.get? here = some (.directory mode) := by
  rw [follow.eq_def, advance_cons] at h
  cases hmove : tree.move here step with
  | error e =>
      rw [hmove] at h
      cases h
  | ok next => exact (move_eq_ok hmove).1

theorem follow_nil_of_directory {here : Place} {mode : Mode}
    (h : tree.get? here = some (.directory mode)) (links : Nat) :
    tree.follow links here [] = .ok here := by
  rw [follow.eq_def, advance.eq_def, h]

/-- Where steps can be taken from, a walk could have ended. -/
theorem follow_of_follow_append {links : Nat} {here place : Place} {steps rest : List Step}
    (h : tree.follow links here (steps ++ rest) = .ok place) :
    ∃ stop, tree.follow links here steps = .ok stop := by
  obtain ⟨stop, htravel, hfollow⟩ := follow_append_eq_ok_iff.mp h
  cases rest with
  | nil =>
      rw [List.append_nil] at h
      exact ⟨place, h⟩
  | cons step rest =>
      obtain ⟨mode, hmode⟩ := get?_of_follow_cons hfollow
      refine ⟨stop.place, ?_⟩
      rw [← List.append_nil steps]
      exact follow_append_eq_ok_iff.mpr
        ⟨stop, htravel, follow_nil_of_directory hmode stop.links⟩

theorem follow_stay {links : Nat} {here place : Place}
    (h : tree.follow links here [.stay] = .ok place) :
    place = here ∧ ∃ mode, tree.get? here = some (.directory mode) := by
  obtain ⟨mode, hmode⟩ := get?_of_follow_cons h
  rw [follow.eq_def, advance.eq_def, hmode] at h
  dsimp only at h
  rw [advance.eq_def, hmode] at h
  cases h
  exact ⟨rfl, mode, hmode⟩

theorem follow_stay_of_directory {here : Place} {mode : Mode}
    (h : tree.get? here = some (.directory mode)) (links : Nat) :
    tree.follow links here [.stay] = .ok here := by
  rw [follow.eq_def, advance.eq_def, h]
  dsimp only
  rw [advance.eq_def, h]

/-! ### The number of links -/

/-- A walk that ends somewhere ends there with any number of links, unless these are
too few. -/
theorem follow_eq_or_linkLoop {links : Nat} {here place : Place} {steps : List Step}
    (h : tree.follow links here steps = .ok place) (others : Nat) :
    tree.follow others here steps = .ok place ∨
      tree.follow others here steps = .error .linkLoop := by
  induction links generalizing here steps others with
  | zero =>
      rw [follow] at h
      rw [follow.eq_def]
      split at h
      · cases h
      · exact .inl h
      · cases h
  | succ links ih =>
      rw [follow] at h
      rw [follow.eq_def]
      split at h
      · cases h
      · exact .inl h
      · cases others with
        | zero => exact .inr rfl
        | succ others => exact ih h others

/-! ### What a walk looks up -/

/-- What a step that is taken looks up: a directory, the link to which it leads, or the
file into which it goes. -/
theorem entry_of_mem_moveLookups {here place : Place} {step : Step} {next : Move}
    (h : tree.move here step = .ok next) (hplace : place ∈ tree.moveLookups here step) :
    (∃ mode, tree.get? place = some (.directory mode)) ∨
      (∃ target, tree.get? place = some (.link target) ∧ here = place.dropLast ∧
        next = .link target) ∨
      ∃ file, tree.get? place = some (.file file) ∧ next = .to place := by
  obtain ⟨⟨mode, hhere⟩, hnext⟩ := move_eq_ok h
  by_cases hsame : place = here
  · rw [hsame]
    exact .inl ⟨mode, hhere⟩
  · rcases hnext with ⟨rfl, -⟩ | ⟨rfl, -⟩ | ⟨name, rfl, hlength, -⟩
    · rw [moveLookups.eq_def, hhere] at hplace
      exact absurd (List.mem_singleton.mp hplace) hsame
    · rw [moveLookups.eq_def, hhere] at hplace
      exact absurd (List.mem_singleton.mp hplace) hsame
    · rw [moveLookups_into hhere hlength] at hplace
      obtain rfl := List.mem_singleton.mp ((List.mem_cons.mp hplace).resolve_left hsame)
      rw [move_into hhere hlength] at h
      rcases hentry : tree.get? (here ++ [name]) with _ | file | mode | target
      · rw [hentry] at h
        cases h
      · rw [hentry] at h
        cases h
        exact .inr (.inr ⟨file, rfl, rfl⟩)
      · exact .inl ⟨mode, rfl⟩
      · rw [hentry] at h
        cases h
        exact .inr (.inl ⟨target, rfl, List.dropLast_concat.symm, rfl⟩)

/-- From a file no step can be taken. -/
theorem advance_of_file {here : Place} {file : File} {steps : List Step} {leg : Leg}
    (hfile : tree.get? here = some (.file file)) (h : tree.advance here steps = .ok leg) :
    leg = .arrived here := by
  rw [advance.eq_def, hfile] at h
  cases steps with
  | nil =>
      cases h
      rfl
  | cons step steps => cases h

/-- What is looked up on the way to the first link: directories, that link, or the file
at which the way ends. -/
theorem entry_of_mem_advanceLookups {here place : Place} {steps : List Step} {leg : Leg}
    (h : tree.advance here steps = .ok leg)
    (hplace : place ∈ tree.advanceLookups here steps) :
    (∃ mode, tree.get? place = some (.directory mode)) ∨
      (∃ target rest, tree.get? place = some (.link target) ∧
        leg = .link place.dropLast target rest) ∨
      ∃ file, tree.get? place = some (.file file) ∧ leg = .arrived place := by
  induction steps generalizing here with
  | nil =>
      obtain rfl := List.mem_singleton.mp hplace
      rw [advance.eq_def] at h
      dsimp only at h
      split at h
      · next file hfile =>
          cases h
          exact .inr (.inr ⟨file, hfile, rfl⟩)
      · next mode hmode => exact .inl ⟨mode, hmode⟩
      · cases h
      · cases h
  | cons step steps ih =>
      rw [advance_cons] at h
      rw [advanceLookups] at hplace
      rcases List.mem_append.mp hplace with hplace | hplace
      · split at h
        · cases h
        · next next hmove =>
            rcases entry_of_mem_moveLookups hmove hplace with
              hdirectory | ⟨target, -, -, hnext⟩ | ⟨file, hfile, hnext⟩
            · exact .inl hdirectory
            · cases hnext
            · cases hnext
              exact .inr (.inr ⟨file, hfile, advance_of_file hfile h⟩)
        · next target hmove =>
            rcases entry_of_mem_moveLookups hmove hplace with
              hdirectory | ⟨target, hlink, rfl, hnext⟩ | ⟨file, -, hnext⟩
            · exact .inl hdirectory
            · cases hnext
              cases h
              exact .inr (.inl ⟨target, steps, hlink, rfl⟩)
            · cases hnext
      · split at hplace
        · next next hmove =>
            rw [hmove] at h
            exact ih h hplace
        · cases hplace

/-- A walk has looked up directories, links that it has followed, and the file at which it
ends. -/
theorem entry_of_mem_followLookups {links : Nat} {here place found : Place}
    {steps : List Step} (h : tree.follow links here steps = .ok found)
    (hplace : place ∈ tree.followLookups links here steps) :
    (∃ mode, tree.get? place = some (.directory mode)) ∨
      (∃ target links rest, tree.get? place = some (.link target) ∧
        tree.follow links (target.start place.dropLast) (target.steps ++ rest) =
          .ok found) ∨
      ∃ file, tree.get? place = some (.file file) ∧ found = place := by
  rw [followLookups.eq_def] at hplace
  fun_induction follow tree links here steps with
  | case1 links here steps e hadvance => cases h
  | case2 links here steps found hadvance =>
      rw [hadvance, List.append_nil] at hplace
      rcases entry_of_mem_advanceLookups hadvance hplace with
        hdirectory | ⟨target, rest, -, hleg⟩ | ⟨file, hfile, hleg⟩
      · exact .inl hdirectory
      · cases hleg
      · cases hleg
        exact .inr (.inr ⟨file, hfile, (Except.ok.inj h).symm⟩)
  | case3 here steps folder target rest hadvance => cases h
  | case4 here steps folder target rest hadvance links ih =>
      rw [hadvance] at hplace
      rcases List.mem_append.mp hplace with hplace | hplace
      · rcases entry_of_mem_advanceLookups hadvance hplace with
          hdirectory | ⟨target, rest, hlink, hleg⟩ | ⟨file, -, hleg⟩
        · exact .inl hdirectory
        · cases hleg
          exact .inr (.inl ⟨_, links, rest, hlink, h⟩)
        · cases hleg
      · dsimp only at hplace
        rw [followLookups.eq_def] at hplace
        exact ih h hplace

/-- A path that leads anywhere has not met with a place where nothing stands. -/
theorem exists_get?_of_mem_lookups {workDir place found : Place} {path : Path}
    (h : tree.resolve workDir path = .ok found) (hplace : place ∈ tree.lookups workDir path) :
    ∃ entry, tree.get? place = some entry := by
  rcases entry_of_mem_followLookups (resolve_eq_ok_iff.mp h).2 (mem_lookups_iff.mp hplace).2 with
    ⟨mode, hmode⟩ | ⟨target, links, rest, hlink, -⟩ | ⟨file, hfile, -⟩
  · exact ⟨_, hmode⟩
  · exact ⟨_, hlink⟩
  · exact ⟨_, hfile⟩

/-- No path leads past a file. -/
theorem eq_of_mem_lookups_of_file {workDir place found : Place} {path : Path} {file : File}
    (h : tree.resolve workDir path = .ok found) (hplace : place ∈ tree.lookups workDir path)
    (hfile : tree.get? place = some (.file file)) : found = place := by
  rcases entry_of_mem_followLookups (resolve_eq_ok_iff.mp h).2 (mem_lookups_iff.mp hplace).2 with
    ⟨mode, hmode⟩ | ⟨target, links, rest, hlink, -⟩ | ⟨-, -, hfound⟩
  · rw [hfile] at hmode
    cases hmode
  · rw [hfile] at hlink
    cases hlink
  · exact hfound

/-! ### The last name of a path -/

/-- The first steps of a path that ends in a name lead to its folder. -/
theorem exists_travel_to_folder {workDir folder : Place} {path : Path} {name : Name}
    (hlast : path.lastStep? = some (.into name)) (hend : path.endsInSlash = false)
    (hfolder : tree.resolve workDir path.folder = .ok folder) :
    ∃ front links mode, path.steps = front ++ [.into name] ∧
      tree.travel maxLinks (path.start workDir) front = .ok ⟨folder, links⟩ ∧
      tree.get? folder = some (.directory mode) := by
  obtain ⟨front, hsteps, hfolderSteps, habsolute⟩ :=
    Path.exists_steps_eq_of_lastStep? hlast hend
  have hstart : path.folder.start workDir = path.start workDir := by
    rw [Path.start, Path.start, habsolute]
  have hfollow := (resolve_eq_ok_iff.mp hfolder).2
  rw [hfolderSteps, hstart] at hfollow
  obtain ⟨stop, htravel, hstay⟩ := follow_append_eq_ok_iff.mp hfollow
  obtain ⟨rfl, mode, hmode⟩ := follow_stay hstay
  exact ⟨front, stop.links, mode, hsteps, htravel, hmode⟩

/-- A path that ends in a name is walked to its folder and on into the name. -/
theorem resolve_eq_follow_into {workDir folder : Place} {path : Path} {name : Name}
    (hwalk : path.IsWalkable) (hlast : path.lastStep? = some (.into name))
    (hend : path.endsInSlash = false) (hfolder : tree.resolve workDir path.folder = .ok folder) :
    ∃ links mode, tree.get? folder = some (.directory mode) ∧
      tree.resolve workDir path = tree.follow links folder [.into name] := by
  obtain ⟨front, links, mode, hsteps, htravel, hmode⟩ :=
    exists_travel_to_folder hlast hend hfolder
  refine ⟨links, mode, hmode, ?_⟩
  rw [resolve_of_isWalkable hwalk, hsteps, follow_append, htravel]

/-- A walk ends at a last name that no link has. -/
theorem follow_into_of_not_link {folder : Place} {mode : Mode} {name : Name} {entry : Entry}
    (hfolder : tree.get? folder = some (.directory mode)) (hlength : name.length ≤ Name.maxLength)
    (hentry : tree.get? (folder ++ [name]) = some entry) (hlink : ∀ target, entry ≠ .link target)
    (links : Nat) : tree.follow links folder [.into name] = .ok (folder ++ [name]) := by
  rw [follow.eq_def, advance_cons, move_into hfolder hlength, hentry]
  cases entry with
  | file file =>
      dsimp only
      rw [advance.eq_def, hentry]
  | directory mode =>
      dsimp only
      rw [advance.eq_def, hentry]
  | link target => exact absurd rfl (hlink target)

theorem advance_nil_eq_ok {here : Place} {leg : Leg} (h : tree.advance here [] = .ok leg) :
    leg = .arrived here := by
  rw [advance.eq_def] at h
  dsimp only at h
  split at h
  · exact (Except.ok.inj h).symm
  · exact (Except.ok.inj h).symm
  · cases h
  · cases h

/-- A walk into a name that ends somewhere ends in the entry of that name, unless that is a
link. -/
theorem follow_into_eq_ok {links : Nat} {folder found : Place} {name : Name}
    (h : tree.follow links folder [.into name] = .ok found) :
    name.length ≤ Name.maxLength ∧
      ((∃ target, tree.get? (folder ++ [name]) = some (.link target)) ∨
        found = folder ++ [name]) := by
  rw [follow.eq_def, advance_cons] at h
  cases hmove : tree.move folder (.into name) with
  | error e =>
      rw [hmove] at h
      cases h
  | ok next =>
      obtain ⟨-, hnext⟩ := move_eq_ok hmove
      rcases hnext with ⟨hstep, -⟩ | ⟨hstep, -⟩ | ⟨other, hstep, hlength, hnext⟩
      · cases hstep
      · cases hstep
      · cases hstep
        rcases hnext with ⟨target, hlink, -⟩ | ⟨-, rfl⟩
        · exact ⟨hlength, .inl ⟨target, hlink⟩⟩
        · refine ⟨hlength, .inr ?_⟩
          rw [hmove] at h
          dsimp only at h
          cases hleg : tree.advance (folder ++ [name]) [] with
          | error e =>
              rw [hleg] at h
              cases h
          | ok leg =>
              rw [hleg, advance_nil_eq_ok hleg] at h
              exact (Except.ok.inj h).symm

theorem follow_into_link {folder : Place} {mode : Mode} {name : Name} {target : Path}
    (hfolder : tree.get? folder = some (.directory mode)) (hlength : name.length ≤ Name.maxLength)
    (hlink : tree.get? (folder ++ [name]) = some (.link target)) (links : Nat) :
    tree.follow links folder [.into name] = .error .linkLoop ∨
      ∃ left, tree.follow links folder [.into name] =
        tree.follow left (target.start folder) target.steps := by
  have hmove : tree.move folder (.into name) = .ok (.link target) := by
    rw [move_into hfolder hlength, hlink]
  rw [follow.eq_def, advance_cons, hmove]
  cases links with
  | zero => exact .inl rfl
  | succ left =>
      refine .inr ⟨left, ?_⟩
      dsimp only
      rw [List.append_nil]

/-- A link that is followed on the way of one path keeps another path, which ends in it, from
leading anywhere only for want of links. -/
theorem eq_linkLoop_of_mem_lookups {workDir place found : Place} {path other target : Path}
    {e : FileError} (hwalk : path.IsWalkable) (hend : path.endsInSlash = false)
    (hplace : tree.namedPlace workDir path = .ok place)
    (herror : tree.resolve workDir path = .error e)
    (hlink : tree.get? place = some (.link target))
    (hfound : tree.resolve workDir other = .ok found)
    (hmem : place ∈ tree.lookups workDir other) : e = .linkLoop := by
  obtain ⟨name, folder, hlast, hlength, hfolder, rfl⟩ := namedPlace_eq_ok_iff.mp hplace
  -- The target of the link leads somewhere: to the end of the other way, or on its way there.
  have htarget : ∃ links stop, tree.follow links (target.start folder) target.steps = .ok stop := by
    rcases entry_of_mem_followLookups (resolve_eq_ok_iff.mp hfound).2 (mem_lookups_iff.mp hmem).2
      with ⟨mode, hmode⟩ | ⟨other, links, rest, hother, hbehind⟩ | ⟨file, hfile, -⟩
    · rw [hlink] at hmode
      cases hmode
    · rw [hlink] at hother
      cases hother
      rw [List.dropLast_concat] at hbehind
      exact ⟨links, follow_of_follow_append hbehind⟩
    · rw [hlink] at hfile
      cases hfile
  obtain ⟨links, stop, hstop⟩ := htarget
  obtain ⟨links, mode, hmode, hresolve⟩ := resolve_eq_follow_into hwalk hlast hend hfolder
  rw [herror] at hresolve
  rcases follow_into_link hmode hlength hlink links with hnone | ⟨left, hleft⟩
  · rw [hnone] at hresolve
    exact Except.error.inj hresolve
  · rcases follow_eq_or_linkLoop hstop left with hok | hnone
    · rw [hleft, hok] at hresolve
      cases hresolve
    · rw [hleft, hnone] at hresolve
      exact Except.error.inj hresolve

/-- A path that leads nowhere, though there are links enough, is walked to its folder
without its last name. -/
theorem not_mem_lookups_folder {workDir place : Place} {path : Path} {e : FileError}
    (hwalk : path.IsWalkable) (hend : path.endsInSlash = false)
    (hplace : tree.namedPlace workDir path = .ok place)
    (herror : tree.resolve workDir path = .error e) (hloop : e ≠ .linkLoop)
    (hdirectory : ∀ mode, tree.get? place ≠ some (.directory mode)) :
    place ∉ tree.lookups workDir path.folder := by
  intro hmem
  obtain ⟨name, folder, -, -, hfolder, rfl⟩ := namedPlace_eq_ok_iff.mp hplace
  rcases entry_of_mem_followLookups (resolve_eq_ok_iff.mp hfolder).2 (mem_lookups_iff.mp hmem).2
    with ⟨mode, hmode⟩ | ⟨target, links, rest, hlink, -⟩ | ⟨-, -, hfound⟩
  · exact hdirectory mode hmode
  · exact hloop (eq_linkLoop_of_mem_lookups hwalk hend hplace herror hlink hfolder hmem)
  · exact absurd (List.self_eq_append_right.mp hfound) (List.cons_ne_nil _ _)

end FileTree
end ByteEmbed
