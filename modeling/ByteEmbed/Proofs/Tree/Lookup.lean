import ByteEmbed.FileTree.Resolve

/-!
# What a walk looks up

A walk asks a tree about finitely many places, and at each of them only whether there is
a file or a directory and where a link leads: the shape of what stands there.  This
module collects the places and shows that nothing else matters: a tree that has the
same shapes at the places that are looked up resolves a path in the same way.  This is
proved for one move first, then for the way to a link, and then for whole walks.

The last part says where these places are.  A walk that starts clear of a name,
takes no step into it and meets no link that does, stays clear of it.
-/

namespace ByteEmbed

/-- Whether a path is spelled so that a walk along it can begin. -/
def Path.IsWalkable (path : Path) : Prop :=
  0 ∉ path.bytes ∧ path.bytes ≠ [] ∧ path.bytes.length < Path.lengthLimit

/-- What a walk sees of an entry. -/
inductive Shape where
  | file
  | directory
  | link (target : Path)
  deriving DecidableEq, Repr

/-- The shape of an entry. -/
def Entry.shape : Entry → Shape
  | .file _ => .file
  | .directory _ => .directory
  | .link target => .link target

namespace FileTree

/-- The shape of what stands at a place. -/
def shapeAt (tree : FileTree) (place : Place) : Option Shape :=
  (tree.get? place).map Entry.shape

/-- Where one step of a walk leads: to a place from which it goes on, or to a link. -/
inductive Move where
  | to (place : Place)
  | link (target : Path)

/-- Takes one step of a walk. -/
def move (tree : FileTree) (here : Place) (step : Step) : Except FileError Move :=
  match tree.get? here with
  | none => .error .notFound
  | some (.file _) | some (.link _) => .error .notADirectory
  | some (.directory _) =>
      match step with
      | .stay => .ok (.to here)
      | .up => .ok (.to here.dropLast)
      | .into name =>
          if Name.maxLength < name.length then .error .nameTooLong
          else
            match tree.get? (here ++ [name]) with
            | none => .error .notFound
            | some (.link target) => .ok (.link target)
            | some _ => .ok (.to (here ++ [name]))

/-- The places that one step looks up. -/
def moveLookups (tree : FileTree) (here : Place) (step : Step) : List Place :=
  match tree.get? here, step with
  | some (.directory _), .into name =>
      if Name.maxLength < name.length then [here] else [here, here ++ [name]]
  | _, _ => [here]

/-- The places that a walk looks up on the way to the first link. -/
def advanceLookups (tree : FileTree) (here : Place) : List Step → List Place
  | [] => [here]
  | step :: rest =>
      tree.moveLookups here step ++
        match tree.move here step with
        | .ok (.to place) => tree.advanceLookups place rest
        | _ => []

/-- The places that a walk through at most the given number of links looks up. -/
def followLookups (tree : FileTree) (links : Nat) (here : Place) (steps : List Step) :
    List Place :=
  tree.advanceLookups here steps ++
    match tree.advance here steps with
    | .ok (.link folder target rest) =>
        match links with
        | 0 => []
        | links + 1 => tree.followLookups links (target.start folder) (target.steps ++ rest)
    | _ => []

/-- The places that resolving a path looks up. -/
def lookups (tree : FileTree) (workDir : Place) (path : Path) : List Place :=
  if 0 ∈ path.bytes then []
  else if path.bytes = [] then []
  else if Path.lengthLimit ≤ path.bytes.length then []
  else tree.followLookups maxLinks (path.start workDir) path.steps

/-- The places that finding the entry named by a path looks up. -/
def namedLookups (tree : FileTree) (workDir : Place) (path : Path) : List Place :=
  match path.lastStep? with
  | some (.into _) => tree.lookups workDir path.folder
  | _ => tree.lookups workDir path

variable {tree other : FileTree}

/-- A walk goes on where its first step leads. -/
theorem advance_cons (here : Place) (step : Step) (rest : List Step) :
    tree.advance here (step :: rest) =
      match tree.move here step with
      | .error e => .error e
      | .ok (.to place) => tree.advance place rest
      | .ok (.link target) => .ok (.link here target rest) := by
  rw [advance.eq_def, move.eq_def]
  cases tree.get? here with
  | none => rfl
  | some entry =>
      cases entry with
      | file file => rfl
      | link target => rfl
      | directory mode =>
          cases step with
          | stay => rfl
          | up => rfl
          | into name =>
              dsimp only
              split
              · rfl
              · rcases tree.get? (here ++ [name]) with _ | _ | _ | _ <;> rfl

theorem move_into {here : Place} {mode : Mode} {name : Name}
    (hhere : tree.get? here = some (.directory mode)) (hlength : name.length ≤ Name.maxLength) :
    tree.move here (.into name) =
      match tree.get? (here ++ [name]) with
      | none => .error .notFound
      | some (.link target) => .ok (.link target)
      | some _ => .ok (.to (here ++ [name])) := by
  rw [move.eq_def, hhere]
  exact if_neg (Nat.not_lt.mpr hlength)

/-- A step is taken from a directory, and leads to a link only by a name. -/
theorem move_eq_ok {here : Place} {step : Step} {next : Move}
    (h : tree.move here step = .ok next) :
    (∃ mode, tree.get? here = some (.directory mode)) ∧
      (step = .stay ∧ next = .to here ∨ step = .up ∧ next = .to here.dropLast ∨
        ∃ name, step = .into name ∧ name.length ≤ Name.maxLength ∧
          ((∃ target, tree.get? (here ++ [name]) = some (.link target) ∧
              next = .link target) ∨
            ((∀ target, tree.get? (here ++ [name]) ≠ some (.link target)) ∧
              next = .to (here ++ [name])))) := by
  rw [move.eq_def] at h
  split at h
  · cases h
  · cases h
  · cases h
  · next mode hdirectory =>
      refine ⟨⟨mode, hdirectory⟩, ?_⟩
      cases step with
      | stay =>
          cases h
          exact .inl ⟨rfl, rfl⟩
      | up =>
          cases h
          exact .inr (.inl ⟨rfl, rfl⟩)
      | into name =>
          right
          right
          dsimp only at h
          split at h
          · cases h
          · next hlength =>
              refine ⟨name, rfl, Nat.le_of_not_lt hlength, ?_⟩
              split at h
              · cases h
              · next target hlink =>
                  cases h
                  exact .inl ⟨target, hlink, rfl⟩
              · next entry hlink hentry =>
                  cases h
                  refine .inr ⟨?_, rfl⟩
                  intro target
                  rw [hentry]
                  exact fun hcontra => hlink target (Option.some.inj hcontra)

/-! ### The two ends of a walk -/

theorem advance_of_get?_eq_none {here : Place} (h : tree.get? here = none)
    (steps : List Step) : tree.advance here steps = .error .notFound := by
  rw [advance.eq_def, h]
  cases steps <;> rfl

theorem get?_of_advance {here place : Place} {steps : List Step}
    (h : tree.advance here steps = .ok (.arrived place)) :
    (∃ file, tree.get? place = some (.file file)) ∨
      ∃ mode, tree.get? place = some (.directory mode) := by
  induction steps generalizing here with
  | nil =>
      rw [advance.eq_def] at h
      dsimp only at h
      split at h
      · next file hfile =>
          cases h
          exact .inl ⟨file, hfile⟩
      · next mode hdirectory =>
          cases h
          exact .inr ⟨mode, hdirectory⟩
      · cases h
      · cases h
  | cons step rest ih =>
      rw [advance_cons] at h
      split at h
      · cases h
      · exact ih h
      · cases h

theorem get?_of_follow {links : Nat} {here place : Place} {steps : List Step}
    (h : tree.follow links here steps = .ok place) :
    (∃ file, tree.get? place = some (.file file)) ∨
      ∃ mode, tree.get? place = some (.directory mode) := by
  fun_induction follow tree links here steps with
  | case1 links here steps e hadvance => cases h
  | case2 links here steps found hadvance =>
      cases h
      exact get?_of_advance hadvance
  | case3 here steps folder target rest hadvance => cases h
  | case4 here steps folder target rest hadvance links ih => exact ih h

theorem resolve_of_isWalkable {workDir : Place} {path : Path} (h : path.IsWalkable) :
    tree.resolve workDir path = tree.follow maxLinks (path.start workDir) path.steps := by
  obtain ⟨hzero, hempty, hlength⟩ := h
  rw [resolve, if_neg hzero, if_neg hempty, if_neg (Nat.not_le.mpr hlength), walk]

/-- A path that cannot be walked is refused by its spelling, whatever the tree. -/
theorem resolve_of_not_isWalkable {path : Path} (h : ¬ path.IsWalkable) :
    ∃ e, ∀ (tree : FileTree) (workDir : Place), tree.resolve workDir path = .error e := by
  by_cases hzero : 0 ∈ path.bytes
  · refine ⟨.zeroByte, fun tree workDir => ?_⟩
    rw [resolve, if_pos hzero]
  by_cases hempty : path.bytes = []
  · refine ⟨.notFound, fun tree workDir => ?_⟩
    rw [resolve, if_neg hzero, if_pos hempty]
  have hlength : Path.lengthLimit ≤ path.bytes.length :=
    Nat.le_of_not_lt fun hshort => h ⟨hzero, hempty, hshort⟩
  refine ⟨.nameTooLong, fun tree workDir => ?_⟩
  rw [resolve, if_neg hzero, if_neg hempty, if_pos hlength]

theorem resolve_eq_ok_iff {workDir place : Place} {path : Path} :
    tree.resolve workDir path = .ok place ↔
      path.IsWalkable ∧
        tree.follow maxLinks (path.start workDir) path.steps = .ok place := by
  by_cases h : path.IsWalkable
  · rw [resolve_of_isWalkable h]
    exact ⟨fun hfollow => ⟨h, hfollow⟩, And.right⟩
  · obtain ⟨e, herror⟩ := resolve_of_not_isWalkable h
    rw [herror]
    constructor
    · intro hcontra
      cases hcontra
    · intro hwalk
      exact absurd hwalk.1 h

/-- What a path leads to is a file or a directory. -/
theorem get?_of_resolve {workDir place : Place} {path : Path}
    (h : tree.resolve workDir path = .ok place) :
    (∃ file, tree.get? place = some (.file file)) ∨
      ∃ mode, tree.get? place = some (.directory mode) :=
  get?_of_follow (resolve_eq_ok_iff.mp h).2

theorem read_of_resolve {workDir place : Place} {path : Path} {file : File}
    (h : tree.resolve workDir path = .ok place) (hfile : tree.get? place = some (.file file)) :
    tree.read workDir path = .ok file.contents := by
  rw [read, h]
  dsimp only
  rw [hfile]

/-- A path that leads anywhere starts from a place that exists. -/
theorem get?_start_of_resolve {workDir place : Place} {path : Path}
    (h : tree.resolve workDir path = .ok place) :
    ∃ entry, tree.get? (path.start workDir) = some entry := by
  obtain ⟨-, hfollow⟩ := resolve_eq_ok_iff.mp h
  cases hstart : tree.get? (path.start workDir) with
  | none =>
      rw [follow.eq_def, advance_of_get?_eq_none hstart] at hfollow
      cases hfollow
  | some entry => exact ⟨entry, rfl⟩

/-- A path that ends in a name names the entry of that name in its folder. -/
theorem namedPlace_eq_ok_iff {workDir place : Place} {path : Path} :
    tree.namedPlace workDir path = .ok place ↔
      ∃ name folder, path.lastStep? = some (.into name) ∧ name.length ≤ Name.maxLength ∧
        tree.resolve workDir path.folder = .ok folder ∧ place = folder ++ [name] := by
  rw [namedPlace]
  constructor
  · intro h
    split at h
    · next name hlast =>
        split at h
        · cases h
        · next folder hfolder =>
            split at h
            · cases h
            · next hlength =>
                cases h
                exact ⟨name, folder, hlast, Nat.le_of_not_lt hlength, hfolder, rfl⟩
    · split at h <;> cases h
  · rintro ⟨name, folder, hlast, hlength, hfolder, rfl⟩
    rw [hlast]
    dsimp only
    rw [hfolder]
    exact if_neg (Nat.not_lt.mpr hlength)

/-! ### Trees that agree on what is looked up -/

theorem shapeAt_set_of_ne {place here : Place} (entry : Entry) (h : here ≠ place) :
    (tree.set place entry).shapeAt here = tree.shapeAt here := by
  rw [shapeAt, shapeAt, get?_set_of_ne _ _ h]

/-- A file instead of a file changes no shape. -/
theorem shapeAt_set_file {place : Place} {old : File}
    (h : tree.get? place = some (.file old)) (new : File) (here : Place) :
    (tree.set place (.file new)).shapeAt here = tree.shapeAt here := by
  by_cases hplace : here = place
  · rw [hplace, shapeAt, shapeAt, get?_set_self, h]
    rfl
  · exact shapeAt_set_of_ne _ hplace

/-- A step sees nothing but shapes. -/
theorem move_eq_shape (here : Place) (step : Step) :
    tree.move here step =
      match tree.shapeAt here with
      | none => .error .notFound
      | some .file | some (.link _) => .error .notADirectory
      | some .directory =>
          match step with
          | .stay => .ok (.to here)
          | .up => .ok (.to here.dropLast)
          | .into name =>
              if Name.maxLength < name.length then .error .nameTooLong
              else
                match tree.shapeAt (here ++ [name]) with
                | none => .error .notFound
                | some (.link target) => .ok (.link target)
                | some _ => .ok (.to (here ++ [name])) := by
  rw [move.eq_def, shapeAt]
  rcases tree.get? here with _ | _ | _ | _
  · rfl
  · rfl
  · cases step with
    | stay => rfl
    | up => rfl
    | into name =>
        dsimp only [shapeAt]
        rcases tree.get? (here ++ [name]) with _ | _ | _ | _ <;> rfl
  · rfl

theorem moveLookups_eq_shape (here : Place) (step : Step) :
    tree.moveLookups here step =
      match tree.shapeAt here, step with
      | some .directory, .into name =>
          if Name.maxLength < name.length then [here] else [here, here ++ [name]]
      | _, _ => [here] := by
  rw [moveLookups.eq_def, shapeAt]
  rcases tree.get? here with _ | _ | _ | _ <;> cases step <;> rfl

theorem advance_nil_eq_shape (here : Place) :
    tree.advance here [] =
      match tree.shapeAt here with
      | some .file | some .directory => .ok (.arrived here)
      | some (.link _) | none => .error .notFound := by
  rw [advance.eq_def]
  dsimp only [shapeAt]
  rcases tree.get? here with _ | _ | _ | _ <;> rfl

theorem here_mem_moveLookups (here : Place) (step : Step) :
    here ∈ tree.moveLookups here step := by
  rw [moveLookups.eq_def]
  split
  · split <;> simp
  · simp

theorem moveLookups_into {here : Place} {mode : Mode} {name : Name}
    (hhere : tree.get? here = some (.directory mode)) (hlength : name.length ≤ Name.maxLength) :
    tree.moveLookups here (.into name) = [here, here ++ [name]] := by
  rw [moveLookups.eq_def, hhere]
  exact if_neg (Nat.not_lt.mpr hlength)

theorem move_congr {here : Place} {step : Step}
    (h : ∀ place ∈ tree.moveLookups here step, other.shapeAt place = tree.shapeAt place) :
    other.move here step = tree.move here step := by
  have hhere := h here (here_mem_moveLookups here step)
  rw [move_eq_shape, move_eq_shape, hhere, shapeAt]
  cases hentry : tree.get? here with
  | none => rfl
  | some entry =>
      cases entry with
      | file file => rfl
      | link target => rfl
      | directory mode =>
          cases step with
          | stay => rfl
          | up => rfl
          | into name =>
              by_cases hlength : Name.maxLength < name.length
              · simp only [if_pos hlength]
              · have hname := moveLookups_into hentry (Nat.le_of_not_lt hlength)
                have hnext := h (here ++ [name]) (by simp [hname])
                simp only [hnext]

theorem advance_congr {here : Place} {steps : List Step}
    (h : ∀ place ∈ tree.advanceLookups here steps,
      other.shapeAt place = tree.shapeAt place) :
    other.advance here steps = tree.advance here steps := by
  induction steps generalizing here with
  | nil =>
      rw [advance_nil_eq_shape, advance_nil_eq_shape, h here (List.mem_singleton_self here)]
  | cons step rest ih =>
      rw [advanceLookups] at h
      -- The trees agree on the first step, so both walks go on from one place.
      have hmove := move_congr fun place hplace => h place (List.mem_append_left _ hplace)
      rw [advance_cons, advance_cons, hmove]
      split
      · rfl
      · next place hto =>
          rw [hto] at h
          exact ih fun place hplace => h place (List.mem_append_right _ hplace)
      · rfl

theorem follow_congr {links : Nat} {here : Place} {steps : List Step}
    (h : ∀ place ∈ tree.followLookups links here steps,
      other.shapeAt place = tree.shapeAt place) :
    other.follow links here steps = tree.follow links here steps := by
  induction links generalizing here steps with
  | zero =>
      rw [followLookups] at h
      have hadvance := advance_congr fun place hplace => h place (List.mem_append_left _ hplace)
      rw [follow, follow, hadvance]
  | succ links ih =>
      rw [followLookups] at h
      have hadvance := advance_congr fun place hplace => h place (List.mem_append_left _ hplace)
      rw [follow, follow, hadvance]
      split
      · rfl
      · rfl
      · next folder target rest hlink =>
          rw [hlink] at h
          exact ih fun place hplace => h place (List.mem_append_right _ hplace)

theorem mem_lookups_iff {workDir place : Place} {path : Path} :
    place ∈ tree.lookups workDir path ↔
      path.IsWalkable ∧
        place ∈ tree.followLookups maxLinks (path.start workDir) path.steps := by
  unfold lookups Path.IsWalkable
  by_cases hzero : 0 ∈ path.bytes
  · simp [hzero]
  by_cases hempty : path.bytes = []
  · simp [hempty]
  by_cases hlength : Path.lengthLimit ≤ path.bytes.length
  · simp [hzero, hempty, hlength, Nat.not_lt.mpr hlength]
  · simp [hzero, hempty, hlength, Nat.not_le.mp hlength]

theorem resolve_congr {workDir : Place} {path : Path}
    (h : ∀ place ∈ tree.lookups workDir path, other.shapeAt place = tree.shapeAt place) :
    other.resolve workDir path = tree.resolve workDir path := by
  by_cases hwalk : path.IsWalkable
  · rw [resolve_of_isWalkable hwalk, resolve_of_isWalkable hwalk]
    exact follow_congr fun place hplace => h place (mem_lookups_iff.mpr ⟨hwalk, hplace⟩)
  · obtain ⟨e, herror⟩ := resolve_of_not_isWalkable hwalk
    rw [herror, herror]

theorem namedPlace_congr {workDir : Place} {path : Path}
    (h : ∀ place ∈ tree.namedLookups workDir path, other.shapeAt place = tree.shapeAt place) :
    other.namedPlace workDir path = tree.namedPlace workDir path := by
  rw [namedLookups] at h
  rw [namedPlace, namedPlace]
  split
  · next name hlast =>
      rw [hlast] at h
      rw [resolve_congr h]
  · next hlast =>
      split at h
      · next name hname => exact absurd hname (hlast name)
      · rw [resolve_congr h]

theorem advanceLookups_congr {here : Place} {steps : List Step}
    (h : ∀ place ∈ tree.advanceLookups here steps,
      other.shapeAt place = tree.shapeAt place) :
    other.advanceLookups here steps = tree.advanceLookups here steps := by
  induction steps generalizing here with
  | nil => rfl
  | cons step rest ih =>
      rw [advanceLookups] at h
      have hfirst : ∀ place ∈ tree.moveLookups here step,
          other.shapeAt place = tree.shapeAt place :=
        fun place hplace => h place (List.mem_append_left _ hplace)
      have hhere := hfirst here (here_mem_moveLookups here step)
      rw [advanceLookups, advanceLookups, move_congr hfirst, moveLookups_eq_shape, hhere,
        ← moveLookups_eq_shape]
      split
      · next place hto =>
          rw [hto] at h
          rw [ih fun place hplace => h place (List.mem_append_right _ hplace)]
      · rfl

theorem followLookups_congr {links : Nat} {here : Place} {steps : List Step}
    (h : ∀ place ∈ tree.followLookups links here steps,
      other.shapeAt place = tree.shapeAt place) :
    other.followLookups links here steps = tree.followLookups links here steps := by
  induction links generalizing here steps with
  | zero =>
      rw [followLookups] at h
      have hleg : ∀ place ∈ tree.advanceLookups here steps,
          other.shapeAt place = tree.shapeAt place :=
        fun place hplace => h place (List.mem_append_left _ hplace)
      rw [followLookups, followLookups, advance_congr hleg, advanceLookups_congr hleg]
  | succ links ih =>
      rw [followLookups] at h
      have hleg : ∀ place ∈ tree.advanceLookups here steps,
          other.shapeAt place = tree.shapeAt place :=
        fun place hplace => h place (List.mem_append_left _ hplace)
      rw [followLookups, followLookups, advance_congr hleg, advanceLookups_congr hleg]
      split
      · next folder target rest hlink =>
          rw [hlink] at h
          dsimp only
          rw [ih fun place hplace => h place (List.mem_append_right _ hplace)]
      · rfl

/-- Trees that agree on what one of them looks up look up the same. -/
theorem lookups_congr {workDir : Place} {path : Path}
    (h : ∀ place ∈ tree.lookups workDir path, other.shapeAt place = tree.shapeAt place) :
    other.lookups workDir path = tree.lookups workDir path := by
  unfold lookups at h ⊢
  split
  · rfl
  · next hzero =>
    rw [if_neg hzero] at h
    split
    · rfl
    · next hempty =>
      rw [if_neg hempty] at h
      split
      · rfl
      · next hlength =>
        rw [if_neg hlength] at h
        exact followLookups_congr h

/-! ### Walks that stay clear of a name -/

/-- Whether no link of a tree leads into a name. -/
def NoLinkInto (tree : FileTree) (name : Name) : Prop :=
  ∀ place target, tree.get? place = some (.link target) → Step.into name ∉ target.steps

theorem not_mem_append_singleton {name next : Name} {here : Place} (hhere : name ∉ here)
    (hnext : Step.into next ≠ .into name) : name ∉ here ++ [next] := by
  intro hmem
  rcases List.mem_append.mp hmem with hmem | hmem
  · exact hhere hmem
  · exact hnext (congrArg Step.into (List.mem_singleton.mp hmem).symm)

theorem not_mem_of_move_to {name : Name} {here place : Place} {step : Step}
    (hhere : name ∉ here) (hstep : step ≠ .into name)
    (h : tree.move here step = .ok (.to place)) : name ∉ place := by
  obtain ⟨-, hmove | hmove | ⟨next, rfl, -, hmove⟩⟩ := move_eq_ok h
  · cases hmove.2
    exact hhere
  · cases hmove.2
    exact fun hmem => hhere (List.dropLast_subset here hmem)
  · rcases hmove with ⟨target, -, hto⟩ | ⟨-, hto⟩
    · cases hto
    · cases hto
      exact not_mem_append_singleton hhere hstep

theorem not_mem_of_mem_moveLookups {name : Name} {here : Place} {step : Step}
    (hhere : name ∉ here) (hstep : step ≠ .into name) :
    ∀ place ∈ tree.moveLookups here step, name ∉ place := by
  intro place hplace
  rw [moveLookups.eq_def] at hplace
  split at hplace
  · split at hplace
    · rw [List.mem_singleton.mp hplace]
      exact hhere
    · rcases List.mem_cons.mp hplace with rfl | hplace
      · exact hhere
      · rw [List.mem_singleton.mp hplace]
        exact not_mem_append_singleton hhere hstep
  · rw [List.mem_singleton.mp hplace]
    exact hhere

theorem not_mem_of_mem_advanceLookups {name : Name} {here : Place} {steps : List Step}
    (hhere : name ∉ here) (hsteps : Step.into name ∉ steps) :
    ∀ place ∈ tree.advanceLookups here steps, name ∉ place := by
  induction steps generalizing here with
  | nil =>
      intro place hplace
      rw [List.mem_singleton.mp hplace]
      exact hhere
  | cons step rest ih =>
      have hstep : step ≠ .into name := fun h => hsteps (h ▸ List.mem_cons_self)
      have hrest : Step.into name ∉ rest := fun h => hsteps (List.mem_cons_of_mem _ h)
      intro place hplace
      rw [advanceLookups] at hplace
      rcases List.mem_append.mp hplace with hplace | hplace
      · exact not_mem_of_mem_moveLookups hhere hstep place hplace
      · split at hplace
        · next next hto =>
            exact ih (not_mem_of_move_to hhere hstep hto) hrest place hplace
        · cases hplace

/-- A link is met in a folder that the walk has looked up, and the steps left to take
are those behind its name. -/
theorem advance_eq_link {here folder : Place} {steps rest : List Step} {target : Path}
    (h : tree.advance here steps = .ok (.link folder target rest)) :
    folder ∈ tree.advanceLookups here steps ∧
      ∃ front name, steps = front ++ .into name :: rest ∧
        tree.get? (folder ++ [name]) = some (.link target) := by
  induction steps generalizing here with
  | nil =>
      rw [advance.eq_def] at h
      dsimp only at h
      split at h <;> cases h
  | cons step steps ih =>
      rw [advance_cons] at h
      rw [advanceLookups]
      split at h
      · cases h
      · next place hto =>
          obtain ⟨hfolder, front, name, rfl, hlink⟩ := ih h
          rw [hto]
          exact ⟨List.mem_append_right _ hfolder, step :: front, name, rfl, hlink⟩
      · next link hlink =>
          cases h
          obtain ⟨-, hmove | hmove | ⟨name, rfl, -, hmove⟩⟩ := move_eq_ok hlink
          · cases hmove.2
          · cases hmove.2
          obtain ⟨target, hname, hto⟩ | ⟨-, hto⟩ := hmove
          · cases hto
            exact ⟨List.mem_append_left _ (here_mem_moveLookups _ _), [], name, rfl, hname⟩
          · cases hto

theorem not_mem_start {name : Name} {workDir : Place} (h : name ∉ workDir) (path : Path) :
    name ∉ path.start workDir := by
  rw [Path.start]
  split
  · exact List.not_mem_nil
  · exact h

/-- A walk that starts clear of a name and takes no step into it stays clear of it,
if no link leads into it. -/
theorem not_mem_of_mem_followLookups {name : Name} (hlinks : tree.NoLinkInto name)
    {links : Nat} {here : Place} {steps : List Step}
    (hhere : name ∉ here) (hsteps : Step.into name ∉ steps) :
    ∀ place ∈ tree.followLookups links here steps, name ∉ place := by
  induction links generalizing here steps with
  | zero =>
      intro place hplace
      rw [followLookups] at hplace
      rcases List.mem_append.mp hplace with hplace | hplace
      · exact not_mem_of_mem_advanceLookups hhere hsteps place hplace
      · split at hplace <;> cases hplace
  | succ links ih =>
      intro place hplace
      rw [followLookups] at hplace
      rcases List.mem_append.mp hplace with hplace | hplace
      · exact not_mem_of_mem_advanceLookups hhere hsteps place hplace
      · split at hplace
        · next folder target rest hlink =>
            -- Behind a link the walk goes on from a folder that it has looked up.
            obtain ⟨hfolder, front, link, hfront, htarget⟩ := advance_eq_link hlink
            have hclear := not_mem_of_mem_advanceLookups hhere hsteps folder hfolder
            refine ih (not_mem_start hclear target) ?_ place hplace
            intro hmem
            rcases List.mem_append.mp hmem with hmem | hmem
            · exact hlinks _ _ htarget hmem
            · rw [hfront] at hsteps
              exact hsteps (List.mem_append_right _ (List.mem_cons_of_mem _ hmem))
        · cases hplace

end FileTree
end ByteEmbed
