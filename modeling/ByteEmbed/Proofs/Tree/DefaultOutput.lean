import ByteEmbed.Proofs.Tree.Success

/-!
# The default output

The suffix that makes the default output of an input goes behind the last name of the input,
whatever the spelling in front of it, so the default output is named in the folder of the
input (`folder_defaultOutput`).  That folder exists if the input can be read, and then there
are four cases, which `DefaultSlot` lists: a directory is in the way, the name has become
too long, the output goes into the folder, or it goes to a file that is linked from there.
None of them depends on what else the path of the input goes through.

A directory that is in the way is told by its own error, unless it is the root, which the
default output can only reach through a link.  The root is refused because it is in use.
-/

namespace ByteEmbed

/-! ### Its spelling -/

namespace Path

/-- The name of the default output of an input. -/
def outputName (input : Path) : Name :=
  input.lastPiece ++ outputSuffix.encode

theorem length_outputName (input : Path) : input.outputName.length = input.lastPiece.length + 2 :=
  List.length_append

theorem slash_not_mem_suffix : slash ∉ outputSuffix.encode := by decide

theorem slash_not_mem_append_suffix {piece : List UInt8} (h : slash ∉ piece) :
    slash ∉ piece ++ outputSuffix.encode :=
  fun hmem => (List.mem_append.mp hmem).elim h slash_not_mem_suffix

theorem ofPiece_append_suffix (piece : List UInt8) :
    Step.ofPiece (piece ++ outputSuffix.encode) = .into (piece ++ outputSuffix.encode) := by
  have hlast : (piece ++ outputSuffix.encode).getLast? = some 0x63 :=
    List.getLast?_append_of_ne_nil _ (by decide)
  refine ofPiece_eq_into_iff.mpr ⟨rfl, ?_, ?_, ?_⟩
  all_goals
    intro h
    rw [h] at hlast
    revert hlast
    decide

theorem lastPiece_defaultOutput (input : Path) :
    input.defaultOutput.lastPiece = input.outputName := by
  by_cases hslash : slash ∈ input.bytes
  · obtain ⟨front, last, hlast, rfl⟩ := exists_eq_append_slash hslash
    rw [outputName, lastPiece_append_slash hlast, defaultOutput, List.append_assoc,
      List.cons_append, lastPiece_append_slash (slash_not_mem_append_suffix hlast)]
  · rw [outputName, lastPiece_of_not_mem hslash, defaultOutput,
      lastPiece_of_not_mem (slash_not_mem_append_suffix hslash)]

/-- The default output ends in a name. -/
theorem lastStep?_defaultOutput (input : Path) :
    input.defaultOutput.lastStep? = some (.into input.outputName) ∧
      input.defaultOutput.endsInSlash = false := by
  rw [lastStep?_eq_into_iff, lastPiece_defaultOutput]
  exact ofPiece_eq_into_iff.mp (ofPiece_append_suffix input.lastPiece)

/-- The default output of an input that ends in a step is named in the folder of the input. -/
theorem folder_defaultOutput {input : Path} (h : Step.ofPiece input.lastPiece ≠ .stay) :
    input.defaultOutput.folder = input.folder := by
  have hsuffix : ∀ piece, Step.ofPiece (piece ++ outputSuffix.encode) ≠ .stay := by
    intro piece
    rw [ofPiece_append_suffix]
    exact nofun
  by_cases hslash : slash ∈ input.bytes
  · obtain ⟨front, last, hlast, rfl⟩ := exists_eq_append_slash hslash
    rw [lastPiece_append_slash hlast] at h
    rw [folder_append_slash hlast h, defaultOutput, List.append_assoc, List.cons_append,
      folder_append_slash (slash_not_mem_append_suffix hlast) (hsuffix last)]
  · obtain ⟨bytes⟩ := input
    rw [lastPiece_of_not_mem hslash] at h
    rw [folder_of_not_mem hslash h, defaultOutput,
      folder_of_not_mem (slash_not_mem_append_suffix hslash) (hsuffix bytes)]

end Path

namespace FileTree

variable {tree : FileTree} {workDir place : Place} {input : Path}

/-! ### The folder of an input -/

/-- A path that leads to a file does not end by staying. -/
theorem LeadsToFile.ofPiece_ne_stay (h : tree.LeadsToFile workDir input) :
    Step.ofPiece input.lastPiece ≠ .stay := by
  intro hstay
  obtain ⟨place, file, hresolve, hfile⟩ := h
  have hlast := Path.getLast?_steps input
  rw [hstay] at hlast
  obtain ⟨front, hsteps⟩ := List.getLast?_eq_some_iff.mp hlast
  have hfollow := (resolve_eq_ok_iff.mp hresolve).2
  rw [hsteps] at hfollow
  obtain ⟨stop, -, hend⟩ := follow_append_eq_ok_iff.mp hfollow
  obtain ⟨rfl, mode, hmode⟩ := follow_stay hend
  rw [hfile] at hmode
  cases hmode

/-- A path with a last step to take leads through its folder, which is a directory. -/
theorem leadsToDirectory_folder (hstep : Step.ofPiece input.lastPiece ≠ .stay)
    (h : tree.resolve workDir input = .ok place) :
    tree.LeadsToDirectory workDir input.folder := by
  obtain ⟨front, hsteps, hfolder, habsolute⟩ := Path.exists_steps_eq_concat hstep
  obtain ⟨hwalk, hfollow⟩ := resolve_eq_ok_iff.mp h
  have hstart : input.folder.start workDir = input.start workDir := by
    rw [Path.start, Path.start, habsolute]
  rw [hsteps] at hfollow
  obtain ⟨stop, htravel, hend⟩ := follow_append_eq_ok_iff.mp hfollow
  obtain ⟨mode, hmode⟩ := get?_of_follow_cons hend
  refine ⟨stop.place, mode, resolve_eq_ok_iff.mpr ⟨hwalk.folder, ?_⟩, hmode⟩
  rw [hfolder, hstart]
  exact follow_append_eq_ok_iff.mpr
    ⟨stop, htravel, follow_stay_of_directory hmode stop.links⟩

/-! ### The slot of a default output -/

/-- What there is for the default output of an input: no slot if a directory is in the way or
the name is too long, and otherwise a slot in the folder of the input, or that of a file to
which a link in this folder leads. -/
inductive DefaultSlot (tree : FileTree) (workDir folder : Place) (input : Path) :
    Except FileError Slot → Prop where
  | directory {found : Place} {mode : Mode}
      (hresolve : tree.resolve workDir input.defaultOutput = .ok found)
      (hmode : tree.get? found = some (.directory mode))
      (hlength : input.outputName.length ≤ Name.maxLength) :
      DefaultSlot tree workDir folder input (.error (obstruction found))
  | tooLong (hdirectory : ¬ tree.LeadsToDirectory workDir input.defaultOutput)
      (hlength : Name.maxLength < input.outputName.length) :
      DefaultSlot tree workDir folder input (.error .nameTooLong)
  | inFolder {slot : Slot} (hdirectory : ¬ tree.LeadsToDirectory workDir input.defaultOutput)
      (hlength : input.outputName.length ≤ Name.maxLength)
      (hplace : slot.place = folder ++ [input.outputName]) :
      DefaultSlot tree workDir folder input (.ok slot)
  | linked {slot : Slot} {target : Path} {old : File}
      (hdirectory : ¬ tree.LeadsToDirectory workDir input.defaultOutput)
      (hlength : input.outputName.length ≤ Name.maxLength)
      (hlink : tree.get? (folder ++ [input.outputName]) = some (.link target))
      (hresolve : tree.resolve workDir input.defaultOutput = .ok slot.place)
      (hold : tree.get? slot.place = some (.file old)) :
      DefaultSlot tree workDir folder input (.ok slot)

theorem DefaultSlot.outcome {folder : Place} {result : Except FileError Slot}
    (h : DefaultSlot tree workDir folder input result) :
    ((∃ slot, result = .ok slot) ∨ result = .error .isADirectory ∨ result = .error .busy ∨
        result = .error .nameTooLong) ∧
      (result = .error .isADirectory ↔ tree.LeadsToDirectory workDir input.defaultOutput ∧
        tree.resolve workDir input.defaultOutput ≠ .ok []) ∧
      (result = .error .busy ↔ tree.LeadsToDirectory workDir input.defaultOutput ∧
        tree.resolve workDir input.defaultOutput = .ok []) ∧
      (result = .error .nameTooLong ↔ Name.maxLength < input.outputName.length) := by
  cases h with
  | @directory found mode hresolve hmode hlength =>
      have hdirectory : tree.LeadsToDirectory workDir input.defaultOutput :=
        ⟨found, mode, hresolve, hmode⟩
      by_cases hroot : found = []
      · simp [hdirectory, hresolve, hroot, obstruction, Nat.not_lt.mpr hlength]
      · simp [hdirectory, hresolve, hroot, obstruction, Nat.not_lt.mpr hlength]
  | tooLong hdirectory hlength =>
      simp [hdirectory, hlength]
  | inFolder hdirectory hlength _ =>
      simp [hdirectory, hlength]
  | linked hdirectory hlength _ _ _ =>
      simp [hdirectory, hlength]

theorem isWalkable_defaultOutput (h : input.IsWalkable)
    (hlimit : input.defaultOutput.bytes.length < Path.lengthLimit) :
    input.defaultOutput.IsWalkable := by
  obtain ⟨hzero, hempty, -⟩ := h
  refine ⟨?_, ?_, hlimit⟩
  · rw [Path.bytes_defaultOutput]
    exact fun hmem => (List.mem_append.mp hmem).elim hzero (by decide)
  · rw [Path.bytes_defaultOutput]
    exact List.append_ne_nil_of_left_ne_nil hempty _

theorem not_leadsToDirectory_of_error {path : Path} {e : FileError}
    (h : tree.resolve workDir path = .error e) : ¬ tree.LeadsToDirectory workDir path := by
  rintro ⟨place, mode, hresolve, -⟩
  rw [h] at hresolve
  cases hresolve

/-- If the default output leads nowhere, its name alone decides. -/
theorem defaultSlot_of_error {folder : Place} {e : FileError}
    (hwalk : input.defaultOutput.IsWalkable)
    (hfolder : tree.resolve workDir input.defaultOutput.folder = .ok folder)
    (herror : tree.resolve workDir input.defaultOutput = .error e) :
    DefaultSlot tree workDir folder input (tree.outputSlot workDir input.defaultOutput) := by
  have hdirectory := not_leadsToDirectory_of_error herror
  obtain ⟨hlast, hend⟩ := Path.lastStep?_defaultOutput input
  -- The folder exists, so there is a destination unless the name is too long for an entry.
  by_cases hlength : Name.maxLength < input.outputName.length
  · have hslot : tree.outputSlot workDir input.defaultOutput = .error .nameTooLong := by
      obtain ⟨hzero, -, hlimit⟩ := hwalk
      rw [outputSlot, herror]
      dsimp only
      rw [hfolder]
      dsimp only
      rw [destination, if_neg hzero, if_neg (Nat.not_le.mpr hlimit), namedPlace, hlast]
      dsimp only
      rw [hfolder]
      dsimp only
      rw [if_pos hlength]
    rw [hslot]
    exact .tooLong hdirectory hlength
  · have hshort := Nat.le_of_not_lt hlength
    have hplace : tree.destination workDir input.defaultOutput none =
        .ok (folder ++ [input.outputName]) :=
      destination_none_eq_ok_iff.mpr
        ⟨hwalk, hend, namedPlace_eq_ok_iff.mpr ⟨_, folder, hlast, hshort, hfolder, rfl⟩⟩
    have hslot : tree.outputSlot workDir input.defaultOutput =
        .ok ⟨folder ++ [input.outputName], .newFile⟩ :=
      outputSlot_eq_ok_iff.mpr (.inr ⟨⟨e, herror⟩, hplace, rfl⟩)
    rw [hslot]
    exact .inFolder hdirectory hshort rfl

/-- If the default output leads somewhere, it is what it leads to that decides. -/
theorem defaultSlot_of_resolve {folder found : Place}
    (hwalk : input.defaultOutput.IsWalkable)
    (hfolder : tree.resolve workDir input.defaultOutput.folder = .ok folder)
    (hfound : tree.resolve workDir input.defaultOutput = .ok found) :
    DefaultSlot tree workDir folder input (tree.outputSlot workDir input.defaultOutput) := by
  obtain ⟨hlast, hend⟩ := Path.lastStep?_defaultOutput input
  obtain ⟨links, mode, -, hfollow⟩ := resolve_eq_follow_into hwalk hlast hend hfolder
  rw [hfound] at hfollow
  obtain ⟨hlength, hentry⟩ := follow_into_eq_ok hfollow.symm
  rcases get?_of_resolve hfound with ⟨old, hold⟩ | ⟨mode, hmode⟩
  · have hdirectory : ¬ tree.LeadsToDirectory workDir input.defaultOutput := by
      rintro ⟨place, mode, hresolve, hmode⟩
      rw [hfound] at hresolve
      rw [← Except.ok.inj hresolve, hold] at hmode
      cases hmode
    have hslot : tree.outputSlot workDir input.defaultOutput = .ok ⟨found, old.mode⟩ :=
      outputSlot_eq_ok_iff.mpr (.inl ⟨hfound, old, hold, rfl⟩)
    rw [hslot]
    rcases hentry with ⟨target, hlink⟩ | hplace
    · exact .linked hdirectory hlength hlink hfound hold
    · exact .inFolder hdirectory hlength hplace
  · have hslot : tree.outputSlot workDir input.defaultOutput = .error (obstruction found) := by
      rw [outputSlot, hfound]
      dsimp only
      rw [hmode]
    rw [hslot]
    exact .directory hfound hmode hlength

/-- The default output of an input that can be read is in one of the four cases, seen from
the folder of the input. -/
theorem exists_defaultSlot (h : tree.LeadsToFile workDir input)
    (hlimit : input.defaultOutput.bytes.length < Path.lengthLimit) :
    ∃ folder mode, tree.resolve workDir input.folder = .ok folder ∧
      tree.get? folder = some (.directory mode) ∧
      DefaultSlot tree workDir folder input (tree.outputSlot workDir input.defaultOutput) := by
  have hstep := h.ofPiece_ne_stay
  obtain ⟨place, file, hresolve, -⟩ := h
  obtain ⟨folder, mode, hfolder, hmode⟩ := leadsToDirectory_folder hstep hresolve
  have hwalk := isWalkable_defaultOutput (resolve_eq_ok_iff.mp hresolve).1 hlimit
  refine ⟨folder, mode, hfolder, hmode, ?_⟩
  rw [← Path.folder_defaultOutput hstep] at hfolder
  cases hfound : tree.resolve workDir input.defaultOutput with
  | error e => exact defaultSlot_of_error hwalk hfolder hfound
  | ok found => exact defaultSlot_of_resolve hwalk hfolder hfound

/-! ### Jobs without an output -/

/-- A job that has no output given works for every input that can be read.  It is done, or the
default output leads to a directory, which may be the root, or the last name of the input
leaves no room for the suffix; each of these is told by its error, and there are no others.
A job that is done puts its declaration under the name of the default output into the folder
of the input, unless there is a link of that name which leads to a file: then it replaces
that file. -/
theorem embed_to_default_output {input : Path} (h : tree.LeadsToFile workDir input)
    (hlimit : input.defaultOutput.bytes.length < Path.lengthLimit) (name : Text) :
    let job : Job := ⟨input, input.defaultOutput, name⟩
    ((∃ n, (tree.embed workDir job).1 = .ok n) ∨
        (tree.embed workDir job).1 = .error (.writeOutput input.defaultOutput .isADirectory) ∨
        (tree.embed workDir job).1 = .error (.writeOutput input.defaultOutput .busy) ∨
        (tree.embed workDir job).1 = .error (.writeOutput input.defaultOutput .nameTooLong)) ∧
      ((tree.embed workDir job).1 = .error (.writeOutput input.defaultOutput .isADirectory) ↔
        tree.LeadsToDirectory workDir input.defaultOutput ∧
          tree.resolve workDir input.defaultOutput ≠ .ok []) ∧
      ((tree.embed workDir job).1 = .error (.writeOutput input.defaultOutput .busy) ↔
        tree.LeadsToDirectory workDir input.defaultOutput ∧
          tree.resolve workDir input.defaultOutput = .ok []) ∧
      ((tree.embed workDir job).1 = .error (.writeOutput input.defaultOutput .nameTooLong) ↔
        253 < input.lastPiece.length) ∧
      ∃ folder mode, tree.resolve workDir input.folder = .ok folder ∧
        tree.get? folder = some (.directory mode) ∧
        ∀ n, (tree.embed workDir job).1 = .ok n →
          ∃ bytes place mode, n = bytes.length ∧
            tree.ReplacesEntry (tree.embed workDir job).2 workDir job bytes place mode ∧
            (place = folder ++ [input.outputName] ∨
              ∃ target old, tree.get? (folder ++ [input.outputName]) = some (.link target) ∧
                tree.resolve workDir input.defaultOutput = .ok place ∧
                tree.get? place = some (.file old)) := by
  intro job
  obtain ⟨bytes, hread⟩ := read_isOk_iff.mpr h
  obtain ⟨folder, mode, hfolder, hmode, hslot⟩ := exists_defaultSlot h hlimit
  have hlong : Name.maxLength < input.outputName.length ↔ 253 < input.lastPiece.length := by
    rw [Path.length_outputName, Name.maxLength]
    omega
  have herror : ∀ e, (tree.embed workDir job).1 = .error (.writeOutput input.defaultOutput e) ↔
      tree.outputSlot workDir input.defaultOutput = .error e := by
    intro e
    rw [embed_eq, hread]
    dsimp only [job]
    cases tree.outputSlot workDir input.defaultOutput <;> simp
  have hdone : (∃ n, (tree.embed workDir job).1 = .ok n) ↔
      ∃ slot, tree.outputSlot workDir input.defaultOutput = .ok slot := by
    rw [embed_isOk_iff_slot]
    exact and_iff_right h
  rw [hdone, herror, herror, herror, ← hlong]
  obtain ⟨hcases, hdirectory, hroot, htooLong⟩ := hslot.outcome
  refine ⟨hcases, hdirectory, hroot, htooLong, folder, mode, hfolder, hmode, ?_⟩
  intro n hn
  obtain ⟨bytes, slot, hlength, hok, hreplaces⟩ := replacesEntry_of_embed hn
  refine ⟨bytes, slot.place, slot.mode, hlength, hreplaces, ?_⟩
  rw [hok] at hslot
  cases hslot with
  | inFolder _ _ hplace => exact .inl hplace
  | linked _ _ hlink hresolve hold => exact .inr ⟨_, _, hlink, hresolve, hold⟩

/-- A tree in which the default output of `i` is a link to the file `k`. -/
def suffixedTree : FileTree :=
  linkedTree.set [[0x69, dot, 0x63]] (.link ⟨[0x6B]⟩)

/-- The declaration goes to the file that is linked from the folder, and keeps its mode. -/
theorem embed_to_default_output_suffixedTree :
    suffixedTree.LeadsToFile [] linkedJob.input ∧
      linkedJob.input.defaultOutput.bytes.length < Path.lengthLimit ∧
      let job : Job := ⟨linkedJob.input, linkedJob.input.defaultOutput, ['x']⟩
      (suffixedTree.embed [] job).1 = .ok 1 ∧
        suffixedTree.ReplacesEntry (suffixedTree.embed [] job).2 [] job [42] [[0x6B]] 0o600 := by
  have hread : suffixedTree.read [] linkedJob.input = .ok [42] := by
    decide +kernel
  have hlimit : linkedJob.input.defaultOutput.bytes.length < Path.lengthLimit := by
    decide
  have hdone :
      (suffixedTree.embed [] ⟨linkedJob.input, linkedJob.input.defaultOutput, ['x']⟩).1 =
        .ok 1 := by
    decide +kernel
  have hresolve : suffixedTree.resolve [] linkedJob.input.defaultOutput = .ok [[0x6B]] := by
    decide +kernel
  have hfile : suffixedTree.get? [[0x6B]] = some (.file ⟨1, 0o600, []⟩) := by
    decide +kernel
  have hinput := read_isOk_iff.mp ⟨[42], hread⟩
  refine ⟨hinput, hlimit, hdone, ?_⟩
  obtain ⟨-, -, -, -, folder, mode, -, -, hreplaced⟩ :=
    embed_to_default_output hinput hlimit ['x']
  obtain ⟨bytes, place, mode, -, hreplaces, -⟩ := hreplaced 1 hdone
  obtain rfl : [42] = bytes := Except.ok.inj (hread.symm.trans hreplaces.read)
  rcases hreplaces.target with ⟨hplace, old, hold, rfl⟩ | ⟨⟨e, herror⟩, -, -⟩
  · obtain rfl : [[0x6B]] = place := Except.ok.inj (hresolve.symm.trans hplace)
    rw [hfile] at hold
    cases hold
    exact hreplaces
  · cases hresolve.symm.trans herror

/-- A tree in which the default output of `i`, seen from the directory `w`, is a link to the
root. -/
def rootedTree : FileTree :=
  ((((∅ : FileTree).set [] (.directory .newDirectory)).set [[0x77]] (.directory .newDirectory)).set
    [[0x77], [0x69]] (.file ⟨0, 0o644, [42]⟩)).set [[0x77], [0x69, dot, 0x63]] (.link ⟨[slash]⟩)

/-- The root is a directory, but not told by the error of directories. -/
theorem embed_to_default_output_rootedTree :
    let job : Job := ⟨linkedJob.input, linkedJob.input.defaultOutput, ['x']⟩
    rootedTree.LeadsToFile [[0x77]] job.input ∧
      job.output.bytes.length < Path.lengthLimit ∧
      (rootedTree.embed [[0x77]] job).1 = .error (.writeOutput job.output .busy) ∧
      ¬ ((rootedTree.embed [[0x77]] job).1 = .error (.writeOutput job.output .isADirectory) ↔
        rootedTree.LeadsToDirectory [[0x77]] job.output) := by
  intro job
  have hread : rootedTree.read [[0x77]] job.input = .ok [42] := by
    decide +kernel
  have hresolve : rootedTree.resolve [[0x77]] job.output = .ok [] := by
    decide +kernel
  have hroot : rootedTree.get? [] = some (.directory .newDirectory) := by
    decide +kernel
  have herror : (rootedTree.embed [[0x77]] job).1 = .error (.writeOutput job.output .busy) := by
    decide +kernel
  refine ⟨read_isOk_iff.mp ⟨[42], hread⟩, by decide, herror, ?_⟩
  intro hiff
  have hdirectory := hiff.mpr ⟨[], .newDirectory, hresolve, hroot⟩
  rw [herror] at hdirectory
  cases hdirectory

end FileTree
end ByteEmbed
