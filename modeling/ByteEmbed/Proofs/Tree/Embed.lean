import ByteEmbed.Proofs.Files.Undo
import ByteEmbed.Proofs.Tree.Draft

/-!
# What embedding does to a file tree

A job that is done changes one entry of the tree and no other.  `outputSlot` says which
entry that is and which mode it gets, or why the output cannot be written, from the
tree as it was: drafts play no part in it.  `replace_eq` shows that writing, publishing
and discarding a draft amount to filling that slot, and `embed_eq` adds the reading of
the input.  `ReplacesEntry` is what a job that is done leaves behind.
-/

namespace ByteEmbed
namespace FileTree

variable {tree : FileTree}

/-- An entry for an output, and the mode of its new file. -/
structure Slot where
  place : Place
  mode : Mode
  deriving DecidableEq, Repr

/-- Where an output goes: over the file that it leads to if it leads anywhere, and
otherwise to the entry that it names. -/
def outputSlot (tree : FileTree) (workDir : Place) (output : Path) : Except FileError Slot :=
  match tree.resolve workDir output with
  | .ok found =>
      match tree.get? found with
      | some (.file old) => .ok ⟨found, old.mode⟩
      | _ => .error (obstruction found)
  | .error _ =>
      match tree.resolve workDir output.folder with
      | .error e => .error e
      | .ok _ =>
          match tree.destination workDir output none with
          | .error e => .error e
          | .ok place =>
              match tree.get? place with
              | some (.directory _) => .error (obstruction place)
              | _ => .ok ⟨place, .newFile⟩

/-! ### Drafts come and go -/

/-- Changing a draft changes the file that was put there. -/
theorem modifyFile_set (place : Place) (file : File) (f : File → File) :
    (tree.set place (.file file)).modifyFile place f = tree.set place (.file (f file)) := by
  rw [modifyFile, get?_set_self]
  exact set_set tree place _ _

/-- Moving a draft over an entry puts the file of the draft there, unless a directory
is in the way. -/
theorem moveOver_set {draft target : Place} (hfree : tree.get? draft = none)
    (hne : target ≠ draft) (file : File) :
    (tree.set draft (.file file)).moveOver draft target =
      match tree.get? target with
      | some (.directory _) => .error (obstruction target)
      | _ => .ok (tree.set target (.file file)) := by
  rw [moveOver, get?_set_self, get?_set_of_ne _ _ hne, erase_set hfree]
  rcases tree.get? target with _ | _ | _ | _ <;> rfl

theorem destination_set_draft {workDir folder : Place} {output : Path}
    (h : tree.resolve workDir output.folder = .ok folder) (draftFolder : Place)
    (entry : Entry) :
    (tree.set (draftFolder ++ [tree.draftName output]) entry).destination workDir output none =
      tree.destination workDir output none := by
  rw [destination, destination, namedPlace_set_draft h]

/-- An output that leads nowhere goes to the entry that it names, if its spelling allows
for an entry there. -/
theorem destination_none_eq_ok_iff {workDir place : Place} {output : Path} :
    tree.destination workDir output none = .ok place ↔
      output.IsWalkable ∧ output.endsInSlash = false ∧
        tree.namedPlace workDir output = .ok place := by
  rw [destination]
  constructor
  · intro h
    split at h
    · cases h
    · next hzero =>
        split at h
        · cases h
        · next hlength =>
            split at h
            · cases h
            · next hplace =>
                split at h
                · cases h
                · next hend =>
                    cases h
                    obtain ⟨name, folder, hlast, -⟩ := namedPlace_eq_ok_iff.mp hplace
                    have hempty := Path.bytes_ne_nil_of_lastStep? hlast
                    exact ⟨⟨hzero, hempty, Nat.lt_of_not_le hlength⟩,
                      Bool.eq_false_iff.mpr hend, hplace⟩
  · rintro ⟨⟨hzero, -, hlength⟩, hend, hplace⟩
    rw [if_neg hzero, if_neg (Nat.not_le.mpr hlength), hplace]
    dsimp only
    rw [hend]
    rfl

/-! ### Replacing an output -/

/-- Replaces an output in a tree. -/
def replace (tree : FileTree) (workDir : Place) (output : Path) (contents : List UInt8) :
    Except FileError Unit × FileTree :=
  (files workDir).replace output contents |>.run.run tree

/-- What exists in place of an output. -/
def existing? (tree : FileTree) (workDir : Place) (output : Path) :
    Option (Existing Mode Place) :=
  match tree.resolve workDir output with
  | .error _ => none
  | .ok found => some ⟨tree.modeAt found, found⟩

/-- The mode that a draft gets before it is published. -/
def draftMode : Option (Existing Mode Place) → Mode
  | none => .newFile
  | some old => old.status

theorem run_existing? (tree : FileTree) (workDir : Place) (output : Path) :
    ((files workDir).existing? output).run.run tree =
      (.ok (tree.existing? workDir output), tree) := by
  rw [existing?, Files.existing?, run_run_bind, run_run_tryCatch, map_eq_pure_bind, run_run_bind,
    run_stat]
  cases hresolve : tree.resolve workDir output with
  | error e => rfl
  | ok found =>
      have hlocate : (do
          let place ← (files workDir).locate output
          return some (Existing.mk (tree.modeAt found) place)).run.run tree =
          (.ok (some (Existing.mk (tree.modeAt found) found)), tree) := by
        rw [run_run_bind, run_locate, hresolve]
        rfl
      exact hlocate

/-- The work on a draft, up to its publication. -/
theorem run_finish (workDir draft : Place) (output : Path)
    (existing : Option (Existing Mode Place)) (contents : List UInt8) (id : FileId) :
    ((files workDir).finish draft output existing contents).run.run
        (tree.set draft (.file ⟨id, .newFile, []⟩)) =
      (tree.set draft (.file ⟨id, draftMode existing, contents⟩)).publishDraft workDir draft
        output (existing.map Existing.found) := by
  rw [Files.finish.eq_def]
  cases existing with
  | none =>
      change ((tree.set draft _).modifyFile draft _).publishDraft workDir draft output none = _
      rw [modifyFile_set]
      rfl
  | some old =>
      change (((tree.set draft _).modifyFile draft _).modifyFile draft _).publishDraft workDir
        draft output (some old.found) = _
      rw [modifyFile_set, modifyFile_set]
      rfl

theorem run_replace (workDir : Place) (output : Path) (contents : List UInt8) :
    ((files workDir).replace output contents).run.run tree =
      tree.replace workDir output contents :=
  rfl

theorem replace_eq_of_draft_error {workDir : Place} {output : Path} {e : FileError}
    (h : tree.draftFolder workDir output
      ((tree.existing? workDir output).map Existing.found) = .error e)
    (contents : List UInt8) : tree.replace workDir output contents = (.error e, tree) := by
  rw [replace, Files.replace, run_run_bind, run_existing?]
  dsimp only
  rw [run_run_bind, run_create, createDraft, h]

/-- With a folder for the draft, all is decided when the draft is to be moved. -/
theorem replace_eq_of_draft {workDir folder : Place} {output : Path}
    (h : tree.draftFolder workDir output
      ((tree.existing? workDir output).map Existing.found) = .ok folder)
    (contents : List UInt8) :
    tree.replace workDir output contents =
      let existing := tree.existing? workDir output
      let draft := folder ++ [tree.draftName output]
      let drafted := tree.set draft (.file ⟨tree.freshId, draftMode existing, contents⟩)
      match (drafted.destination workDir output (existing.map Existing.found)).bind
        (drafted.moveOver draft) with
      | .error e => (.error e, tree)
      | .ok after => (.ok (), after) := by
  have hfree : tree.get? (folder ++ [tree.draftName output]) = none :=
    get?_draft folder output
  rw [replace, Files.replace, run_run_bind, run_existing?]
  dsimp only
  rw [run_run_bind, run_create, createDraft, h]
  dsimp only
  rw [run_run_tryCatch, run_finish, publishDraft]
  rcases Except.bind _ _ with e | after
  · change (Except.error e, (tree.set _ _).erase _) = _
    rw [erase_set hfree]
  · rfl

/-- Puts a new file into a slot, if there is one. -/
def fillSlot (tree : FileTree) (contents : List UInt8) :
    Except FileError Slot → Except FileError Unit × FileTree
  | .error e => (.error e, tree)
  | .ok slot => (.ok (), tree.set slot.place (.file ⟨tree.freshId, slot.mode, contents⟩))

/-- There is a folder for the draft of an output that exists. -/
theorem exists_draftFolder (tree : FileTree) (workDir : Place) (output : Path)
    (found : Place) : ∃ folder, tree.draftFolder workDir output (some found) = .ok folder := by
  cases found with
  | nil => exact ⟨workDir, rfl⟩
  | cons name rest => exact ⟨(name :: rest).dropLast, rfl⟩

/-- Where the output leads somewhere, the draft moves over what was found there. -/
theorem replace_of_resolve {workDir found : Place} {output : Path}
    (h : tree.resolve workDir output = .ok found) (contents : List UInt8) :
    tree.replace workDir output contents =
      tree.fillSlot contents (tree.outputSlot workDir output) := by
  have hexisting : tree.existing? workDir output = some ⟨tree.modeAt found, found⟩ := by
    rw [existing?, h]
  obtain ⟨folder, hfolder⟩ := exists_draftFolder tree workDir output found
  have hdraft : tree.draftFolder workDir output
      ((tree.existing? workDir output).map Existing.found) = .ok folder := by
    rw [hexisting]
    exact hfolder
  rw [replace_eq_of_draft hdraft, hexisting, outputSlot, h]
  dsimp only [Option.map_some, destination, Except.bind]
  rw [moveOver_set (get?_draft _ _) (resolve_ne_draft h _), draftMode, modeAt]
  obtain ⟨file, hfound⟩ | ⟨mode, hfound⟩ := get?_of_resolve h
  · rw [hfound]
    rfl
  · rw [hfound]
    rfl

/-- Where it leads nowhere, its folder must exist, and the draft moves to the entry
that it names. -/
theorem replace_of_resolve_error {workDir : Place} {output : Path} {e : FileError}
    (h : tree.resolve workDir output = .error e) (contents : List UInt8) :
    tree.replace workDir output contents =
      tree.fillSlot contents (tree.outputSlot workDir output) := by
  have hexisting : tree.existing? workDir output = none := by
    rw [existing?, h]
  rw [outputSlot, h]
  dsimp only
  cases hfolder : tree.resolve workDir output.folder with
  | error e =>
      apply replace_eq_of_draft_error
      rw [hexisting]
      exact hfolder
  | ok folder =>
      have hdraft : tree.draftFolder workDir output
          ((tree.existing? workDir output).map Existing.found) = .ok folder := by
        rw [hexisting]
        exact hfolder
      rw [replace_eq_of_draft hdraft, hexisting]
      dsimp only [Option.map_none]
      rw [destination_set_draft hfolder]
      cases hplace : tree.destination workDir output none with
      | error e => rfl
      | ok place =>
          have hne := namedPlace_ne_draft (destination_none_eq_ok_iff.mp hplace).2.2 folder
          dsimp only [Except.bind]
          rw [moveOver_set (get?_draft _ _) hne, draftMode]
          rcases tree.get? place with _ | _ | _ | _ <;> rfl

theorem replace_eq (tree : FileTree) (workDir : Place) (output : Path)
    (contents : List UInt8) :
    tree.replace workDir output contents =
      tree.fillSlot contents (tree.outputSlot workDir output) := by
  cases h : tree.resolve workDir output with
  | ok found => exact replace_of_resolve h contents
  | error e => exact replace_of_resolve_error h contents

/-- What a job does. -/
theorem embed_eq (tree : FileTree) (workDir : Place) (job : Job) :
    tree.embed workDir job =
      match tree.read workDir job.input with
      | .error e => (.error (.readInput job.input e), tree)
      | .ok bytes =>
          match tree.outputSlot workDir job.output with
          | .error e => (.error (.writeOutput job.output e), tree)
          | .ok slot =>
              (.ok bytes.length,
                tree.set slot.place (.file ⟨tree.freshId, slot.mode,
                  (Declaration.render ⟨job.name, bytes⟩).encode⟩)) := by
  rw [embed, Files.run_embed, run_read]
  cases tree.read workDir job.input with
  | error e => rfl
  | ok bytes =>
      dsimp only
      rw [run_replace, replace_eq]
      rcases tree.outputSlot workDir job.output with e | slot
      · rfl
      · rfl

/-- A job that is done has read its input and filled the slot of its output. -/
theorem exists_slot_of_embed {workDir : Place} {job : Job} {n : Nat}
    (h : (tree.embed workDir job).1 = .ok n) :
    ∃ bytes slot, tree.read workDir job.input = .ok bytes ∧
      tree.outputSlot workDir job.output = .ok slot ∧ n = bytes.length ∧
      (tree.embed workDir job).2 =
        tree.set slot.place (.file ⟨tree.freshId, slot.mode,
          (Declaration.render ⟨job.name, bytes⟩).encode⟩) := by
  rw [embed_eq] at h ⊢
  cases hread : tree.read workDir job.input with
  | error e =>
      rw [hread] at h
      cases h
  | ok bytes =>
      rw [hread] at h
      cases hslot : tree.outputSlot workDir job.output with
      | error e =>
          rw [hslot] at h
          cases h
      | ok slot =>
          rw [hslot] at h
          cases h
          exact ⟨bytes, slot, rfl, rfl, rfl, rfl⟩

/-! ### A job that is done -/

/-- What a job that is done did to a tree.  It read these bytes from its input and put
a file with this mode at this place. -/
structure ReplacesEntry (tree after : FileTree) (workDir : Place) (job : Job)
    (bytes : List UInt8) (place : Place) (mode : Mode) : Prop where
  -- The input held the bytes.
  read : tree.read workDir job.input = .ok bytes
  -- The place is that of the file that the output leads to, whose mode stays, or else
  -- that of the entry which the output names.
  target :
    (tree.resolve workDir job.output = .ok place ∧
      ∃ old, tree.get? place = some (.file old) ∧ mode = old.mode) ∨
    ((∃ e, tree.resolve workDir job.output = .error e) ∧
      tree.namedPlace workDir job.output = .ok place ∧ mode = .newFile)
  -- The file there holds the declaration and has no other entry.
  entry : ∃ id,
    after.get? place =
      some (.file ⟨id, mode, (Declaration.render ⟨job.name, bytes⟩).encode⟩) ∧
    ∀ other file, other ≠ place → after.get? other = some (.file file) → file.id ≠ id
  -- All other entries are as they were.
  others : ∀ other, other ≠ place → after.get? other = tree.get? other

theorem target_of_outputSlot {workDir : Place} {output : Path} {slot : Slot}
    (h : tree.outputSlot workDir output = .ok slot) :
    (tree.resolve workDir output = .ok slot.place ∧
      ∃ old, tree.get? slot.place = some (.file old) ∧ slot.mode = old.mode) ∨
    ((∃ e, tree.resolve workDir output = .error e) ∧
      tree.namedPlace workDir output = .ok slot.place ∧ slot.mode = .newFile) := by
  rw [outputSlot] at h
  split at h
  · next found hresolve =>
      split at h
      · next old hold =>
          cases h
          exact .inl ⟨hresolve, old, hold, rfl⟩
      · cases h
  · next e hresolve =>
      split at h
      · cases h
      · split at h
        · cases h
        · next place hplace =>
            split at h
            · cases h
            · cases h
              exact .inr ⟨⟨e, hresolve⟩, (destination_none_eq_ok_iff.mp hplace).2.2, rfl⟩

/-- An output that leads nowhere goes to the entry that it names, which is no
directory. -/
theorem destination_of_outputSlot {workDir : Place} {output : Path} {slot : Slot}
    {e : FileError} (h : tree.outputSlot workDir output = .ok slot)
    (herror : tree.resolve workDir output = .error e) :
    tree.destination workDir output none = .ok slot.place ∧
      ∀ mode, tree.get? slot.place ≠ some (.directory mode) := by
  rw [outputSlot, herror] at h
  dsimp only at h
  split at h
  · cases h
  · split at h
    · cases h
    · next place hplace =>
        split at h
        · cases h
        · next hdirectory =>
            cases h
            exact ⟨hplace, hdirectory⟩

/-- A job that is done has put the declaration of its input into the slot of its output. -/
theorem replacesEntry_of_embed {workDir : Place} {job : Job} {n : Nat}
    (h : (tree.embed workDir job).1 = .ok n) :
    ∃ bytes slot, n = bytes.length ∧ tree.outputSlot workDir job.output = .ok slot ∧
      tree.ReplacesEntry (tree.embed workDir job).2 workDir job bytes slot.place slot.mode := by
  obtain ⟨bytes, slot, hread, hslot, hn, hafter⟩ := exists_slot_of_embed h
  refine ⟨bytes, slot, hn, hslot, hread, target_of_outputSlot hslot, ?_, ?_⟩
  · rw [hafter]
    refine ⟨tree.freshId, get?_set_self _ _ _, ?_⟩
    -- The other entries are those of the tree before, and its identifiers are older.
    intro other file hother hfile
    rw [get?_set_of_ne _ _ hother] at hfile
    exact Nat.ne_of_lt (id_lt_freshId hfile)
  · intro other hother
    rw [hafter]
    exact get?_set_of_ne _ _ hother

/-- The input is read as it was before the job, and one entry is replaced. -/
theorem embed_replaces_entry {workDir : Place} {job : Job} {n : Nat}
    (h : (tree.embed workDir job).1 = .ok n) :
    ∃ bytes place mode, n = bytes.length ∧
      tree.ReplacesEntry (tree.embed workDir job).2 workDir job bytes place mode := by
  obtain ⟨bytes, slot, hn, -, hreplaces⟩ := replacesEntry_of_embed h
  exact ⟨bytes, slot.place, slot.mode, hn, hreplaces⟩

/-- A tree in which the path `o` leads through a link to a file that has two entries. -/
def linkedTree : FileTree :=
  (((((∅ : FileTree).set [] (.directory .newDirectory)).set [[0x69]] (.file ⟨0, 0o400, [42]⟩)).set
    [[0x6B]] (.file ⟨1, 0o600, []⟩)).set [[0x6C]] (.file ⟨1, 0o600, []⟩)).set
    [[0x6F]] (.link ⟨[0x6B]⟩)

/-- The job of embedding the file `i` in place of what `o` leads to. -/
def linkedJob : Job :=
  ⟨⟨[0x69]⟩, ⟨[0x6F]⟩, ['x']⟩

theorem embed_replaces_entry_linkedTree :
    (linkedTree.embed [] linkedJob).1 = .ok 1 ∧
      ∃ bytes place mode, 1 = bytes.length ∧
        linkedTree.ReplacesEntry (linkedTree.embed [] linkedJob).2 [] linkedJob bytes place
          mode := by
  have hdone : (linkedTree.embed [] linkedJob).1 = .ok 1 := by
    decide +kernel
  exact ⟨hdone, embed_replaces_entry hdone⟩

end FileTree
end ByteEmbed
