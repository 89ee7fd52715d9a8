import ByteEmbed.Proofs.Tree.ReadBack
import ByteEmbed.Proofs.Tree.Target

/-!
# When a job is done

A job is done exactly if its input leads to a file and its output either leads to a file as
well or can be made: it leads nowhere, its folder exists, and what stands behind its last
slash can be the name of an entry (`CanBeMade`).  `embed_isOk_iff` says so, and also that
nothing else matters: neither a broken link in place of the output nor anything that files
hold.

What else there is to a tree are the contents of its files and the modes of its files and
directories.  The verdict on a job, the error included, is read off the shapes of the tree,
and those leave contents and modes out (`verdict_embed_congr`).
-/

namespace ByteEmbed
namespace FileTree

variable {tree other : FileTree}

/-- Whether a path leads to a regular file. -/
def LeadsToFile (tree : FileTree) (workDir : Place) (path : Path) : Prop :=
  ∃ place file, tree.resolve workDir path = .ok place ∧ tree.get? place = some (.file file)

/-- Whether a path leads to a directory. -/
def LeadsToDirectory (tree : FileTree) (workDir : Place) (path : Path) : Prop :=
  ∃ place mode, tree.resolve workDir path = .ok place ∧
    tree.get? place = some (.directory mode)

/-- Whether an output that leads nowhere can be made in its folder. -/
structure CanBeMade (tree : FileTree) (workDir : Place) (output : Path) : Prop where
  nowhere : ∃ e, tree.resolve workDir output = .error e
  folder : tree.LeadsToDirectory workDir output.folder
  ne_nil : output.lastPiece ≠ []
  ne_dot : output.lastPiece ≠ [dot]
  ne_dotDot : output.lastPiece ≠ [dot, dot]
  length : output.lastPiece.length ≤ Name.maxLength
  zero : 0 ∉ output.lastPiece

theorem read_isOk_iff {workDir : Place} {path : Path} :
    (∃ bytes, tree.read workDir path = .ok bytes) ↔ tree.LeadsToFile workDir path := by
  constructor
  · rintro ⟨bytes, h⟩
    rw [read] at h
    split at h
    · cases h
    · next place hresolve =>
        split at h
        · next file hfile => exact ⟨place, file, hresolve, hfile⟩
        · cases h
        · cases h
  · rintro ⟨place, file, hresolve, hfile⟩
    exact ⟨file.contents, read_of_resolve hresolve hfile⟩

/-- An output that leads nowhere has a destination exactly if it can be made. -/
theorem exists_destination_iff {workDir : Place} {output : Path} {e : FileError}
    (hlimit : output.bytes.length < Path.lengthLimit)
    (herror : tree.resolve workDir output = .error e) :
    (∃ place, tree.destination workDir output none = .ok place) ↔
      tree.CanBeMade workDir output := by
  constructor
  · rintro ⟨place, hplace⟩
    obtain ⟨⟨hzero, -, -⟩, hend, hnamed⟩ := destination_none_eq_ok_iff.mp hplace
    obtain ⟨name, folder, hlast, hlength, hfolder, -⟩ := namedPlace_eq_ok_iff.mp hnamed
    obtain ⟨front, links, mode, -, -, hmode⟩ := exists_travel_to_folder hlast hend hfolder
    obtain ⟨rfl, hempty, hdot, hdotDot⟩ := Path.lastStep?_eq_into_iff.mp ⟨hlast, hend⟩
    exact ⟨⟨e, herror⟩, ⟨folder, mode, hfolder, hmode⟩, hempty, hdot, hdotDot, hlength,
      fun h => hzero (Path.mem_bytes_of_mem_lastPiece h)⟩
  · rintro ⟨-, ⟨folder, mode, hfolder, -⟩, hempty, hdot, hdotDot, hlength, hzero⟩
    obtain ⟨hlast, hend⟩ := Path.lastStep?_eq_into_iff.mpr ⟨rfl, hempty, hdot, hdotDot⟩
    have hno : 0 ∉ output.folder.bytes := (resolve_eq_ok_iff.mp hfolder).1.1
    have hwalk : output.IsWalkable :=
      ⟨Path.not_mem_bytes_of_folder hlast hend (by decide) hno hzero,
        Path.bytes_ne_nil_of_lastStep? hlast, hlimit⟩
    exact ⟨folder ++ [output.lastPiece], destination_none_eq_ok_iff.mpr
      ⟨hwalk, hend, namedPlace_eq_ok_iff.mpr ⟨_, folder, hlast, hlength, hfolder, rfl⟩⟩⟩

/-- There is a slot for an output that leads to a file or can be made. -/
theorem outputSlot_isOk_iff {workDir : Place} {output : Path}
    (hlimit : output.bytes.length < Path.lengthLimit) :
    (∃ slot, tree.outputSlot workDir output = .ok slot) ↔
      tree.LeadsToFile workDir output ∨ tree.CanBeMade workDir output := by
  constructor
  · rintro ⟨slot, hslot⟩
    rcases outputSlot_eq_ok_iff.mp hslot with
      ⟨hresolve, old, hold, -⟩ | ⟨⟨e, herror⟩, hplace, -⟩
    · exact .inl ⟨slot.place, old, hresolve, hold⟩
    · exact .inr ((exists_destination_iff hlimit herror).mp ⟨slot.place, hplace⟩)
  · rintro (⟨place, old, hresolve, hold⟩ | hmade)
    · exact ⟨⟨place, old.mode⟩, outputSlot_eq_ok_iff.mpr (.inl ⟨hresolve, old, hold, rfl⟩)⟩
    · obtain ⟨e, herror⟩ := hmade.nowhere
      obtain ⟨place, hplace⟩ := (exists_destination_iff hlimit herror).mpr hmade
      exact ⟨⟨place, .newFile⟩, outputSlot_eq_ok_iff.mpr (.inr ⟨⟨e, herror⟩, hplace, rfl⟩)⟩

/-- A job is done if its input can be read and there is a slot for its output. -/
theorem embed_isOk_iff_slot {workDir : Place} {job : Job} :
    (∃ n, (tree.embed workDir job).1 = .ok n) ↔
      tree.LeadsToFile workDir job.input ∧
        ∃ slot, tree.outputSlot workDir job.output = .ok slot := by
  rw [← read_isOk_iff]
  constructor
  · rintro ⟨n, hdone⟩
    obtain ⟨bytes, slot, hread, hslot, -, -⟩ := exists_slot_of_embed hdone
    exact ⟨⟨bytes, hread⟩, slot, hslot⟩
  · rintro ⟨⟨bytes, hread⟩, slot, hslot⟩
    refine ⟨bytes.length, ?_⟩
    rw [embed_eq, hread]
    dsimp only
    rw [hslot]

/-! ### Verdicts -/

/-- What becomes of an operation, its value aside. -/
def verdict {ε α : Type} : Except ε α → Except ε Unit :=
  Except.map fun _ => ()

theorem verdict_read_eq_shape (tree : FileTree) (workDir : Place) (path : Path) :
    verdict (tree.read workDir path) =
      match tree.resolve workDir path with
      | .error e => .error e
      | .ok place =>
          match tree.shapeAt place with
          | some .file => .ok ()
          | some _ => .error .isADirectory
          | none => .error .notFound := by
  rw [read]
  rcases tree.resolve workDir path with e | place
  · rfl
  · dsimp only [shapeAt]
    rcases tree.get? place with _ | _ | _ | _ <;> rfl

theorem verdict_outputSlot_eq_shape (tree : FileTree) (workDir : Place) (output : Path) :
    verdict (tree.outputSlot workDir output) =
      match tree.resolve workDir output with
      | .ok found =>
          match tree.shapeAt found with
          | some .file => .ok ()
          | _ => .error (obstruction found)
      | .error _ =>
          match tree.resolve workDir output.folder with
          | .error e => .error e
          | .ok _ =>
              match tree.destination workDir output none with
              | .error e => .error e
              | .ok place =>
                  match tree.shapeAt place with
                  | some .directory => .error (obstruction place)
                  | _ => .ok () := by
  rw [outputSlot]
  rcases tree.resolve workDir output with e | found
  · rcases tree.resolve workDir output.folder with e | folder
    · rfl
    · rcases tree.destination workDir output none with e | place
      · rfl
      · dsimp only [shapeAt]
        rcases tree.get? place with _ | _ | _ | _ <;> rfl
  · dsimp only [shapeAt]
    rcases tree.get? found with _ | _ | _ | _ <;> rfl

/-- The verdict on a job comes from those on its input and on its output. -/
theorem verdict_embed (tree : FileTree) (workDir : Place) (job : Job) :
    verdict (tree.embed workDir job).1 =
      match verdict (tree.read workDir job.input) with
      | .error e => .error (.readInput job.input e)
      | .ok _ =>
          match verdict (tree.outputSlot workDir job.output) with
          | .error e => .error (.writeOutput job.output e)
          | .ok _ => .ok () := by
  rw [embed_eq]
  rcases tree.read workDir job.input with e | bytes
  · rfl
  · rcases tree.outputSlot workDir job.output with e | slot
    · rfl
    · rfl

/-- Trees of the same shapes give the same verdict on jobs for the same paths. -/
theorem verdict_embed_congr (h : ∀ place, other.shapeAt place = tree.shapeAt place)
    (workDir : Place) (job : Job) (name : Text) :
    verdict (other.embed workDir { job with name := name }).1 =
      verdict (tree.embed workDir job).1 := by
  have hresolve : ∀ path, other.resolve workDir path = tree.resolve workDir path :=
    fun path => resolve_congr fun place _ => h place
  have hdestination : other.destination workDir job.output none =
      tree.destination workDir job.output none := by
    rw [destination, destination, namedPlace_congr fun place _ => h place]
  rw [verdict_embed, verdict_embed, verdict_read_eq_shape, verdict_read_eq_shape,
    verdict_outputSlot_eq_shape, verdict_outputSlot_eq_shape]
  simp only [hresolve, hdestination, h]

/-! ### Success -/

/-- A job is done exactly if its input leads to a file, and its output leads to a file or
can be made.  In particular an output that is a link leading nowhere does not keep the job
from being done.  Whether a job is done, and why not, depends neither on the name nor on
what the files of the tree hold, on their modes or on those of its directories. -/
theorem embed_isOk_iff {workDir : Place} {job : Job}
    (hlimit : job.output.bytes.length < Path.lengthLimit) :
    ((∃ n, (tree.embed workDir job).1 = .ok n) ↔
      tree.LeadsToFile workDir job.input ∧
        (tree.LeadsToFile workDir job.output ∨ tree.CanBeMade workDir job.output)) ∧
      (∀ place target e, tree.LeadsToFile workDir job.input →
        tree.namedPlace workDir job.output = .ok place →
        tree.get? place = some (.link target) →
        tree.resolve workDir job.output = .error e →
        0 ∉ job.output.bytes → job.output.endsInSlash = false →
        ∃ n, (tree.embed workDir job).1 = .ok n) ∧
      ∀ (other : FileTree) (name : Text), (∀ place, other.shapeAt place = tree.shapeAt place) →
        verdict (other.embed workDir { job with name := name }).1 =
          verdict (tree.embed workDir job).1 := by
  refine ⟨?_, ?_, ?_⟩
  · rw [embed_isOk_iff_slot, outputSlot_isOk_iff hlimit]
  · intro place target e hinput hplace _ herror hzero hend
    obtain ⟨name, folder, hlast, -⟩ := namedPlace_eq_ok_iff.mp hplace
    have hwalk : job.output.IsWalkable :=
      ⟨hzero, Path.bytes_ne_nil_of_lastStep? hlast, hlimit⟩
    have hdestination : tree.destination workDir job.output none = .ok place :=
      destination_none_eq_ok_iff.mpr ⟨hwalk, hend, hplace⟩
    exact embed_isOk_iff_slot.mpr ⟨hinput, ⟨place, .newFile⟩,
      outputSlot_eq_ok_iff.mpr (.inr ⟨⟨e, herror⟩, hdestination, rfl⟩)⟩
  · intro other name h
    exact verdict_embed_congr h workDir job name

theorem embed_isOk_iff_loopTree :
    linkedJob.output.bytes.length < Path.lengthLimit ∧
      loopTree.read [] linkedJob.input = .ok [42] ∧
      loopTree.namedPlace [] linkedJob.output = .ok [[0x6F]] ∧
      loopTree.get? [[0x6F]] = some (.link ⟨[0x6F]⟩) ∧
      loopTree.resolve [] linkedJob.output = .error .linkLoop ∧
      0 ∉ linkedJob.output.bytes ∧ linkedJob.output.endsInSlash = false ∧
      ∃ n, (loopTree.embed [] linkedJob).1 = .ok n := by
  have hlimit : linkedJob.output.bytes.length < Path.lengthLimit := by
    decide
  have hread : loopTree.read [] linkedJob.input = .ok [42] := by
    decide +kernel
  have hnamed : loopTree.namedPlace [] linkedJob.output = .ok [[0x6F]] := by
    decide +kernel
  have hlink : loopTree.get? [[0x6F]] = some (.link ⟨[0x6F]⟩) := by
    decide +kernel
  have hloop : loopTree.resolve [] linkedJob.output = .error .linkLoop := by
    decide +kernel
  have hzero : 0 ∉ linkedJob.output.bytes := by
    decide
  have hend : linkedJob.output.endsInSlash = false := by
    decide
  refine ⟨hlimit, hread, hnamed, hlink, hloop, hzero, hend, ?_⟩
  have hinput := read_isOk_iff.mp ⟨[42], hread⟩
  exact (embed_isOk_iff hlimit).2.1 _ _ _ hinput hnamed hlink hloop hzero hend

end FileTree
end ByteEmbed
