import ByteEmbed.Proofs.Tree.Embed

/-!
# A job that fails in a file tree

A tree with a draft in it is the tree before and one more file, at a place that was free
(`Drafted`).  Work on the draft keeps this true, and discarding the draft gives the tree
before it back, so a file tree can undo what a job has begun (`undoes_files`), also if steps
fail for reasons that are not in the tree.

If no step does, an output cannot be replaced exactly if there is no slot for it.
-/

namespace ByteEmbed
namespace FileTree

/-- What it is for a tree to be another one with a draft in it. -/
structure Drafted (before : FileTree) (draft : Place) (after : FileTree) : Prop where
  free : before.get? draft = none
  file : ∃ file, after = before.set draft (.file file)

theorem Drafted.modifyFile {before after : FileTree} {draft : Place}
    (h : Drafted before draft after) (f : File → File) :
    Drafted before draft (after.modifyFile draft f) := by
  obtain ⟨hfree, file, rfl⟩ := h
  exact ⟨hfree, f file, modifyFile_set draft file f⟩

theorem Drafted.erase {before after : FileTree} {draft : Place}
    (h : Drafted before draft after) : after.erase draft = before := by
  obtain ⟨hfree, file, rfl⟩ := h
  exact erase_set hfree _

theorem ends_create (before : FileTree) (workDir : Place) (output : Path)
    (found : Option Place) :
    Ends ((files workDir).create output found) before (Drafted before)
      fun _ after => after = before := by
  rw [Ends, run_create, createDraft]
  cases before.draftFolder workDir output found with
  | error e => rfl
  | ok folder => exact ⟨get?_draft folder output, _, rfl⟩

theorem ends_publish {before after : FileTree} {workDir draft : Place}
    (h : Drafted before draft after) (output : Path) (found : Option Place) :
    Ends ((files workDir).publish draft output found) after (fun _ _ => True)
      fun _ => Drafted before draft := by
  rw [Ends, run_publish, publishDraft]
  rcases Except.bind _ _ with e | published
  · exact h
  · trivial

/-- A file tree can undo what a job has begun. -/
theorem undoes_files (workDir : Place) : (files workDir).Undoes Drafted where
  read path _ := keeps_of_run_run_eq fun _ => run_read workDir path
  stat path _ := keeps_of_run_run_eq fun _ => run_stat workDir path
  locate path _ := keeps_of_run_run_eq fun _ => run_locate workDir path
  create output found before := ends_create before workDir output found
  copyMode _ _ _ := fun _ h => h.modifyFile _
  fill _ _ _ := fun _ h => h.modifyFile _
  sync _ _ := keeps_pure ()
  publish _ output found _ _ h := ends_publish h output found
  discard _ _ _ h := h.erase

/-- A job that fails leaves the tree as it was, wherever its draft has been and whichever of
its steps has failed, be it because of the tree or for another reason.  It blames the input, as
the job spells it, exactly if that cannot be read, and otherwise the output, as the job spells
it, for the reason why it cannot be replaced.  Where only the tree makes steps fail, that is the
reason why there is no slot for the output. -/
theorem embed_error_leaves_tree (tree : FileTree) (workDir : Place) (job : Job) :
    (∀ faults, ((files workDir).withFaults faults).FailsCleanly job tree) ∧
      (∀ e, (tree.embed workDir job).1 = .error e → (tree.embed workDir job).2 = tree) ∧
      (∀ path cause, (tree.embed workDir job).1 = .error (.readInput path cause) ↔
        path = job.input ∧ tree.read workDir job.input = .error cause) ∧
      ∀ path cause, (tree.embed workDir job).1 = .error (.writeOutput path cause) ↔
        path = job.output ∧ (∃ bytes, tree.read workDir job.input = .ok bytes) ∧
          tree.outputSlot workDir job.output = .error cause := by
  have hclean : ∀ faults, ((files workDir).withFaults faults).FailsCleanly job tree :=
    fun faults => ((undoes_files workDir).withFaults faults).failsCleanly job tree
  have htree := hclean {}
  rw [Files.withFaults_empty] at htree
  refine ⟨hclean, htree.undone, htree.readInput, ?_⟩
  intro path cause
  have hreplace : ∀ contents,
      (((files workDir).replace job.output contents).run.run tree).1 = .error cause ↔
        tree.outputSlot workDir job.output = .error cause := by
    intro contents
    rw [run_replace, replace_eq]
    cases tree.outputSlot workDir job.output with
    | error e => simp [fillSlot]
    | ok slot => simp [fillSlot]
  refine (htree.writeOutput path cause).trans (and_congr_right fun _ => ?_)
  simp only [run_read, hreplace, exists_and_right]

/-- A tree in which the path `o` leads through a link to a directory elsewhere. -/
def directoryTree : FileTree :=
  (((((∅ : FileTree).set [] (.directory .newDirectory)).set [[0x69]] (.file ⟨0, 0o400, [42]⟩)).set
    [[0x64]] (.directory .newDirectory)).set [[0x64], [0x65]] (.directory .newDirectory)).set
    [[0x6F]] (.link ⟨[0x64, slash, 0x65]⟩)

/-- Its draft is made beside that directory, and is gone when publishing it has failed. -/
example :
    (directoryTree.embed [] linkedJob).1 =
        .error (.writeOutput linkedJob.output .isADirectory) ∧
      directoryTree.draftFolder [] linkedJob.output (some [[0x64], [0x65]]) = .ok [[0x64]] ∧
      (directoryTree.embed [] linkedJob).2.entries.keys = directoryTree.entries.keys := by
  decide +kernel

/-- A draft that has taken three bytes when the disk is full is gone as well. -/
example :
    let full : FileError := .other "No space left on device (os error 28)"
    let failing := (files []).withFaults { fill := some (3, full) }
    let result := (failing.embed linkedJob).run linkedTree
    result.1 = .error (.writeOutput linkedJob.output full) ∧
      result.2.entries.keys = linkedTree.entries.keys := by
  decide +kernel

end FileTree
end ByteEmbed
