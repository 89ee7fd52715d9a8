import ByteEmbed.CommandLine.Run
import ByteEmbed.Proofs.Text.Utf8
import ByteEmbed.Proofs.Tree.Target
import Mathlib.Logic.ExistsUnique

/-!
# How a run of the command ends

Arguments come to a `Request`, which spells the input and, where they are given, the output
and the name.  What is not given is settled from the request alone: `Request.job` puts the
suffix behind the input as it was read.

A run ends by answering an inquiry, by complaining about its usage, or by doing the job of
its request, once, and reporting what has become of it.  `EndsIn` lists these endings with
all that each leaves behind, the tree included.  Every run has exactly one of them
(`run_ends`), so what it prints and its status tell whether the tree may have changed.
-/

namespace ByteEmbed
namespace CommandLine

/-! ### Requests -/

/-- What arguments ask for: an input, and an output and a name where they are given. -/
structure Request where
  input : Text
  output : Option Text
  name : Option Text

/-- The output of a request, by default its input with a suffix. -/
def Request.outputText (request : Request) : Text :=
  request.output.getD (request.input ++ Path.outputSuffix)

/-- The job that a request is for. -/
def Request.job (request : Request) : Job where
  input := .ofText request.input
  output := .ofText request.outputText
  name := request.name.getD Declaration.defaultName

/-- The request that arguments come to, or why they come to none. -/
def request (args : List Text) : Except Stop Request := do
  let scan ← args.foldlM Scan.read {}
  let settled ← scan.settle
  match settled.input with
  | none => .error (.usage .missingInput)
  | some input => return ⟨input, settled.output, settled.name⟩

/-- The suffix may be put behind an input before or after it is taken for a path. -/
theorem defaultOutput_ofText (input : Text) :
    (Path.ofText input).defaultOutput = .ofText (input ++ Path.outputSuffix) := by
  rw [Path.ofText, Path.ofText, Text.encode_append]
  rfl

/-- The job that arguments ask for is that of their request. -/
theorem parse_eq_map_request (args : List Text) : parse args = (request args).map Request.job := by
  rw [parse, request]
  rcases args.foldlM Scan.read {} with stop | scan
  · rfl
  · change scan.finish = _
    rw [Scan.finish]
    change _ = Except.map Request.job (scan.settle >>= _)
    rcases scan.settle with stop | settled
    · rfl
    · obtain ⟨input, output, name, held, flagsEnded⟩ := settled
      rcases input with _ | input
      · rfl
      · rcases output with _ | output
        · exact congrArg (fun path => Except.ok (Job.mk _ path _)) (defaultOutput_ofText input)
        · rfl

/-! ### Endings -/

/-- The line that reports a job that is done. -/
def summary (count : Nat) (output : Text) : Text :=
  (toString count).toList ++ " bytes -> ".toList ++ output ++ ['\n']

/-- The three ways in which a run may end. -/
inductive Ending where
  | answer
  | complaint
  | job

/-- How a run on a tree ends: in which way, with what outcome, and with what tree. -/
inductive EndsIn (tree : FileTree) (workDir : Place) (args : List Text) :
    Ending → Outcome → FileTree → Prop where
  -- Help and the version are printed, and nothing else happens.
  | answer {asked : Inquiry} (h : request args = .error (.inquiry asked)) :
      EndsIn tree workDir args .answer
        { status := 0, output := asked.answer.toList, diagnostics := [] } tree
  -- A usage error is reported, and nothing else happens.
  | complaint {wrong : UsageError} (h : request args = .error (.usage wrong)) :
      EndsIn tree workDir args .complaint
        { status := 2, output := [], diagnostics := Text.firstLine wrong.message } tree
  -- The job is done, and the count and the output are reported.
  | done {asked : Request} {n : Nat} (h : request args = .ok asked)
      (hdone : (tree.embed workDir asked.job).1 = .ok n) :
      EndsIn tree workDir args .job
        { status := 0, output := summary n asked.outputText, diagnostics := [] }
        (tree.embed workDir asked.job).2
  -- The job fails, and its error is reported.
  | failed {asked : Request} {e : EmbedError} (h : request args = .ok asked)
      (herror : (tree.embed workDir asked.job).1 = .error e) :
      EndsIn tree workDir args .job
        { status := 1, output := [], diagnostics := "ctab: ".toList ++ e.message }
        (tree.embed workDir asked.job).2

variable {tree after : FileTree} {workDir : Place} {args : List Text} {ending : Ending}
  {outcome : Outcome}

/-- The way in which a run ends follows from its arguments. -/
theorem EndsIn.ending_eq (h : EndsIn tree workDir args ending outcome after) :
    ending =
      match request args with
      | .error (.inquiry _) => .answer
      | .error (.usage _) => .complaint
      | .ok _ => .job := by
  cases h with
  | answer h => rw [h]
  | complaint h => rw [h]
  | done h _ => rw [h]
  | failed h _ => rw [h]

theorem display_output_job (request : Request) :
    request.job.output.display = request.outputText :=
  Text.decodeLossy_encode _

theorem exists_endsIn (tree : FileTree) (workDir : Place) (args : List Text) :
    ∃ ending, EndsIn tree workDir args ending ((run (FileTree.files workDir) args).run tree).1
      ((run (FileTree.files workDir) args).run tree).2 := by
  rw [run, parse_eq_map_request]
  rcases hrequest : request args with stop | asked
  · cases stop with
    | inquiry asked => exact ⟨.answer, .answer hrequest⟩
    | usage wrong => exact ⟨.complaint, .complaint hrequest⟩
  · refine ⟨.job, ?_⟩
    change EndsIn tree workDir args .job
      (jobOutcome asked.job (tree.embed workDir asked.job).1) (tree.embed workDir asked.job).2
    rcases hresult : (tree.embed workDir asked.job).1 with e | n
    · exact .failed hrequest hresult
    · have hline : jobOutcome asked.job (.ok n) =
          { status := 0, output := summary n asked.outputText, diagnostics := [] } := by
        rw [jobOutcome, display_output_job, summary, String.toList_append]
      rw [hline]
      exact .done hrequest hresult

/-! ### What is printed -/

theorem answer_ne_nil (asked : Inquiry) : asked.answer.toList ≠ [] := by
  rw [ne_eq, String.toList_eq_nil_iff]
  cases asked with
  | help => decide +kernel
  | version => decide +kernel

theorem exists_message_eq_cons (wrong : UsageError) : ∃ rest, wrong.message = 'e' :: rest := by
  cases wrong with
  | missingInput => exact ⟨_, rfl⟩
  | unexpectedArgument arg => exact ⟨_, rfl⟩
  | valueRequired role => cases role <;> exact ⟨_, rfl⟩
  | repeated role => cases role <;> exact ⟨_, rfl⟩
  | unexpectedValue inquiry value => exact ⟨_, rfl⟩

theorem firstLine_message_ne_nil (wrong : UsageError) : Text.firstLine wrong.message ≠ [] := by
  obtain ⟨rest, h⟩ := exists_message_eq_cons wrong
  rw [Text.firstLine, h]
  simp

theorem summary_ne_nil (count : Nat) (output : Text) : summary count output ≠ [] := by
  simp [summary]

/-- Only a job that is done changes the tree. -/
theorem EndsIn.exists_summary (h : EndsIn tree workDir args ending outcome after)
    (hchange : after ≠ tree) :
    outcome.status = 0 ∧ ∃ count output, outcome.output = summary count output := by
  cases h with
  | answer h => exact absurd rfl hchange
  | complaint h => exact absurd rfl hchange
  | done h hdone => exact ⟨rfl, _, _, rfl⟩
  | failed h herror => exact absurd (FileTree.embed_of_error herror) hchange

theorem EndsIn.output_eq_nil_iff (h : EndsIn tree workDir args ending outcome after) :
    outcome.output = [] ↔ outcome.status ≠ 0 := by
  cases h with
  | answer h => simpa using answer_ne_nil _
  | complaint h => simp
  | done h hdone => simpa using summary_ne_nil _ _
  | failed h herror => simp

theorem EndsIn.diagnostics_eq_nil_iff (h : EndsIn tree workDir args ending outcome after) :
    outcome.diagnostics = [] ↔ outcome.status = 0 := by
  cases h with
  | answer h => simp
  | complaint h => simpa using firstLine_message_ne_nil _
  | done h hdone => simp
  | failed h herror => simp

/-- Every run ends in one way, and does its job, if it has one, as that job is done without
the command.  The tree changes only if the status is zero and the summary is printed; the
output is empty exactly if the status is not zero, and the diagnostics exactly if it is. -/
theorem run_ends (tree : FileTree) (workDir : Place) (args : List Text) :
    let outcome := ((run (FileTree.files workDir) args).run tree).1
    let after := ((run (FileTree.files workDir) args).run tree).2
    (∃! ending, EndsIn tree workDir args ending outcome after) ∧
      (after ≠ tree →
        outcome.status = 0 ∧ ∃ count output, outcome.output = summary count output) ∧
      (outcome.output = [] ↔ outcome.status ≠ 0) ∧
      (outcome.diagnostics = [] ↔ outcome.status = 0) := by
  intro outcome after
  obtain ⟨ending, h⟩ := exists_endsIn tree workDir args
  refine ⟨⟨ending, h, ?_⟩, h.exists_summary, h.output_eq_nil_iff, h.diagnostics_eq_nil_iff⟩
  intro other hother
  exact hother.ending_eq.trans h.ending_eq.symm

end CommandLine
end ByteEmbed
