import ByteEmbed.CommandLine.Arguments

/-!
# Running the command

The arguments are read to the end before a file is touched.  The command then
answers an inquiry, complains about its usage, or does its job and reports the
outcome.
-/

namespace ByteEmbed
namespace CommandLine

/-- What a run of the command leaves behind, its files aside.  The status is zero for
success, one for a failed job and two for wrong usage, and the diagnostics are
without the end of their last line. -/
structure Outcome where
  status : Nat
  output : Text := []
  diagnostics : Text := []
  deriving DecidableEq, Repr

/-- The outcome when there is no job to do.  Of a usage error the first line is
the message. -/
def Stop.outcome : Stop → Outcome
  | .inquiry asked => { status := 0, output := asked.answer.toList }
  | .usage wrong => { status := 2, diagnostics := Text.firstLine wrong.message }

/-- The outcome of a job. -/
def jobOutcome (job : Job) : Except EmbedError Nat → Outcome
  | .ok count =>
      { status := 0
        output := (toString count ++ " bytes -> ").toList ++ job.output.display ++ ['\n'] }
  | .error e =>
      { status := 1
        diagnostics := (commandName ++ ": ").toList ++ e.message }

/-- Runs the command on a file system. -/
def run {m : Type → Type} [Monad m] {Status Found Draft : Type}
    (files : Files m Status Found Draft) (args : List Text) : m Outcome :=
  match parse args with
  | .error stop => return stop.outcome
  | .ok job => do
      let result ← files.embed job
      return jobOutcome job result

end CommandLine
end ByteEmbed
