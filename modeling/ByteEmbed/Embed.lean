import ByteEmbed.Declaration.Render
import ByteEmbed.FileError
import ByteEmbed.Path

/-!
# Embedding a file

Embedding reads the bytes of an input and puts the text of their declaration in
place of an output.  The output is replaced as a whole: the text goes into a
draft in the folder of the output, and the finished draft is published over it.
From the moment that there is a draft, whatever fails discards it.

What a file system must offer for this is stated as `Files`, over any monad, so
the same program runs on a modelled tree and on a real one.
-/

namespace ByteEmbed

/-- What embedding asks of a file system.  `Status` stands for what is known of an
existing output, `Found` for that output as links lead to it, and `Draft` for a
file that is not yet in its place.  A draft starts empty, in the folder of what was
found or else in that of the path, and is published over what was found or else to
the path itself.  Every step may fail, except that of discarding a draft. -/
structure Files (m : Type → Type) (Status Found Draft : Type) where
  read : Path → ExceptT FileError m (List UInt8)
  stat : Path → ExceptT FileError m Status
  locate : Path → ExceptT FileError m Found
  create : Path → Option Found → ExceptT FileError m Draft
  copyMode : Status → Draft → ExceptT FileError m Unit
  fill : Draft → List UInt8 → ExceptT FileError m Unit
  sync : Draft → ExceptT FileError m Unit
  publish : Draft → Path → Option Found → ExceptT FileError m Unit
  discard : Draft → m Unit

/-- An output that exists. -/
structure Existing (Status Found : Type) where
  status : Status
  found : Found

/-- A file to embed, the output for its declaration, and the name of the array. -/
structure Job where
  input : Path
  output : Path
  name : Text := Declaration.defaultName
  deriving DecidableEq, Repr

/-- Why a job failed, with the path of the job that is to blame. -/
inductive EmbedError where
  | readInput (path : Path) (cause : FileError)
  | writeOutput (path : Path) (cause : FileError)
  deriving DecidableEq, Repr

/-- The wording of an error. -/
def EmbedError.message : EmbedError → Text
  | .readInput path cause =>
      "failed to read ".toList ++ path.display ++ ": ".toList ++ cause.message.toList
  | .writeOutput path cause =>
      "failed to write ".toList ++ path.display ++ ": ".toList ++ cause.message.toList

namespace Files

variable {m : Type → Type} [Monad m] {Status Found Draft : Type}

/-- What exists in place of an output.  An output whose status cannot be told, for
whatever reason, counts as new. -/
def existing? (files : Files m Status Found Draft) (output : Path) :
    ExceptT FileError m (Option (Existing Status Found)) := do
  match ← tryCatch (some <$> files.stat output) fun _ => pure none with
  | none => return none
  | some status => return some ⟨status, ← files.locate output⟩

/-- Writes a draft and publishes it. -/
def finish (files : Files m Status Found Draft) (draft : Draft) (output : Path)
    (existing : Option (Existing Status Found)) (contents : List UInt8) :
    ExceptT FileError m Unit := do
  if let some old := existing then files.copyMode old.status draft
  files.fill draft contents
  files.sync draft
  files.publish draft output (existing.map Existing.found)

/-- Puts contents in the place of an output, all at once or not at all. -/
def replace (files : Files m Status Found Draft) (output : Path) (contents : List UInt8) :
    ExceptT FileError m Unit := do
  let existing ← files.existing? output
  let draft ← files.create output (existing.map Existing.found)
  try files.finish draft output existing contents
  catch e =>
    files.discard draft
    throw e

/-- Does a job, and gives the number of bytes embedded. -/
def embed (files : Files m Status Found Draft) (job : Job) : m (Except EmbedError Nat) :=
  ExceptT.run do
    let bytes ← (files.read job.input).adapt (.readInput job.input)
    let text := Declaration.render ⟨job.name, bytes⟩
    (files.replace job.output text.encode).adapt (.writeOutput job.output)
    return bytes.length

end Files
end ByteEmbed
