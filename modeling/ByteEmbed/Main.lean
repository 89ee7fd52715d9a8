import ByteEmbed.CommandLine.Run

/-!
# The command

The command on the files of the system that it runs on.  The standard library
cannot read permission bits, so a draft has the mode of a new file whatever it
replaces.  Nor can it wait until a file has reached its disk.
-/

namespace ByteEmbed
namespace Main

/-- A path as the system takes it. -/
def spelling (path : Path) : String :=
  String.ofList path.display

/-- The error of the file system behind an error of the system, by its number where
that matters. -/
def fileError (e : IO.Error) : FileError :=
  match e with
  | .noFileOrDirectory .. => .notFound
  | .inappropriateType _ 21 _ => .isADirectory
  | .inappropriateType .. => .notADirectory
  | .invalidArgument _ 36 _ | .otherError 36 _ => .nameTooLong
  | .invalidArgument _ 40 _ | .otherError 40 _ => .linkLoop
  | .resourceBusy 16 _ => .busy
  | .invalidArgument .. => .invalidArgument
  | e => .other e.toString

/-- A step on a file, with the error of the system if it fails. -/
def step {α : Type} (action : IO α) : ExceptT FileError IO α :=
  .mk do
    try
      return .ok (← action)
    catch e =>
      return .error (fileError e)

/-- Makes an empty file in a folder, under a name that is not in use. -/
partial def createDraft (folder : String) : IO String := do
  let number ← IO.rand 0 0xFFFFFF
  let draft := folder ++ "/.embed" ++ toString number
  try
    let _ ← IO.FS.Handle.mk draft .writeNew
    return draft
  catch
    | .alreadyExists .. => createDraft folder
    | e => throw e

/-- The files of the system.  An existing output is its path without links. -/
def systemFiles : Files IO Unit String String where
  read path := step do
    let contents ← IO.FS.readBinFile (spelling path)
    return contents.toList
  stat path := step do
    let _ ← IO.FS.realPath (spelling path)
  locate path := step do
    let old ← IO.FS.realPath (spelling path)
    return old.toString
  create output found :=
    let target := (found.map fun old => Path.ofText old.toList).getD output
    step (createDraft (spelling target.folder))
  copyMode _ _ := return ()
  fill draft contents := step do
    IO.FS.withFile draft .write fun handle => do
      handle.write ⟨contents.toArray⟩
      -- Closing the handle would write what is left too, but tells no errors.
      handle.flush
  sync _ := return ()
  publish draft output found := step (IO.FS.rename draft (found.getD (spelling output)))
  discard draft := do
    try IO.FS.removeFile draft
    catch _ => return ()

end Main
end ByteEmbed

/-- Runs the command, prints what it has to say, and exits with its status. -/
def main (args : List String) : IO UInt32 := do
  let outcome ← ByteEmbed.CommandLine.run ByteEmbed.Main.systemFiles (args.map String.toList)
  IO.print (String.ofList outcome.output)
  unless outcome.diagnostics.isEmpty do
    IO.eprintln (String.ofList outcome.diagnostics)
  return UInt32.ofNat outcome.status
