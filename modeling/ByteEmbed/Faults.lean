import ByteEmbed.Embed

/-!
# Steps that fail

A step on a file may fail for reasons that its paths do not show: a full disk, missing
rights, a device that is gone.  `Faults` names the steps of a job that fail like this,
and `Files.withFaults` is a file system on which they do.
-/

namespace ByteEmbed

/-- The errors of the steps that fail.  A draft may have been filled in part before
filling it fails. -/
structure Faults where
  read : Option FileError := none
  stat : Option FileError := none
  locate : Option FileError := none
  create : Option FileError := none
  copyMode : Option FileError := none
  fill : Option (Nat × FileError) := none
  sync : Option FileError := none
  publish : Option FileError := none
  deriving DecidableEq, Repr

variable {m : Type → Type} [Monad m] {Status Found Draft : Type}

/-- A step, unless a fault takes its place. -/
def orFault {α : Type} (fault : Option FileError) (step : ExceptT FileError m α) :
    ExceptT FileError m α :=
  match fault with
  | none => step
  | some e => throw e

/-- Fills a draft, all of it or as far as a fault lets it come. -/
def Files.fillUntil (files : Files m Status Found Draft) (fault : Option (Nat × FileError))
    (draft : Draft) (contents : List UInt8) : ExceptT FileError m Unit :=
  match fault with
  | none => files.fill draft contents
  | some (count, e) => do
      files.fill draft (contents.take count)
      throw e

/-- A file system on which some steps fail.  A step that fails has done nothing, except
that of filling a draft. -/
def Files.withFaults (files : Files m Status Found Draft) (faults : Faults) :
    Files m Status Found Draft where
  read path := orFault faults.read (files.read path)
  stat path := orFault faults.stat (files.stat path)
  locate path := orFault faults.locate (files.locate path)
  create output found := orFault faults.create (files.create output found)
  copyMode status draft := orFault faults.copyMode (files.copyMode status draft)
  fill draft contents := files.fillUntil faults.fill draft contents
  sync draft := orFault faults.sync (files.sync draft)
  publish draft output found := orFault faults.publish (files.publish draft output found)
  discard draft := files.discard draft

@[simp]
theorem Files.withFaults_empty (files : Files m Status Found Draft) :
    files.withFaults {} = files := rfl

end ByteEmbed
