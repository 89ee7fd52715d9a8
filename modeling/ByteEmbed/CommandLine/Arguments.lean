import ByteEmbed.CommandLine.Usage
import ByteEmbed.Embed

/-!
# Reading the arguments of the command

Arguments are read from left to right.  A value is first held back and settled
when the next argument needs the place: only then is it noticed that it is
absent, given twice or empty.  An inquiry settles what is held back and then
ends the reading; an unknown flag, a second input and a value for an inquiry
end it at once, whatever is held back.

A value takes a flag either as an argument of its own, which may not look like
a flag, or attached to it.  After `--` every argument is an input.
-/

namespace ByteEmbed
namespace CommandLine

/-- An argument by the way it is spelled.  A long flag may have a value behind an
equals sign and a short one characters behind it; a single dash is plain. -/
inductive Argument where
  | separator
  | long (flag : Text) (attached : Option Text)
  | short (flag : Char) (attached : Text)
  | plain (value : Text)
  deriving DecidableEq, Repr

/-- What follows the first equals sign of a text, if it has one. -/
def attachedValue? (text : Text) : Option Text :=
  match text.dropWhile (· != '=') with
  | [] => none
  | _ :: value => some value

/-- How an argument is spelled. -/
def Argument.ofText : Text → Argument
  | ['-', '-'] => .separator
  | '-' :: '-' :: rest => .long (rest.takeWhile (· != '=')) (attachedValue? rest)
  | '-' :: flag :: attached => .short flag attached
  | value => .plain value

/-- What a flag asks for. -/
inductive Flag where
  | value (role : Role)
  | inquiry (inquiry : Inquiry)
  deriving DecidableEq, Repr

/-- The flag of a long name. -/
def Flag.ofLong? (flag : Text) : Option Flag :=
  if flag = "name".toList then some (.value .name)
  else if flag = "output".toList then some (.value .output)
  else if flag = "help".toList then some (.inquiry .help)
  else if flag = "version".toList then some (.inquiry .version)
  else none

/-- The flag of a short name. -/
def Flag.ofShort? : Char → Option Flag
  | 'n' => some (.value .name)
  | 'o' => some (.value .output)
  | 'h' => some (.inquiry .help)
  | 'V' => some (.inquiry .version)
  | _ => none

/-- Why reading ends before the job is known. -/
inductive Stop where
  | inquiry (inquiry : Inquiry)
  | usage (error : UsageError)
  deriving DecidableEq, Repr

/-- A value that is held back, with what it is for.  It may not have been given yet. -/
structure Held where
  role : Role
  value : Option Text
  deriving DecidableEq, Repr

/-- The arguments read so far: the settled values, the one that is held back, and
whether the flags have ended. -/
structure Scan where
  input : Option Text := none
  output : Option Text := none
  name : Option Text := none
  held : Option Held := none
  flagsEnded : Bool := false
  deriving DecidableEq, Repr

namespace Scan

/-- The settled value of a role. -/
def get? (scan : Scan) : Role → Option Text
  | .input => scan.input
  | .output => scan.output
  | .name => scan.name

/-- Settles a value, whatever is settled already. -/
def put (scan : Scan) (role : Role) (value : Text) : Scan :=
  match role with
  | .input => { scan with input := some value }
  | .output => { scan with output := some value }
  | .name => { scan with name := some value }

/-- Settles a value that is the first for its role.  Only a name may be empty. -/
def store (scan : Scan) (role : Role) (value : Text) : Except Stop Scan :=
  if (scan.get? role).isSome then .error (.usage (.repeated role))
  else if role ≠ .name ∧ value = [] then .error (.usage (.valueRequired role))
  else .ok (scan.put role value)

/-- Settles the value that is held back. -/
def settle (scan : Scan) : Except Stop Scan :=
  match scan.held with
  | none => .ok scan
  | some ⟨role, none⟩ => .error (.usage (.valueRequired role))
  | some ⟨role, some value⟩ => { scan with held := none }.store role value

/-- Settles what is held back and holds back something else. -/
def hold (scan : Scan) (role : Role) (value : Option Text) : Except Stop Scan := do
  let settled ← scan.settle
  return { settled with held := some ⟨role, value⟩ }

/-- Whether there has been an input. -/
def hasInput (scan : Scan) : Bool :=
  scan.input.isSome || scan.held.any (·.role = .input)

/-- Reads an argument that is a value without a flag. -/
def readInput (scan : Scan) (value : Text) : Except Stop Scan :=
  if scan.hasInput then .error (.usage (.unexpectedArgument value))
  else scan.hold .input (some value)

/-- Reads a known flag and the value attached to it, if any. -/
def readFlag (scan : Scan) (attached : Option Text) : Flag → Except Stop Scan
  | .value role =>
      match attached with
      | none => scan.hold role none
      | some value => do
          let settled ← scan.settle
          settled.store role value
  | .inquiry inquiry => do
      let _ ← scan.settle
      .error (.inquiry inquiry)

/-- Reads a long flag.  An inquiry may not have a value attached. -/
def readLong (scan : Scan) (flag : Text) (attached : Option Text) : Except Stop Scan :=
  match Flag.ofLong? flag, attached with
  | none, _ => .error (.usage (.unexpectedArgument ('-' :: '-' :: flag)))
  | some (.inquiry inquiry), some value => .error (.usage (.unexpectedValue inquiry value))
  | some flag, _ => scan.readFlag attached flag

/-- The value attached to a short flag, one equals sign before it aside. -/
def shortValue? : Text → Option Text
  | [] => none
  | '=' :: value => some value
  | value => some value

/-- Reads a short flag. -/
def readShort (scan : Scan) (flag : Char) (attached : Text) : Except Stop Scan :=
  match Flag.ofShort? flag with
  | none => .error (.usage (.unexpectedArgument ['-', flag]))
  | some known => scan.readFlag (shortValue? attached) known

/-- Reads an argument that does not look like a flag: the value for which a
flag waits, or an input. -/
def readPlain (scan : Scan) (value : Text) : Except Stop Scan :=
  match scan.held with
  | some ⟨role, none⟩ => .ok { scan with held := some ⟨role, some value⟩ }
  | _ => scan.readInput value

/-- Reads one argument. -/
def read (scan : Scan) (arg : Text) : Except Stop Scan :=
  if scan.flagsEnded then scan.readInput arg
  else
    match Argument.ofText arg with
    | .separator => .ok { scan with flagsEnded := true }
    | .long flag attached => scan.readLong flag attached
    | .short flag attached => scan.readShort flag attached
    | .plain value => scan.readPlain value

/-- The job that has been asked for when all arguments are read. -/
def finish (scan : Scan) : Except Stop Job := do
  let settled ← scan.settle
  match settled.input with
  | none => .error (.usage .missingInput)
  | some value =>
      let input := Path.ofText value
      return {
        input
        output := (settled.output.map Path.ofText).getD input.defaultOutput
        name := settled.name.getD Declaration.defaultName }

end Scan

/-- The job that the arguments of the command ask for. -/
def parse (args : List Text) : Except Stop Job := do
  let scan ← args.foldlM Scan.read {}
  scan.finish

end CommandLine
end ByteEmbed
