import ByteEmbed.Declaration.Basic
import ByteEmbed.Literal

/-!
# Reading a declaration back

The header must be the first line and the closing line must end the text.
Between them the literals are found from left to right, each the leftmost one
after the literal before it; whatever lies outside them may only be layout:
tabs, spaces and newlines.  An error says which of the two lines is missing, or
where in the whole text, in bytes, the first stray character stands.

The layout is free, so many texts are read as the same declaration.
-/

namespace ByteEmbed

/-- Why a text is not a declaration.  Unexpected text is a character that is neither
layout nor part of a literal, at a byte offset into the text. -/
inductive ParseError where
  | missingHeader
  | missingTerminator
  | unexpectedText (offset : Nat)
  deriving DecidableEq, Repr

/-- The wording of an error. -/
def ParseError.message : ParseError → String
  | .missingHeader => "missing `static uint8_t <name>[] = \x7b` header line"
  | .missingTerminator => "missing `\x7d;` terminator line"
  | .unexpectedText offset => "unexpected text at byte offset " ++ toString offset

namespace Declaration

/-- The characters that may stand between literals. -/
def isLayout (c : Char) : Bool :=
  c == '\t' || c == ' ' || c == '\n'

/-- Splits a text behind its header line into the name and the rest. -/
def readHeader? (source : Text) : Option (Text × Text) :=
  match source.dropWhile (· != '\n') with
  | [] => none
  | _ :: rest => do
      let line := source.takeWhile (· != '\n') ++ ['\n']
      let named ← headerPrefix.isPrefixOf? line
      let name ← headerSuffix.isSuffixOf? named
      return (name, rest)

/-- Splits a text at its leftmost literal: the text before it, its value, and
the text after it. -/
def splitAtLiteral? (source : Text) : Option (Text × UInt8 × Text) :=
  go [] source
where
  /-- The search, with the characters passed so far, the latest first. -/
  go (passed : List Char) : Text → Option (Text × UInt8 × Text)
    | [] => none
    | c :: rest =>
        match Literal.read? (c :: rest) with
        | some (value, after) => some (passed.reverse, value, after)
        | none => go (c :: passed) rest

/-- Accepts a gap between literals that is all layout, and otherwise points at
its first stray character.  The gap begins at `offset`. -/
def checkGap (offset : Nat) (gap : Text) : Except ParseError Unit :=
  if gap.all isLayout then .ok ()
  else .error (.unexpectedText (offset + Text.byteLength (gap.takeWhile isLayout)))

theorem splitAtLiteral?.length_lt_of_go {passed source gap rest : Text} {value : UInt8}
    (h : splitAtLiteral?.go passed source = some (gap, value, rest)) :
    rest.length < source.length := by
  induction source generalizing passed with
  | nil => simp [go] at h
  | cons c source ih =>
      rw [go] at h
      split at h
      · next hRead =>
          simp only [Option.some.injEq, Prod.mk.injEq] at h
          exact h.2.2 ▸ Literal.length_lt_of_read?_eq_some hRead
      · exact Nat.lt_succ_of_lt (ih h)

/-- What follows the leftmost literal is shorter than the whole. -/
theorem length_lt_of_splitAtLiteral? {source gap rest : Text} {value : UInt8}
    (h : splitAtLiteral? source = some (gap, value, rest)) : rest.length < source.length :=
  splitAtLiteral?.length_lt_of_go h

/-- Reads the literals of a body that begins at `offset`, after those already
read, of which the latest comes first. -/
def readBody (offset : Nat) (values : List UInt8) (source : Text) :
    Except ParseError (List UInt8) :=
  match _h : splitAtLiteral? source with
  | none => do
      checkGap offset source
      return values.reverse
  | some (gap, value, rest) => do
      checkGap offset gap
      readBody (offset + Text.byteLength gap + Literal.width) (value :: values) rest
termination_by source.length
decreasing_by exact length_lt_of_splitAtLiteral? _h

/-- Reads the text of a declaration. -/
def parse (source : Text) : Except ParseError Declaration :=
  match readHeader? source with
  | none => .error .missingHeader
  | some (name, rest) =>
      match terminator.isSuffixOf? rest with
      | none => .error .missingTerminator
      | some source => do
          let bytes ← readBody (Text.byteLength (header name)) [] source
          return ⟨name, bytes⟩

end Declaration
end ByteEmbed
