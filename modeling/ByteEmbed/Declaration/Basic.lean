import ByteEmbed.Text.Basic

/-!
# Array declarations

A declaration is a name and the bytes that it stands for.  Its text is one
header line, the bytes in rows, and one closing line.  The name is any text at
all: nothing here asks that it be an identifier.
-/

namespace ByteEmbed

/-- A named array of bytes.  The name is written as it is. -/
structure Declaration where
  name : Text
  bytes : List UInt8
  deriving DecidableEq, Repr

namespace Declaration

/-- The number of literals on a full row. -/
def rowWidth : Nat := 8

/-- The name of an array that nobody has named. -/
def defaultName : Text := "manifest_buf".toList

/-- What precedes the name. -/
def headerPrefix : Text := "static uint8_t ".toList

/-- What follows the name on the header line. -/
def headerSuffix : Text := "[] = \x7b\n".toList

/-- The closing line. -/
def terminator : Text := "\x7d;\n".toList

/-- The header line of an array. -/
def header (name : Text) : Text :=
  headerPrefix ++ name ++ headerSuffix

theorem byteLength_headerPrefix : headerPrefix.byteLength = 15 := by decide

theorem byteLength_headerSuffix : headerSuffix.byteLength = 7 := by decide

theorem byteLength_terminator : terminator.byteLength = 3 := by decide

@[simp]
theorem byteLength_header (name : Text) :
    Text.byteLength (header name) = 22 + Text.byteLength name := by
  simp only [header, Text.byteLength_append, byteLength_headerPrefix, byteLength_headerSuffix]
  omega

end Declaration
end ByteEmbed
