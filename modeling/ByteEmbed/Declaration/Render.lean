import ByteEmbed.Declaration.Basic
import ByteEmbed.Literal

/-!
# The text of a declaration

The bytes are cut into rows of `rowWidth`, the last of which may be short.  A
row is a tab, its literals one space apart, and a newline; no bytes make no
row.  The text as a whole is the header line, the rows and the closing line.

`reservation` estimates the size of the text from the two lengths alone, so
that room can be made for it before it is written.
-/

namespace ByteEmbed
namespace Declaration

/-- The bytes row by row: every row is full except perhaps the last. -/
def rows : List UInt8 → List (List UInt8)
  | [] => []
  | b :: rest => (b :: rest).take rowWidth :: rows ((b :: rest).drop rowWidth)
termination_by bytes => bytes.length
decreasing_by
  simp only [rowWidth, List.length_drop, List.length_cons]
  omega

/-- The line of one row. -/
def rowText (row : List UInt8) : Text :=
  '\t' :: [' '].intercalate (row.map Literal.text) ++ ['\n']

/-- The lines of all rows. -/
def body (bytes : List UInt8) : Text :=
  (rows bytes).flatMap rowText

/-- The text of a declaration. -/
def render (d : Declaration) : Text :=
  header d.name ++ body d.bytes ++ terminator

/-- An estimate, in bytes, of the room that the text of a declaration takes: six
bytes for each literal and its separator, and a newline for each full row and
for one more. -/
def reservation (d : Declaration) : Nat :=
  headerPrefix.byteLength + d.name.byteLength + headerSuffix.byteLength +
    d.bytes.length * 6 + d.bytes.length / rowWidth + 1 + terminator.byteLength

@[simp]
theorem rows_nil : rows [] = [] := by
  simp [rows]

end Declaration
end ByteEmbed
