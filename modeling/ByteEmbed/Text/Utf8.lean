import ByteEmbed.Text.Basic

/-!
# Reading UTF-8, lossily and strictly

Bytes are read one at a time.  Between two characters the reader owes nothing;
inside one it knows how many bytes are still to come and which values the next
byte may have.  These ranges rule out overlong forms, surrogates and code
points past U+10FFFF at the earliest byte that betrays them.

`decodeLossy` puts one replacement character for each maximal malformed piece:
a sequence that is cut short counts as one piece, and the byte that cut it
short is read afresh.  `decode?` accepts exactly the bytes that some text
encodes to.
-/

namespace ByteEmbed
namespace Text

/-- The character that stands for malformed input, U+FFFD. -/
def replacement : Char := '\uFFFD'

/-- A character that has begun and is not complete: how many bytes are owed after
the next one, the range of the next one, and the bits that have been read. -/
structure Pending where
  owed : Nat
  low : UInt8
  high : UInt8
  bits : Nat
  deriving DecidableEq, Repr

/-- What one byte does to the character it belongs to.  A malformed one cannot stand
there. -/
inductive Reading where
  | complete (c : Char)
  | more (pending : Pending)
  | malformed
  deriving DecidableEq, Repr

/-- Reads a byte that begins a character. -/
def lead (b : UInt8) : Reading :=
  if b < 0x80 then .complete (Char.ofNat b.toNat)
  else if b < 0xC2 then .malformed
  else if b < 0xE0 then .more ⟨0, 0x80, 0xBF, b.toNat % 32⟩
  else if b = 0xE0 then .more ⟨1, 0xA0, 0xBF, 0⟩
  else if b = 0xED then .more ⟨1, 0x80, 0x9F, 13⟩
  else if b < 0xF0 then .more ⟨1, 0x80, 0xBF, b.toNat % 16⟩
  else if b = 0xF0 then .more ⟨2, 0x90, 0xBF, 0⟩
  else if b < 0xF4 then .more ⟨2, 0x80, 0xBF, b.toNat % 8⟩
  else if b = 0xF4 then .more ⟨2, 0x80, 0x8F, 4⟩
  else .malformed

/-- Reads a byte that continues a character. -/
def Pending.next (pending : Pending) (b : UInt8) : Reading :=
  if pending.low ≤ b ∧ b ≤ pending.high then
    let bits := 64 * pending.bits + b.toNat % 64
    match pending.owed with
    | 0 => .complete (Char.ofNat bits)
    | owed + 1 => .more ⟨owed, 0x80, 0xBF, bits⟩
  else .malformed

/-- A lossy reader part way through its input, with the characters read so far, the
latest first. -/
structure Decoder where
  out : List Char := []
  pending : Option Pending := none
  deriving DecidableEq, Repr

namespace Decoder

/-- Reads a byte between two characters. -/
def start (out : List Char) (b : UInt8) : Decoder :=
  match lead b with
  | .complete c => ⟨c :: out, none⟩
  | .more pending => ⟨out, some pending⟩
  | .malformed => ⟨replacement :: out, none⟩

/-- Reads one byte.  A byte that cuts a character short starts afresh. -/
def feed (d : Decoder) (b : UInt8) : Decoder :=
  match d.pending with
  | none => start d.out b
  | some pending =>
      match pending.next b with
      | .complete c => ⟨c :: d.out, none⟩
      | .more pending => ⟨d.out, some pending⟩
      | .malformed => start (replacement :: d.out) b

/-- The text read, with one replacement for a character left unfinished. -/
def finish (d : Decoder) : Text :=
  match d.pending with
  | none => d.out.reverse
  | some _ => (replacement :: d.out).reverse

end Decoder

/-- The text that bytes stand for, malformed pieces replaced. -/
def decodeLossy (bytes : List UInt8) : Text :=
  (bytes.foldl Decoder.feed {}).finish

/-- The text that bytes encode, if they encode one: the lossy reading is it
exactly when it encodes back to the same bytes. -/
def decode? (bytes : List UInt8) : Option Text :=
  let text := decodeLossy bytes
  if text.encode = bytes then some text else none

end Text
end ByteEmbed
