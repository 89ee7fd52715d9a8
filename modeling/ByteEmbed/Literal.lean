import ByteEmbed.Text.Basic

/-!
# Byte literals

A byte is written `0x`, two uppercase hexadecimal digits and a comma, always
five characters.  Reading accepts exactly that spelling.
-/

namespace ByteEmbed
namespace Literal

/-- The uppercase hexadecimal digit of a number below sixteen. -/
def digit (n : Nat) : Char :=
  if n < 10 then Char.ofNat ('0'.toNat + n) else Char.ofNat ('A'.toNat + (n - 10))

/-- The value of an uppercase hexadecimal digit. -/
def digitValue? (c : Char) : Option Nat :=
  if '0' ≤ c ∧ c ≤ '9' then some (c.toNat - '0'.toNat)
  else if 'A' ≤ c ∧ c ≤ 'F' then some (c.toNat - 'A'.toNat + 10)
  else none

/-- The literal of a byte. -/
def text (value : UInt8) : Text :=
  ['0', 'x', digit (value.toNat / 16), digit (value.toNat % 16), ',']

/-- The size of a literal, in characters and in bytes. -/
def width : Nat := 5

/-- Reads the literal at the start of a text, and gives the text after it. -/
def read? : Text → Option (UInt8 × Text)
  | '0' :: 'x' :: high :: low :: ',' :: rest =>
      match digitValue? high, digitValue? low with
      | some h, some l => some (UInt8.ofNat (16 * h + l), rest)
      | _, _ => none
  | _ => none

@[simp]
theorem length_text (value : UInt8) : (text value).length = width := rfl

theorem digitValue?_digit {n : Nat} (h : n < 16) : digitValue? (digit n) = some n := by
  revert n
  decide

@[simp]
theorem read?_text_append (value : UInt8) (rest : Text) :
    read? (text value ++ rest) = some (value, rest) := by
  have bound : value.toNat < 256 := value.toNat_lt
  have high : digitValue? (digit (value.toNat / 16)) = some (value.toNat / 16) :=
    digitValue?_digit (by omega)
  have low : digitValue? (digit (value.toNat % 16)) = some (value.toNat % 16) :=
    digitValue?_digit (by omega)
  have whole : 16 * (value.toNat / 16) + value.toNat % 16 = value.toNat := by omega
  simp [read?, text, high, low, whole]

theorem length_lt_of_read?_eq_some {source rest : Text} {value : UInt8}
    (h : read? source = some (value, rest)) : rest.length < source.length := by
  unfold read? at h
  split at h
  · split at h
    · simp only [Option.some.injEq, Prod.mk.injEq] at h
      simp [← h.2]
      omega
    · contradiction
  · contradiction

end Literal
end ByteEmbed
