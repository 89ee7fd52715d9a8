import ByteEmbed.Text.Utf8
import Mathlib.Data.List.Induction

/-!
# Reading what was encoded

The reader of UTF-8 reads every character back from its bytes.  The bytes come in
four forms, by the size of the code point: a lead byte alone, or a lead byte with one
to three bytes behind it.  The lead byte and the range that it leaves to the next one
are given by `lead_two`, `lead_three` and `lead_four`, and every byte behind it adds
six bits, by `next_tail`.  `reading` is what all bytes of a character come to, and
`exists_reading_encodeChar` that this is the character.

So a text is read back from its encoding, by the lossy reader and by the strict one,
and two texts with one encoding are equal.
-/

namespace ByteEmbed
namespace Text

theorem lead_one {n : Nat} (h : n < 128) : lead (UInt8.ofNat n) = .complete (Char.ofNat n) := by
  have hsmall : UInt8.ofNat n < 0x80 := by
    rw [UInt8.lt_iff_toNat_lt, UInt8.toNat_ofNat']
    show n % 256 < 128
    omega
  have hvalue : (UInt8.ofNat n).toNat = n := by
    rw [UInt8.toNat_ofNat']
    omega
  rw [lead, if_pos hsmall, hvalue]

theorem lead_two {n : Nat} (h : n < 32) (hlow : 2 ≤ n) :
    lead (UInt8.ofNat (n + 192)) = .more ⟨0, 0x80, 0xBF, n⟩ := by
  revert n
  decide

/-- The ranges leave out overlong forms and surrogates. -/
theorem lead_three {n : Nat} (h : n < 16) :
    lead (UInt8.ofNat (n + 224)) =
      .more ⟨1, if n = 0 then 0xA0 else 0x80, if n = 13 then 0x9F else 0xBF, n⟩ := by
  revert n
  decide

/-- The ranges leave out overlong forms and what lies past the last code point. -/
theorem lead_four {n : Nat} (h : n < 5) :
    lead (UInt8.ofNat (n + 240)) =
      .more ⟨2, if n = 0 then 0x90 else 0x80, if n = 4 then 0x8F else 0xBF, n⟩ := by
  revert n
  decide

/-- A byte in the range that is open to it adds its six bits. -/
theorem next_tail {owed bits n : Nat} {low high : UInt8} (h : n < 64)
    (hlow : low.toNat ≤ n + 128) (hhigh : n + 128 ≤ high.toNat) :
    (⟨owed, low, high, bits⟩ : Pending).next (UInt8.ofNat (n + 128)) =
      match owed with
      | 0 => .complete (Char.ofNat (64 * bits + n))
      | owed + 1 => .more ⟨owed, 0x80, 0xBF, 64 * bits + n⟩ := by
  have hvalue : (UInt8.ofNat (n + 128)).toNat = n + 128 := by
    rw [UInt8.toNat_ofNat']
    omega
  have hsix : (n + 128) % 64 = n := by omega
  have hrange : low ≤ UInt8.ofNat (n + 128) ∧ UInt8.ofNat (n + 128) ≤ high := by
    rw [UInt8.le_iff_toNat_le, UInt8.le_iff_toNat_le, hvalue]
    exact ⟨hlow, hhigh⟩
  cases owed with
  | zero => simp only [Pending.next, if_pos hrange, hvalue, hsix]
  | succ owed => simp only [Pending.next, if_pos hrange, hvalue, hsix]

/-- The bytes behind the next one are free to hold any six bits. -/
theorem next_free {owed bits n : Nat} (h : n < 64) :
    (⟨owed, 0x80, 0xBF, bits⟩ : Pending).next (UInt8.ofNat (n + 128)) =
      match owed with
      | 0 => .complete (Char.ofNat (64 * bits + n))
      | owed + 1 => .more ⟨owed, 0x80, 0xBF, 64 * bits + n⟩ := by
  apply next_tail h
  · show 128 ≤ n + 128
    omega
  · show n + 128 ≤ 191
    omega

/-! ### One character -/

/-- What one more byte makes of a reading.  Nothing more belongs to a character that is
complete, or malformed. -/
def Reading.extend : Reading → UInt8 → Reading
  | .more pending, b => pending.next b
  | _, _ => .malformed

/-- What the last of some bytes does to the character that the first of them begins. -/
def reading (first : UInt8) (rest : List UInt8) : Reading :=
  rest.foldl Reading.extend (lead first)

@[simp]
theorem reading_nil (first : UInt8) : reading first [] = lead first := rfl

theorem reading_append (first : UInt8) (rest more : List UInt8) :
    reading first (rest ++ more) = more.foldl Reading.extend (reading first rest) := by
  rw [reading, reading, List.foldl_append]

theorem reading_append_singleton (first : UInt8) (rest : List UInt8) (b : UInt8) :
    reading first (rest ++ [b]) = (reading first rest).extend b :=
  reading_append first rest [b]

/-! ### The four forms of a character -/

theorem reading_two {v : Nat} (hlow : 0x7F < v) (hhigh : v ≤ 0x7FF) :
    reading (UInt8.ofNat (v / 64 % 32 + 192)) [UInt8.ofNat (v % 64 + 128)] =
      .complete (Char.ofNat v) := by
  have hbits : 64 * (v / 64 % 32) + v % 64 = v := by omega
  simp only [reading, List.foldl_cons, List.foldl_nil]
  rw [lead_two (by omega) (by omega), Reading.extend, next_free (by omega), hbits]

theorem reading_three {v : Nat} (hlow : 0x7FF < v) (hhigh : v ≤ 0xFFFF)
    (hvalid : v < 0xD800 ∨ 0xDFFF < v) :
    reading (UInt8.ofNat (v / 4096 % 16 + 224))
        [UInt8.ofNat (v / 64 % 64 + 128), UInt8.ofNat (v % 64 + 128)] =
      .complete (Char.ofNat v) := by
  have hbits : 64 * (64 * (v / 4096 % 16) + v / 64 % 64) + v % 64 = v := by omega
  have hleast : (if v / 4096 % 16 = 0 then 0xA0 else 0x80 : UInt8).toNat ≤
      v / 64 % 64 + 128 := by
    split
    · show 160 ≤ _
      omega
    · show 128 ≤ _
      omega
  have hgreatest : v / 64 % 64 + 128 ≤
      (if v / 4096 % 16 = 13 then 0x9F else 0xBF : UInt8).toNat := by
    split
    · show _ ≤ 159
      omega
    · show _ ≤ 191
      omega
  simp only [reading, List.foldl_cons, List.foldl_nil]
  rw [lead_three (by omega), Reading.extend, next_tail (by omega) hleast hgreatest,
    Reading.extend, next_free (by omega), hbits]

theorem reading_four {v : Nat} (hlow : 0xFFFF < v) (hhigh : v < 0x110000) :
    reading (UInt8.ofNat (v / 262144 % 8 + 240))
        [UInt8.ofNat (v / 4096 % 64 + 128), UInt8.ofNat (v / 64 % 64 + 128),
          UInt8.ofNat (v % 64 + 128)] =
      .complete (Char.ofNat v) := by
  have hbits : 64 * (64 * (64 * (v / 262144 % 8) + v / 4096 % 64) + v / 64 % 64) + v % 64 =
      v := by omega
  have hleast : (if v / 262144 % 8 = 0 then 0x90 else 0x80 : UInt8).toNat ≤
      v / 4096 % 64 + 128 := by
    split
    · show 144 ≤ _
      omega
    · show 128 ≤ _
      omega
  have hgreatest : v / 4096 % 64 + 128 ≤
      (if v / 262144 % 8 = 4 then 0x8F else 0xBF : UInt8).toNat := by
    split
    · show _ ≤ 143
      omega
    · show _ ≤ 191
      omega
  simp only [reading, List.foldl_cons, List.foldl_nil]
  rw [lead_four (by omega), Reading.extend, next_tail (by omega) hleast hgreatest,
    Reading.extend, next_free (by omega), Reading.extend, next_free (by omega), hbits]

/-- The bytes of a character are read as that character. -/
theorem exists_reading_encodeChar (c : Char) :
    ∃ first rest, String.utf8EncodeChar c = first :: rest ∧
      reading first rest = .complete c := by
  have hchar : Char.ofNat c.val.toNat = c := Char.ofNat_toNat c
  -- Code points leave out the surrogates and end at 0x10FFFF.
  have hvalid : c.val.toNat < 0xD800 ∨ 0xDFFF < c.val.toNat ∧ c.val.toNat < 0x110000 := c.valid
  rw [String.utf8EncodeChar]
  by_cases hone : c.val.toNat ≤ 0x7F
  · rw [if_pos hone]
    exact ⟨_, _, rfl, by rw [reading_nil, lead_one (by omega), hchar]⟩
  rw [if_neg hone]
  by_cases htwo : c.val.toNat ≤ 0x7FF
  · rw [if_pos htwo]
    exact ⟨_, _, rfl, by rw [reading_two (by omega) htwo, hchar]⟩
  rw [if_neg htwo]
  by_cases hthree : c.val.toNat ≤ 0xFFFF
  · rw [if_pos hthree]
    exact ⟨_, _, rfl, by rw [reading_three (by omega) hthree (by omega), hchar]⟩
  rw [if_neg hthree]
  exact ⟨_, _, rfl, by rw [reading_four (by omega) (by omega), hchar]⟩

theorem exists_of_extend_eq_complete {r : Reading} {b : UInt8} {c : Char}
    (h : r.extend b = .complete c) :
    ∃ pending, r = .more pending ∧ pending.next b = .complete c := by
  cases r with
  | more pending => exact ⟨pending, rfl, h⟩
  | complete => contradiction
  | malformed => contradiction

theorem exists_of_extend_eq_more {r : Reading} {b : UInt8} {pending : Pending}
    (h : r.extend b = .more pending) :
    ∃ before, r = .more before ∧ before.next b = .more pending := by
  cases r with
  | more before => exact ⟨before, rfl, h⟩
  | complete => contradiction
  | malformed => contradiction

namespace Decoder

/-- While a character is being read, the decoder remembers it and adds nothing. -/
theorem foldl_feed_of_more {first : UInt8} {rest : List UInt8} {pending : Pending}
    (h : reading first rest = .more pending) (out : List Char) :
    (first :: rest).foldl feed ⟨out, none⟩ = ⟨out, some pending⟩ := by
  induction rest using List.reverseRecOn generalizing pending with
  | nil =>
      rw [reading_nil] at h
      rw [List.foldl_cons, List.foldl_nil, feed]
      dsimp only
      rw [start, h]
  | append_singleton rest b ih =>
      rw [reading_append_singleton] at h
      obtain ⟨before, hbefore, hnext⟩ := exists_of_extend_eq_more h
      rw [← List.cons_append, List.foldl_append, ih hbefore, List.foldl_cons, List.foldl_nil, feed]
      dsimp only
      rw [hnext]

theorem foldl_feed_of_complete {first : UInt8} {rest : List UInt8} {c : Char}
    (h : reading first rest = .complete c) (out : List Char) :
    (first :: rest).foldl feed ⟨out, none⟩ = ⟨c :: out, none⟩ := by
  induction rest using List.reverseRecOn with
  | nil =>
      rw [reading_nil] at h
      rw [List.foldl_cons, List.foldl_nil, feed]
      dsimp only
      rw [start, h]
  | append_singleton rest b ih =>
      rw [reading_append_singleton] at h
      obtain ⟨before, hbefore, hnext⟩ := exists_of_extend_eq_complete h
      rw [← List.cons_append, List.foldl_append, foldl_feed_of_more hbefore, List.foldl_cons,
        List.foldl_nil, feed]
      dsimp only
      rw [hnext]

/-- From between two characters, the bytes of a character lead to behind it. -/
theorem foldl_feed_encodeChar (c : Char) (out : List Char) :
    (String.utf8EncodeChar c).foldl feed ⟨out, none⟩ = ⟨c :: out, none⟩ := by
  obtain ⟨first, rest, hbytes, hreading⟩ := exists_reading_encodeChar c
  rw [hbytes, foldl_feed_of_complete hreading]

theorem foldl_feed_encode (text : Text) (out : List Char) :
    (encode text).foldl feed ⟨out, none⟩ = ⟨text.reverse ++ out, none⟩ := by
  induction text generalizing out with
  | nil => rfl
  | cons c text ih =>
      rw [encode_cons, List.foldl_append, foldl_feed_encodeChar, ih]
      simp

end Decoder

/-! ### Texts -/

@[simp]
theorem decodeLossy_encode (text : Text) : decodeLossy (encode text) = text := by
  rw [decodeLossy, Decoder.foldl_feed_encode]
  simp [Decoder.finish]

@[simp]
theorem decode?_encode (text : Text) : decode? (encode text) = some text := by
  rw [decode?, decodeLossy_encode]
  exact if_pos rfl

end Text
end ByteEmbed
