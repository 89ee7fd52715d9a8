import ByteEmbed.Proofs.Text.Utf8

/-!
# Which bytes begin a character

Between two bytes of a character the reader remembers how many are owed, the range of the next
one and the bits so far.  Here this is tied to the characters themselves.  `Begun` holds of some
bytes and of what is remembered of them if every byte in the range, and every one in the ranges
after it, leads to a character that starts with these bytes.  It holds of the lead bytes by the
forms of a character, and one more byte keeps it.

So the reader is right about all bytes, whether or not they are a text:

* `reading_eq_complete_iff` - they are read as a character if they are its bytes;
* `exists_reading_eq_more_iff` - they are read to the inside of one if they begin one;
* `reading_eq_malformed_iff` - they are malformed if no character starts with them.

The first byte of a character never continues another, `not_beginsCharacter_append`, so a
character is found wherever it stands.
-/

namespace ByteEmbed
namespace Text

/-! ### The bytes of a code point -/

theorem toNat_val_ofNat {v : Nat} (h : v.isValidChar) : (Char.ofNat v).val.toNat = v := by
  rw [Char.ofNat, dif_pos h]
  rfl

theorem encodeChar_two {n m : Nat} (hlow : 2 ≤ n) (hn : n < 32) (hm : m < 64) :
    String.utf8EncodeChar (Char.ofNat (64 * n + m)) =
      [UInt8.ofNat (n + 192), UInt8.ofNat (m + 128)] := by
  have hvalue := toNat_val_ofNat (v := 64 * n + m) (.inl (by omega))
  have hhigh : (64 * n + m) / 64 % 32 = n := by omega
  have hsix : (64 * n + m) % 64 = m := by omega
  rw [String.utf8EncodeChar, hvalue, if_neg (by omega), if_pos (by omega), hhigh, hsix]

theorem encodeChar_three {n m k : Nat} (hn : n < 16) (hm : m < 64) (hk : k < 64)
    (hleast : n = 0 → 32 ≤ m) (hgreatest : n = 13 → m < 32) :
    String.utf8EncodeChar (Char.ofNat (64 * (64 * n + m) + k)) =
      [UInt8.ofNat (n + 224), UInt8.ofNat (m + 128), UInt8.ofNat (k + 128)] := by
  have hvalid : (64 * (64 * n + m) + k).isValidChar := by
    unfold Nat.isValidChar
    omega
  have hhigh : (64 * (64 * n + m) + k) / 4096 % 16 = n := by omega
  have hmiddle : (64 * (64 * n + m) + k) / 64 % 64 = m := by omega
  have hsix : (64 * (64 * n + m) + k) % 64 = k := by omega
  rw [String.utf8EncodeChar, toNat_val_ofNat hvalid, if_neg (by omega), if_neg (by omega),
    if_pos (by omega), hhigh, hmiddle, hsix]

theorem encodeChar_four {n m k l : Nat} (hn : n < 5) (hm : m < 64) (hk : k < 64) (hl : l < 64)
    (hleast : n = 0 → 16 ≤ m) (hgreatest : n = 4 → m < 16) :
    String.utf8EncodeChar (Char.ofNat (64 * (64 * (64 * n + m) + k) + l)) =
      [UInt8.ofNat (n + 240), UInt8.ofNat (m + 128), UInt8.ofNat (k + 128),
        UInt8.ofNat (l + 128)] := by
  have hvalid : (64 * (64 * (64 * n + m) + k) + l).isValidChar := by
    unfold Nat.isValidChar
    omega
  have hhigh : (64 * (64 * (64 * n + m) + k) + l) / 262144 % 8 = n := by omega
  have hupper : (64 * (64 * (64 * n + m) + k) + l) / 4096 % 64 = m := by omega
  have hlower : (64 * (64 * (64 * n + m) + k) + l) / 64 % 64 = k := by omega
  have hsix : (64 * (64 * (64 * n + m) + k) + l) % 64 = l := by omega
  rw [String.utf8EncodeChar, toNat_val_ofNat hvalid, if_neg (by omega), if_neg (by omega),
    if_neg (by omega), hhigh, hupper, hlower, hsix]

/-! ### Characters that have begun -/

/-- Whether a range of bytes is not empty and holds only bytes that continue a character. -/
def IsOpen (low high : UInt8) : Prop :=
  0x80 ≤ low ∧ low ≤ high ∧ high ≤ 0xBF

instance (low high : UInt8) : Decidable (IsOpen low high) :=
  inferInstanceAs (Decidable (_ ∧ _))

theorem IsOpen.bounds {low high : UInt8} (h : IsOpen low high) :
    128 ≤ low.toNat ∧ low.toNat ≤ high.toNat ∧ high.toNat ≤ 191 := by
  obtain ⟨hleast, hrange, hgreatest⟩ := h
  exact ⟨UInt8.le_iff_toNat_le.mp hleast, UInt8.le_iff_toNat_le.mp hrange,
    UInt8.le_iff_toNat_le.mp hgreatest⟩

theorem IsOpen.exists_tail {low high : UInt8} (h : IsOpen low high) :
    ∃ n < 64, low.toNat ≤ n + 128 ∧ n + 128 ≤ high.toNat := by
  have hbounds := h.bounds
  exact ⟨low.toNat - 128, by omega, by omega, by omega⟩

/-- Only a continuing byte goes on with a character. -/
theorem exists_tail_of_next {pending : Pending} (hopen : IsOpen pending.low pending.high)
    {b : UInt8} (h : pending.next b ≠ .malformed) :
    ∃ n < 64, b = UInt8.ofNat (n + 128) ∧ pending.low.toNat ≤ n + 128 ∧
      n + 128 ≤ pending.high.toNat := by
  have hrange : pending.low ≤ b ∧ b ≤ pending.high := by
    by_contra hout
    exact h (if_neg hout)
  rw [UInt8.le_iff_toNat_le, UInt8.le_iff_toNat_le] at hrange
  have hbounds := hopen.bounds
  have hvalue : b.toNat - 128 + 128 = b.toNat := by omega
  refine ⟨b.toNat - 128, by omega, ?_, by omega, by omega⟩
  rw [hvalue, UInt8.ofNat_toNat]

/-- The bytes of a character and what is remembered of them: whatever byte in the range comes
next, it completes a character of these bytes or is itself remembered with them. -/
inductive Begun : List UInt8 → Pending → Prop where
  | last {front : List UInt8} {low high : UInt8} {bits : Nat}
      (hopen : IsOpen low high)
      (h : ∀ n < 64, low.toNat ≤ n + 128 → n + 128 ≤ high.toNat →
        front ++ [UInt8.ofNat (n + 128)] = String.utf8EncodeChar (Char.ofNat (64 * bits + n))) :
      Begun front ⟨0, low, high, bits⟩
  | more {front : List UInt8} {owed : Nat} {low high : UInt8} {bits : Nat}
      (hopen : IsOpen low high)
      (h : ∀ n < 64, low.toNat ≤ n + 128 → n + 128 ≤ high.toNat →
        Begun (front ++ [UInt8.ofNat (n + 128)]) ⟨owed, 0x80, 0xBF, 64 * bits + n⟩) :
      Begun front ⟨owed + 1, low, high, bits⟩

namespace Begun

variable {front : List UInt8} {pending : Pending} {b : UInt8}

theorem isOpen (h : Begun front pending) : IsOpen pending.low pending.high := by
  cases h with
  | last hopen => exact hopen
  | more hopen => exact hopen

theorem append_eq_of_next {c : Char} (h : Begun front pending)
    (hnext : pending.next b = .complete c) :
    front ++ [b] = String.utf8EncodeChar c := by
  obtain ⟨n, hn, rfl, hlow, hhigh⟩ := exists_tail_of_next h.isOpen (b := b) (by simp [hnext])
  cases h with
  | last hopen hchar =>
      rw [next_tail hn hlow hhigh] at hnext
      rw [hchar n hn hlow hhigh]
      exact congrArg String.utf8EncodeChar (Reading.complete.inj hnext)
  | more hopen hmore =>
      rw [next_tail hn hlow hhigh] at hnext
      contradiction

theorem append_of_next {next : Pending} (h : Begun front pending)
    (hnext : pending.next b = .more next) : Begun (front ++ [b]) next := by
  obtain ⟨n, hn, rfl, hlow, hhigh⟩ := exists_tail_of_next h.isOpen (b := b) (by simp [hnext])
  cases h with
  | last hopen hchar =>
      rw [next_tail hn hlow hhigh] at hnext
      contradiction
  | more hopen hmore =>
      rw [next_tail hn hlow hhigh] at hnext
      exact Reading.more.inj hnext ▸ hmore n hn hlow hhigh

/-- What has begun can be completed. -/
theorem exists_encodeChar (h : Begun front pending) :
    ∃ c tail, String.utf8EncodeChar c = front ++ tail := by
  induction h with
  | last hopen hchar =>
      obtain ⟨n, hn, hlow, hhigh⟩ := hopen.exists_tail
      exact ⟨_, _, (hchar n hn hlow hhigh).symm⟩
  | more hopen _ ih =>
      obtain ⟨n, hn, hlow, hhigh⟩ := hopen.exists_tail
      obtain ⟨c, tail, hchar⟩ := ih n hn hlow hhigh
      exact ⟨c, _, by rw [hchar, List.append_assoc]⟩

end Begun

theorem isOpen_free : IsOpen 0x80 0xBF := by decide

theorem begun_two {n : Nat} (hlow : 2 ≤ n) (h : n < 32) :
    Begun [UInt8.ofNat (n + 192)] ⟨0, 0x80, 0xBF, n⟩ :=
  .last isOpen_free fun _ hm _ _ => (encodeChar_two hlow h hm).symm

theorem begun_three {n : Nat} (h : n < 16) :
    Begun [UInt8.ofNat (n + 224)]
      ⟨1, if n = 0 then 0xA0 else 0x80, if n = 13 then 0x9F else 0xBF, n⟩ := by
  have hopen : IsOpen (if n = 0 then 0xA0 else 0x80) (if n = 13 then 0x9F else 0xBF) := by
    revert n
    decide
  refine .more hopen fun m hm hlow hhigh => .last isOpen_free fun k hk _ _ => ?_
  refine (encodeChar_three h hm hk ?_ ?_).symm
  · rintro rfl
    have hbyte : 160 ≤ m + 128 := hlow
    omega
  · rintro rfl
    have hbyte : m + 128 ≤ 159 := hhigh
    omega

theorem begun_four {n : Nat} (h : n < 5) :
    Begun [UInt8.ofNat (n + 240)]
      ⟨2, if n = 0 then 0x90 else 0x80, if n = 4 then 0x8F else 0xBF, n⟩ := by
  have hopen : IsOpen (if n = 0 then 0x90 else 0x80) (if n = 4 then 0x8F else 0xBF) := by
    revert n
    decide
  refine .more hopen fun m hm hlow hhigh => .more isOpen_free fun k hk _ _ =>
    .last isOpen_free fun l hl _ _ => ?_
  refine (encodeChar_four h hm hk hl ?_ ?_).symm
  · rintro rfl
    have hbyte : 144 ≤ m + 128 := hlow
    omega
  · rintro rfl
    have hbyte : m + 128 ≤ 143 := hhigh
    omega

/-- A byte that continues a character begins none, and neither do the two bytes that would only
begin overlong forms. -/
theorem lead_continuing {n : Nat} (h : n < 66) : lead (UInt8.ofNat (n + 128)) = .malformed := by
  revert n
  decide

theorem lead_beyond {n : Nat} (h : n < 11) : lead (UInt8.ofNat (n + 245)) = .malformed := by
  revert n
  decide

/-- A byte is a character, begins one, or is malformed. -/
theorem lead_cases (b : UInt8) :
    (∃ n < 128, b = UInt8.ofNat n ∧ lead b = .complete (Char.ofNat n)) ∨
      (∃ pending, lead b = .more pending ∧ Begun [b] pending) ∨ lead b = .malformed := by
  obtain ⟨v, hv, rfl⟩ : ∃ v < 256, b = UInt8.ofNat v :=
    ⟨b.toNat, b.toNat_lt, UInt8.ofNat_toNat.symm⟩
  by_cases hone : v < 128
  · exact .inl ⟨v, hone, rfl, lead_one hone⟩
  refine .inr ?_
  by_cases hcontinuing : v < 194
  · obtain ⟨n, rfl⟩ := Nat.exists_eq_add_of_le' (m := 128) (n := v) (by omega)
    exact .inr (lead_continuing (by omega))
  by_cases htwo : v < 224
  · obtain ⟨n, rfl⟩ := Nat.exists_eq_add_of_le' (m := 192) (n := v) (by omega)
    exact .inl ⟨_, lead_two (by omega) (by omega), begun_two (by omega) (by omega)⟩
  by_cases hthree : v < 240
  · obtain ⟨n, rfl⟩ := Nat.exists_eq_add_of_le' (m := 224) (n := v) (by omega)
    exact .inl ⟨_, lead_three (by omega), begun_three (by omega)⟩
  by_cases hfour : v < 245
  · obtain ⟨n, rfl⟩ := Nat.exists_eq_add_of_le' (m := 240) (n := v) (by omega)
    exact .inl ⟨_, lead_four (by omega), begun_four (by omega)⟩
  · obtain ⟨n, rfl⟩ := Nat.exists_eq_add_of_le' (m := 245) (n := v) (by omega)
    exact .inr (lead_beyond (by omega))

/-! ### The verdict on some bytes -/

theorem begun_of_reading {first : UInt8} {rest : List UInt8} {pending : Pending}
    (h : reading first rest = .more pending) : Begun (first :: rest) pending := by
  induction rest using List.reverseRecOn generalizing pending with
  | nil =>
      rw [reading_nil] at h
      rcases lead_cases first with ⟨n, -, -, hone⟩ | ⟨other, hmore, hbegun⟩ | hmalformed
      · rw [hone] at h
        contradiction
      · rw [hmore] at h
        exact Reading.more.inj h ▸ hbegun
      · rw [hmalformed] at h
        contradiction
  | append_singleton rest b ih =>
      rw [reading_append_singleton] at h
      obtain ⟨before, hbefore, hnext⟩ := exists_of_extend_eq_more h
      exact (ih hbefore).append_of_next hnext

/-- Bytes are read as a character exactly if they are its bytes. -/
theorem reading_eq_complete_iff (first : UInt8) (rest : List UInt8) (c : Char) :
    reading first rest = .complete c ↔ first :: rest = String.utf8EncodeChar c := by
  constructor
  · intro h
    cases rest using List.reverseRecOn with
    | nil =>
        rw [reading_nil] at h
        rcases lead_cases first with ⟨n, hn, rfl, hone⟩ | ⟨other, hmore, -⟩ | hmalformed
        · rw [hone] at h
          obtain rfl := Reading.complete.inj h
          rw [String.utf8EncodeChar, toNat_val_ofNat (.inl (by omega)), if_pos (by omega)]
        · rw [hmore] at h
          contradiction
        · rw [hmalformed] at h
          contradiction
    | append_singleton rest b =>
        rw [reading_append_singleton] at h
        obtain ⟨before, hbefore, hnext⟩ := exists_of_extend_eq_complete h
        exact (begun_of_reading hbefore).append_eq_of_next hnext
  · intro h
    obtain ⟨other, tail, hbytes, hreading⟩ := exists_reading_encodeChar c
    obtain ⟨rfl, rfl⟩ := List.cons.inj (h.trans hbytes)
    exact hreading

/-- Whether some character starts with the given bytes. -/
def BeginsCharacter (bytes : List UInt8) : Prop :=
  ∃ c, bytes <+: String.utf8EncodeChar c

theorem beginsCharacter_encodeChar (c : Char) : BeginsCharacter (String.utf8EncodeChar c) :=
  ⟨c, List.prefix_refl _⟩

theorem BeginsCharacter.of_prefix {bytes front : List UInt8} (h : BeginsCharacter bytes)
    (hfront : front <+: bytes) : BeginsCharacter front := by
  obtain ⟨c, hc⟩ := h
  exact ⟨c, hfront.trans hc⟩

theorem foldl_extend_malformed (bytes : List UInt8) :
    bytes.foldl Reading.extend .malformed = .malformed := by
  induction bytes with
  | nil => rfl
  | cons b bytes ih => exact ih

/-- Bytes are malformed exactly if no character starts with them. -/
theorem reading_eq_malformed_iff (first : UInt8) (rest : List UInt8) :
    reading first rest = .malformed ↔ ¬ BeginsCharacter (first :: rest) := by
  constructor
  · rintro h ⟨c, tail, hc⟩
    have hreading := (reading_eq_complete_iff first (rest ++ tail) c).mpr hc
    rw [reading_append, h, foldl_extend_malformed] at hreading
    contradiction
  · intro h
    cases hreading : reading first rest with
    | complete c =>
        rw [reading_eq_complete_iff] at hreading
        exact absurd (hreading ▸ beginsCharacter_encodeChar c) h
    | more pending =>
        obtain ⟨c, tail, hc⟩ := (begun_of_reading hreading).exists_encodeChar
        exact absurd ⟨c, tail, hc.symm⟩ h
    | malformed => rfl

/-- Bytes are read to somewhere inside of a character exactly if they begin one and are none. -/
theorem exists_reading_eq_more_iff (first : UInt8) (rest : List UInt8) :
    (∃ pending, reading first rest = .more pending) ↔
      BeginsCharacter (first :: rest) ∧ ∀ c, first :: rest ≠ String.utf8EncodeChar c := by
  cases hreading : reading first rest with
  | complete c =>
      have hwhole := (reading_eq_complete_iff first rest c).mp hreading
      simp [hwhole]
  | more pending =>
      refine ⟨fun _ => ⟨?_, ?_⟩, fun _ => ⟨pending, rfl⟩⟩
      · by_contra hbegins
        rw [(reading_eq_malformed_iff first rest).mpr hbegins] at hreading
        contradiction
      · intro c hwhole
        rw [(reading_eq_complete_iff first rest c).mpr hwhole] at hreading
        contradiction
  | malformed =>
      have hbegins := (reading_eq_malformed_iff first rest).mp hreading
      simp [hbegins]

/-- The first byte of a character never continues another. -/
theorem not_beginsCharacter_append {front : List UInt8} {b : UInt8} (hne : front ≠ [])
    (hb : BeginsCharacter [b]) : ¬ BeginsCharacter (front ++ [b]) := by
  cases front with
  | nil => contradiction
  | cons first rest =>
      rw [List.cons_append, ← reading_eq_malformed_iff, reading_append_singleton]
      cases hreading : reading first rest with
      | more pending =>
          by_contra hnext
          obtain ⟨n, hn, rfl, -⟩ := exists_tail_of_next (begun_of_reading hreading).isOpen hnext
          have hlead : reading (UInt8.ofNat (n + 128)) [] = .malformed := lead_continuing (by omega)
          exact (reading_eq_malformed_iff _ _).mp hlead hb
      | complete c => rfl
      | malformed => rfl

end Text
end ByteEmbed
