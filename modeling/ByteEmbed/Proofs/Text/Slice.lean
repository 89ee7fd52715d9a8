import ByteEmbed.Text.Basic
import Mathlib.Data.List.Infix

/-!
# Slices of a text at byte offsets

Offsets count bytes, so not every offset lies between two characters.  A slice has two such
offsets, in order, and there is none where one of them lies inside of a character or past the end:
`exists_slice?_iff` says when there is one, and `slice?_eq_some_iff` what it is.
-/

namespace ByteEmbed
namespace Text

/-- Whether a byte offset into a text lies between two characters, or at an end of it. -/
def IsBoundary (text : Text) (offset : Nat) : Prop :=
  ∃ front, front <+: text ∧ byteLength front = offset

/-- Whether two byte offsets into a text are in order, within it and between characters. -/
structure InBounds (text : Text) (start stop : Nat) : Prop where
  start_le_stop : start ≤ stop
  stop_le : stop ≤ byteLength text
  isBoundary_start : IsBoundary text start
  isBoundary_stop : IsBoundary text stop

/-- Splits a text behind some number of bytes. -/
def splitBytes? : Nat → Text → Option (Text × Text)
  | 0, text => some ([], text)
  | _ + 1, [] => none
  | size + 1, c :: rest =>
      if c.utf8Size ≤ size + 1 then
        (splitBytes? (size + 1 - c.utf8Size) rest).map fun split => (c :: split.1, split.2)
      else none

/-- The part of a text between two byte offsets. -/
def slice? (text : Text) (start stop : Nat) : Option Text :=
  if stop < start then none
  else
    (splitBytes? start text).bind fun split =>
      (splitBytes? (stop - start) split.2).map Prod.fst

theorem byteLength_eq_zero_iff (text : Text) : byteLength text = 0 ↔ text = [] := by
  cases text with
  | nil => simp
  | cons c text =>
      have hsize := c.utf8Size_pos
      simp
      omega

theorem splitBytes?_eq_some_iff (size : Nat) (text front back : Text) :
    splitBytes? size text = some (front, back) ↔
      text = front ++ back ∧ byteLength front = size := by
  fun_induction splitBytes? size text generalizing front with
  | case1 text =>
      rw [byteLength_eq_zero_iff]
      constructor
      · rintro h
        obtain ⟨rfl, rfl⟩ := Prod.mk.inj (Option.some.inj h)
        exact ⟨rfl, rfl⟩
      · rintro ⟨rfl, rfl⟩
        rfl
  | case2 size =>
      constructor
      · intro h
        contradiction
      · rintro ⟨h, hsize⟩
        obtain ⟨rfl, rfl⟩ := List.append_eq_nil_iff.mp h.symm
        contradiction
  | case3 size c rest hfits ih =>
      rw [Option.map_eq_some_iff]
      constructor
      · rintro ⟨⟨inner, behind⟩, hsplit, h⟩
        obtain ⟨rfl, rfl⟩ := Prod.mk.inj h
        obtain ⟨rfl, hsize⟩ := (ih inner).mp hsplit
        refine ⟨rfl, ?_⟩
        rw [byteLength_cons, hsize]
        omega
      · rintro ⟨h, hsize⟩
        cases front with
        | nil => contradiction
        | cons d front =>
            obtain ⟨rfl, rfl⟩ := List.cons.inj h
            rw [byteLength_cons] at hsize
            exact ⟨(front, back), (ih front).mpr ⟨rfl, by omega⟩, rfl⟩
  | case4 size c rest hfits =>
      constructor
      · intro h
        contradiction
      · rintro ⟨h, hsize⟩
        cases front with
        | nil => contradiction
        | cons d front =>
            obtain ⟨rfl, rfl⟩ := List.cons.inj h
            rw [byteLength_cons] at hsize
            omega

/-- A slice is the part of the text whose front ends at the one offset and which ends at the
other. -/
theorem slice?_eq_some_iff (text slice : Text) (start stop : Nat) :
    slice? text start stop = some slice ↔
      ∃ front back, text = front ++ slice ++ back ∧ byteLength front = start ∧
        start + byteLength slice = stop := by
  unfold slice?
  split
  · next hlt =>
      constructor
      · intro h
        contradiction
      · rintro ⟨-, -, -, -, hstop⟩
        omega
  · next hle =>
      constructor
      · intro h
        obtain ⟨⟨front, behind⟩, hfront, h⟩ := Option.bind_eq_some_iff.mp h
        obtain ⟨⟨inner, back⟩, hinner, rfl⟩ := Option.map_eq_some_iff.mp h
        obtain ⟨rfl, hstart⟩ := (splitBytes?_eq_some_iff _ _ _ _).mp hfront
        obtain ⟨rfl, hsize⟩ := (splitBytes?_eq_some_iff _ _ _ _).mp hinner
        refine ⟨front, back, (List.append_assoc _ _ _).symm, hstart, ?_⟩
        rw [hsize]
        omega
      · rintro ⟨front, back, rfl, hstart, hstop⟩
        have hfront : splitBytes? start (front ++ slice ++ back) = some (front, slice ++ back) :=
          (splitBytes?_eq_some_iff _ _ _ _).mpr ⟨List.append_assoc _ _ _, hstart⟩
        have hslice : splitBytes? (stop - start) (slice ++ back) = some (slice, back) :=
          (splitBytes?_eq_some_iff _ _ _ _).mpr ⟨rfl, by omega⟩
        rw [hfront, Option.bind_some, hslice, Option.map_some]

theorem slice?_append (front slice back : Text) :
    slice? (front ++ slice ++ back) (byteLength front) (byteLength front + byteLength slice) =
      some slice :=
  (slice?_eq_some_iff _ _ _ _).mpr ⟨front, back, rfl, rfl, rfl⟩

theorem inBounds_append (front slice back : Text) :
    InBounds (front ++ slice ++ back) (byteLength front)
      (byteLength front + byteLength slice) := by
  refine ⟨Nat.le_add_right _ _, ?_, ⟨front, ?_, rfl⟩, ⟨front ++ slice, ?_, byteLength_append _ _⟩⟩
  · rw [byteLength_append, byteLength_append]
    exact Nat.le_add_right _ _
  · rw [List.append_assoc]
    exact List.prefix_append _ _
  · exact List.prefix_append _ _

/-- There is a slice exactly between offsets that are in bounds. -/
theorem exists_slice?_iff (text : Text) (start stop : Nat) :
    (∃ slice, slice? text start stop = some slice) ↔ InBounds text start stop := by
  constructor
  · rintro ⟨slice, h⟩
    obtain ⟨front, back, rfl, rfl, rfl⟩ := (slice?_eq_some_iff _ _ _ _).mp h
    exact inBounds_append front slice back
  · rintro ⟨hle, -, ⟨front, hfront, rfl⟩, ⟨long, ⟨back, rfl⟩, rfl⟩⟩
    -- The front that ends at the first offset begins the one that ends at the second.
    obtain ⟨slice, rfl⟩ : front <+: long := by
      rcases List.prefix_or_prefix_of_prefix hfront (List.prefix_append long back) with h | h
      · exact h
      · obtain ⟨tail, rfl⟩ := h
        rw [byteLength_append] at hle
        obtain rfl := (byteLength_eq_zero_iff tail).mp (by omega)
        rw [List.append_nil]
    rw [byteLength_append]
    exact ⟨slice, slice?_append front slice back⟩

end Text
end ByteEmbed
