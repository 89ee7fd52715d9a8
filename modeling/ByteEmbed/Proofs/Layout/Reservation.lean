import ByteEmbed.Proofs.Layout.Offset
import Mathlib.Algebra.Group.Nat.Defs

/-!
# Room for a declaration

A rendering is written piece by piece into a buffer for which room is made before.  The estimate of
that room counts a newline for every full row and one more, while the rows that are written end in
one newline each.  The two differ by one if the last row is full, or if there is none, and agree if
it is short: `reservation_eq`.  So the buffer is never short of room, at no piece of the rendering.

The estimate itself is computed in words of some number of bits.  All its products and partial sums
are bounded by its result, and the result exceeds the size of the text by one at most: where the
text takes less than half of what a word can count, nothing overflows.

The main statement is `render_fits_reservation`.
-/

namespace ByteEmbed

/-! ### Buffers that grow -/

/-- Text in memory, the room for it in bytes, and how often room had to be made for more. -/
structure Buffer where
  text : Text := []
  capacity : Nat := 0
  growths : Nat := 0
  deriving DecidableEq, Repr

namespace Buffer

/-- Appends a piece.  Where it does not fit, the buffer grows to twice its capacity, or further. -/
def push (buffer : Buffer) (piece : Text) : Buffer :=
  let text := buffer.text ++ piece
  if Text.byteLength text ≤ buffer.capacity then { buffer with text }
  else ⟨text, max (max (2 * buffer.capacity) (Text.byteLength text)) 8, buffer.growths + 1⟩

theorem push_of_le {buffer : Buffer} {piece : Text}
    (h : Text.byteLength (buffer.text ++ piece) ≤ buffer.capacity) :
    buffer.push piece = { buffer with text := buffer.text ++ piece } :=
  if_pos h

/-- A buffer with room for all pieces takes them without growing. -/
theorem foldl_push_of_le {buffer : Buffer} {pieces : List Text}
    (h : Text.byteLength (buffer.text ++ pieces.flatten) ≤ buffer.capacity) :
    pieces.foldl push buffer = { buffer with text := buffer.text ++ pieces.flatten } := by
  induction pieces generalizing buffer with
  | nil => simp
  | cons piece pieces ih =>
      rw [List.flatten_cons, ← List.append_assoc] at h
      have hpiece : Text.byteLength (buffer.text ++ piece) ≤ buffer.capacity := by
        rw [Text.byteLength_append] at h
        omega
      rw [List.foldl_cons, push_of_le hpiece, ih h, List.flatten_cons, List.append_assoc]

end Buffer

namespace Declaration

/-! ### The pieces of a rendering -/

/-- The pieces of a literal, in the order in which they are written. -/
def literalPieces (value : UInt8) : List Text :=
  ["0x".toList, [Literal.digit (value.toNat / 16)], [Literal.digit (value.toNat % 16)], [',']]

/-- The pieces of a row. -/
def rowPieces (row : List UInt8) : List Text :=
  row.zipIdx.flatMap (fun one =>
    [if one.2 = 0 then '\t' else ' '] :: literalPieces one.1) ++ [['\n']]

/-- The pieces of a rendering. -/
def pieces (d : Declaration) : List Text :=
  [headerPrefix, d.name, headerSuffix] ++ (rows d.bytes).flatMap rowPieces ++ [terminator]

theorem flatten_literalPieces (value : UInt8) :
    (literalPieces value).flatten = (Token.ofByte value).text := by
  rw [Token.text_ofByte]
  rfl

/-- Behind the first byte of a row, every separator is a space. -/
theorem flatten_flatMap_zipIdx (row : List UInt8) (i : Nat) :
    ((row.zipIdx (i + 1)).flatMap fun one =>
        [if one.2 = 0 then '\t' else ' '] :: literalPieces one.1).flatten =
      row.flatMap fun value => ' ' :: (Token.ofByte value).text := by
  induction row generalizing i with
  | nil => rfl
  | cons value row ih =>
      rw [List.zipIdx_cons, List.flatMap_cons, List.flatten_append, ih, List.flatMap_cons,
        List.flatten_cons, flatten_literalPieces, if_neg (Nat.succ_ne_zero i)]
      rfl

theorem flatten_rowPieces {row : List UInt8} (hne : row ≠ []) :
    (rowPieces row).flatten = rowText row := by
  cases row with
  | nil => contradiction
  | cons value row =>
      rw [rowPieces, List.zipIdx_cons, List.flatMap_cons, List.flatten_append, List.flatten_append,
        flatten_flatMap_zipIdx, List.flatten_cons, flatten_literalPieces, rowText_eq, rowLine_cons]
      rfl

theorem flatten_pieces (d : Declaration) : (pieces d).flatten = render d := by
  have hrows : ∀ row ∈ rows d.bytes, (rowPieces row).flatten = rowText row := by
    intro row hrow
    rw [rows_eq_map_range] at hrow
    obtain ⟨k, hk, rfl⟩ := List.mem_map.mp hrow
    exact flatten_rowPieces (rowAt_ne_nil (List.mem_range.mp hk))
  have hbody : ((rows d.bytes).flatMap rowPieces).flatten = body d.bytes := by
    rw [body, List.flatMap_def, List.flatMap_def, List.flatten_flatten, List.map_map]
    exact congrArg List.flatten (List.map_congr_left hrows)
  rw [pieces, List.flatten_append, List.flatten_append, hbody, render, header]
  simp

/-! ### The estimate in words -/

/-- A number that a word of so many bits holds. -/
def inWord? (bits value : Nat) : Option Nat :=
  if value < 2 ^ bits then some value else none

theorem inWord?_of_lt {bits value : Nat} (h : value < 2 ^ bits) :
    inWord? bits value = some value :=
  if_pos h

/-- The estimate of the room, with every product and every sum in a word. -/
def reservationInWord? (bits : Nat) (d : Declaration) : Option Nat := do
  let named ← inWord? bits (headerPrefix.byteLength + d.name.byteLength)
  let headed ← inWord? bits (named + headerSuffix.byteLength)
  let literals ← inWord? bits (d.bytes.length * 6)
  let spelled ← inWord? bits (headed + literals)
  let lined ← inWord? bits (spelled + d.bytes.length / rowWidth)
  let ended ← inWord? bits (lined + 1)
  inWord? bits (ended + terminator.byteLength)

/-- The products and sums are all bounded by the last of them. -/
theorem reservationInWord?_of_lt {bits : Nat} {d : Declaration} (h : reservation d < 2 ^ bits) :
    reservationInWord? bits d = some (reservation d) := by
  unfold reservationInWord?
  unfold reservation at h ⊢
  generalize d.bytes.length / rowWidth = fullRows at h ⊢
  simp (disch := omega) only [inWord?_of_lt, Option.bind_eq_bind, Option.bind_some]

/-- The estimate is one more than the size if all rows are full, and the size otherwise. -/
theorem reservation_eq (name : Text) (bytes : List UInt8) :
    reservation ⟨name, bytes⟩ =
      Text.byteLength (render ⟨name, bytes⟩) + if 8 ∣ bytes.length then 1 else 0 := by
  rw [byteLength_render, reservation, byteLength_headerPrefix, byteLength_headerSuffix,
    byteLength_terminator, rowWidth]
  dsimp only
  split
  · omega
  · omega

/-- A rendering takes 25 bytes and the name, six for each byte, and a newline for every row.  The
estimate is one more than that if the last row is full or there is none, and no less in any case;
so a buffer with at least that room never grows, whichever pieces of the rendering have been
written.  If half of what a word counts exceeds the size, no product and no sum of the estimate
overflows. -/
theorem render_fits_reservation (name : Text) (bytes : List UInt8) :
    Text.byteLength (render ⟨name, bytes⟩) =
        25 + Text.byteLength name + 6 * bytes.length + (bytes.length + 7) / 8 ∧
      reservation ⟨name, bytes⟩ =
        Text.byteLength (render ⟨name, bytes⟩) + (if 8 ∣ bytes.length then 1 else 0) ∧
      (pieces ⟨name, bytes⟩).flatten = render ⟨name, bytes⟩ ∧
      (∀ capacity written, reservation ⟨name, bytes⟩ ≤ capacity →
        written <+: pieces ⟨name, bytes⟩ →
          written.foldl Buffer.push { capacity } = { text := written.flatten, capacity }) ∧
      ∀ bits, Text.byteLength (render ⟨name, bytes⟩) ≤ 2 ^ (bits - 1) - 1 →
        reservationInWord? bits ⟨name, bytes⟩ = some (reservation ⟨name, bytes⟩) := by
  have hreservation := reservation_eq name bytes
  refine ⟨byteLength_render name bytes, hreservation, flatten_pieces _, ?_, ?_⟩
  · rintro capacity written hroom ⟨rest, hrest⟩
    have hsize : Text.byteLength written.flatten ≤ Text.byteLength (render ⟨name, bytes⟩) := by
      rw [← flatten_pieces, ← hrest, List.flatten_append, Text.byteLength_append]
      omega
    have hfits : Text.byteLength ([] ++ written.flatten) ≤ capacity := by
      rw [List.nil_append]
      omega
    exact Buffer.foldl_push_of_le hfits
  · intro bits hbits
    apply reservationInWord?_of_lt
    have hlength := byteLength_render name bytes
    cases bits with
    | zero => omega
    | succ bits =>
        rw [Nat.add_sub_cancel] at hbits
        rw [Nat.pow_succ]
        split at hreservation <;> omega

/-- A full row behind a name of two bytes: 76 bytes of text, for which 77 are estimated. -/
theorem render_fits_reservation_full_row :
    let d : Declaration := ⟨['é'], [0, 1, 2, 3, 4, 5, 6, 7]⟩
    (reservation d ≤ 77 ∧ [headerPrefix, ['é']] <+: pieces d ∧
        [headerPrefix, ['é']].foldl Buffer.push { capacity := 77 } =
          { text := "static uint8_t é".toList, capacity := 77 }) ∧
      Text.byteLength (render d) ≤ 2 ^ (8 - 1) - 1 ∧ reservationInWord? 8 d = some 77 := by
  intro d
  obtain ⟨hlength, hreservation, -, hpush, hword⟩ :=
    render_fits_reservation ['é'] [0, 1, 2, 3, 4, 5, 6, 7]
  have hsize : Text.byteLength (render d) = 76 := hlength
  have hroom : reservation d = 77 := by
    rw [hreservation, hlength]
    decide
  have hwritten : [headerPrefix, ['é']] <+: pieces d := by
    rw [pieces, List.append_assoc]
    exact ⟨headerSuffix :: _, rfl⟩
  have hfits : Text.byteLength (render d) ≤ 2 ^ (8 - 1) - 1 := by
    rw [hsize]
    decide
  refine ⟨⟨Nat.le_of_eq hroom, hwritten, ?_⟩, hfits, ?_⟩
  · rw [hpush 77 _ (Nat.le_of_eq hroom) hwritten]
    decide
  · rw [hword 8 hfits]
    exact congrArg some hroom

end Declaration
end ByteEmbed
