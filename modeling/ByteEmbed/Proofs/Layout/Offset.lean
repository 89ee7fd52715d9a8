import ByteEmbed.Proofs.Layout.Position

/-!
# Where a byte stands in a declaration

Every cell takes six bytes, and one more if it ends a row.  So the cell of a byte begins at an
offset that can be computed from the length of the name and from the position of the byte, and
`render_eq_append_cell` splits a rendering there.  As no cell depends on a byte but its own,
declarations of the same name and as many bytes differ where the digits of their bytes differ,
and nowhere else.

The main statement is `render_at_cellStart`.  `exists_cell_of_lt` is what its second half rests
on: between the two outer lines every offset lies in a cell or behind the last one.
-/

namespace ByteEmbed
namespace Declaration

/-- The offset at which the cell of a byte begins, given the name and the position. -/
def cellStart (name : Text) (i : Nat) : Nat :=
  22 + Text.byteLength name + 6 * i + i / 8

/-- The byte that encodes a digit. -/
def digitByte (d : Fin 16) : UInt8 :=
  (Token.digit d).toNat.toUInt8

theorem encodeChar_digit (d : Fin 16) : String.utf8EncodeChar (Token.digit d) = [digitByte d] := by
  revert d
  decide

theorem digitByte_injective : Function.Injective digitByte := by
  unfold Function.Injective
  decide

/-! ### One cell -/

/-- The byte that encodes a separator. -/
def separatorByteAt (i : Nat) : UInt8 :=
  if i % 8 = 0 then 0x09 else 0x20

theorem encode_cell (i : Nat) (value : UInt8) :
    Text.encode (cell i value) =
      Text.encode (separatorAt i :: (Token.ofByte value).text) ++ Text.encode (rowEndAt i) := by
  rw [cell, Text.encode_append]

theorem encode_separated_literal (i : Nat) (high low : Fin 16) :
    Text.encode (separatorAt i :: (Token.literal high low).text) =
      [separatorByteAt i, 0x30, 0x78, digitByte high, digitByte low, 0x2C] := by
  have hseparator : String.utf8EncodeChar (separatorAt i) = [separatorByteAt i] := by
    unfold separatorAt separatorByteAt
    split <;> rfl
  have hzero : String.utf8EncodeChar '0' = [0x30] := rfl
  have hx : String.utf8EncodeChar 'x' = [0x78] := rfl
  have hcomma : String.utf8EncodeChar ',' = [0x2C] := rfl
  simp [Token.text, hseparator, hzero, hx, hcomma, encodeChar_digit]

theorem byteLength_rowEndAt (i : Nat) :
    Text.byteLength (rowEndAt i) = if i % 8 = 7 then 1 else 0 := by
  unfold rowEndAt
  split <;> rfl

theorem byteLength_separated_literal (i : Nat) (value : UInt8) :
    Text.byteLength (separatorAt i :: (Token.ofByte value).text) = 6 := by
  rw [← Text.length_encode, Token.ofByte, encode_separated_literal]
  rfl

theorem byteLength_cell (i : Nat) (value : UInt8) :
    Text.byteLength (cell i value) = 6 + if i % 8 = 7 then 1 else 0 := by
  rw [cell, Text.byteLength_append, byteLength_separated_literal, byteLength_rowEndAt]

/-- Two cells of one position differ in the digits of the bytes. -/
theorem getElem?_encode_cell_ne_iff (i j : Nat) (value other : UInt8) :
    (Text.encode (cell i value))[j]? ≠ (Text.encode (cell i other))[j]? ↔
      (j = 3 ∧ value.toNat / 16 ≠ other.toNat / 16) ∨
        (j = 4 ∧ value.toNat % 16 ≠ other.toNat % 16) := by
  rw [encode_cell, encode_cell, Token.ofByte, Token.ofByte, encode_separated_literal,
    encode_separated_literal]
  rcases j with _ | _ | _ | _ | _ | j
  · simp
  · simp
  · simp
  · simp [digitByte_injective.eq_iff]
  · simp [digitByte_injective.eq_iff]
  · simp

/-! ### All cells -/

/-- Cells take six bytes each, and every eighth one more. -/
theorem byteLength_cells (bytes : List UInt8) :
    Text.byteLength (cells 0 bytes) = 6 * bytes.length + bytes.length / 8 := by
  induction bytes using List.reverseRecOn with
  | nil => rfl
  | append_singleton bytes value ih =>
      rw [cells_append, Text.byteLength_append, ih, cells_cons, cells_nil, List.append_nil,
        byteLength_cell, List.length_append, List.length_singleton]
      split <;> omega

theorem byteLength_before_cell (name : Text) {bytes : List UInt8} {i : Nat}
    (h : i ≤ bytes.length) :
    Text.byteLength (header name ++ cells 0 (bytes.take i)) = cellStart name i := by
  rw [Text.byteLength_append, byteLength_header, byteLength_cells, List.length_take_of_le h,
    cellStart, Nat.add_assoc (22 + Text.byteLength name)]

/-- What is written behind the cell of a byte. -/
def afterCell (bytes : List UInt8) (i : Nat) : Text :=
  cells (i + 1) (bytes.drop (i + 1)) ++ shortRowEnd bytes.length ++ terminator

/-- A rendering, split at the cell of one of its bytes. -/
theorem render_eq_append_cell (name : Text) {bytes : List UInt8} {i : Nat}
    (h : i < bytes.length) :
    render ⟨name, bytes⟩ =
      header name ++ cells 0 (bytes.take i) ++ (cell i bytes[i] ++ afterCell bytes i) := by
  have hcells : cells 0 bytes = cells 0 (bytes.take i) ++ cells i (bytes.drop i) := by
    conv_lhs => rw [← List.take_append_drop i bytes]
    rw [cells_append, List.length_take_of_le (Nat.le_of_lt h), Nat.zero_add]
  rw [render_eq_cells, hcells, List.drop_eq_getElem_cons h, cells_cons, afterCell]
  simp only [List.append_assoc]

theorem drop_cellStart (name : Text) {bytes : List UInt8} {i : Nat} (h : i < bytes.length) :
    (render ⟨name, bytes⟩).encode.drop (cellStart name i) =
      Text.encode (cell i bytes[i]) ++ Text.encode (afterCell bytes i) := by
  have hfront := byteLength_before_cell name (Nat.le_of_lt h)
  rw [← Text.length_encode] at hfront
  rw [render_eq_append_cell name h, Text.encode_append, List.drop_left' hfront, Text.encode_append]

/-- Behind a cell that does not end its row stands the newline of a short row if the byte is
the last, and otherwise the separator of the next. -/
theorem head?_encode_afterCell {bytes : List UInt8} {i : Nat} (h : i < bytes.length)
    (hrow : i % 8 ≠ 7) :
    (Text.encode (afterCell bytes i)).head? =
      some (if i + 1 = bytes.length then 0x0A else 0x20) := by
  have hnext : (i + 1) % 8 ≠ 0 := by omega
  rw [afterCell]
  split
  · next hlast =>
      rw [List.drop_eq_nil_of_le (Nat.le_of_eq hlast.symm), cells_nil, ← hlast, shortRowEnd,
        if_neg hnext]
      rfl
  · next hlast =>
      have hspace : separatorAt (i + 1) = ' ' := if_neg hnext
      rw [List.drop_eq_getElem_cons (by omega), cells_cons, cell, hspace]
      rfl

theorem getElem?_behind_cell (name : Text) {bytes : List UInt8} {i : Nat} (h : i < bytes.length) :
    (render ⟨name, bytes⟩).encode[cellStart name i + 6]? =
      some (if i % 8 = 7 ∨ i + 1 = bytes.length then 0x0A else 0x20) := by
  have hlength : (Text.encode (separatorAt i :: (Token.ofByte bytes[i]).text)).length = 6 := by
    rw [Text.length_encode, byteLength_separated_literal]
  rw [← List.getElem?_drop, drop_cellStart name h, encode_cell, List.append_assoc,
    List.getElem?_append_right (Nat.le_of_eq hlength), hlength, Nat.sub_self,
    ← List.head?_eq_getElem?]
  by_cases hrow : i % 8 = 7
  · rw [if_pos (.inl hrow), rowEndAt, if_pos hrow]
    rfl
  · rw [rowEndAt, if_neg hrow, Text.encode_nil, List.nil_append, head?_encode_afterCell h hrow]
    simp only [hrow, false_or]

/-! ### Every offset -/

/-- Where the cells stand, every offset lies in one of them. -/
theorem exists_cell_of_lt {count offset : Nat} (h : offset < 6 * count + count / 8) :
    ∃ i < count, ∃ j < 6 + (if i % 8 = 7 then 1 else 0), offset = 6 * i + i / 8 + j := by
  induction count with
  | zero => omega
  | succ count ih =>
      by_cases hbefore : offset < 6 * count + count / 8
      · obtain ⟨i, hi, hcell⟩ := ih hbefore
        exact ⟨i, Nat.lt_succ_of_lt hi, hcell⟩
      · refine ⟨count, Nat.lt_succ_self count, offset - (6 * count + count / 8), ?_, by omega⟩
        split <;> omega

theorem getElem?_in_cell (name : Text) {bytes : List UInt8} {i j : Nat} (h : i < bytes.length)
    (hj : j < 6 + if i % 8 = 7 then 1 else 0) :
    (render ⟨name, bytes⟩).encode[cellStart name i + j]? = (Text.encode (cell i bytes[i]))[j]? := by
  rw [← byteLength_cell i bytes[i], ← Text.length_encode] at hj
  rw [← List.getElem?_drop, drop_cellStart name h, List.getElem?_append_left hj]

theorem byteLength_shortRowEnd (count : Nat) :
    Text.byteLength (shortRowEnd count) = if count % 8 = 0 then 0 else 1 := by
  unfold shortRowEnd
  split <;> rfl

theorem byteLength_render (name : Text) (bytes : List UInt8) :
    Text.byteLength (render ⟨name, bytes⟩) =
      25 + Text.byteLength name + 6 * bytes.length + (bytes.length + 7) / 8 := by
  rw [render_eq_cells, Text.byteLength_append, Text.byteLength_append, Text.byteLength_append,
    byteLength_header, byteLength_cells, byteLength_shortRowEnd, byteLength_terminator]
  split <;> omega

variable {bytes others : List UInt8}

theorem getElem?_before_cells (name : Text) (bytes : List UInt8) {offset : Nat}
    (h : offset < cellStart name 0) :
    (render ⟨name, bytes⟩).encode[offset]? = (Text.encode (header name))[offset]? := by
  have hheader : offset < (Text.encode (header name)).length := by
    rw [Text.length_encode, byteLength_header]
    simpa [cellStart] using h
  rw [render, List.append_assoc, Text.encode_append, List.getElem?_append_left hheader]

theorem getElem?_behind_cells (name : Text) (bytes : List UInt8) {offset : Nat}
    (h : cellStart name bytes.length ≤ offset) :
    (render ⟨name, bytes⟩).encode[offset]? =
      (Text.encode (shortRowEnd bytes.length ++ terminator))[
        offset - cellStart name bytes.length]? := by
  have hcells := byteLength_before_cell name (Nat.le_refl bytes.length)
  rw [List.take_length, ← Text.length_encode] at hcells
  rw [render_eq_cells, Text.encode_append, List.getElem?_append_right (by omega), hcells]

/-- Outside the cells, declarations of the same name and as many bytes are the same. -/
theorem getElem?_outside_cells (name : Text) (hlength : others.length = bytes.length)
    {offset : Nat} (h : offset < cellStart name 0 ∨ cellStart name bytes.length ≤ offset) :
    (render ⟨name, bytes⟩).encode[offset]? = (render ⟨name, others⟩).encode[offset]? := by
  rcases h with hbefore | hbehind
  · rw [getElem?_before_cells name bytes hbefore, getElem?_before_cells name others hbefore]
  · have hothers : cellStart name others.length ≤ offset := by
      rwa [hlength]
    rw [getElem?_behind_cells name bytes hbehind, getElem?_behind_cells name others hothers,
      hlength]

/-- Declarations of the same name and as many bytes differ in the digits in which their bytes
differ, and nowhere else. -/
theorem getElem?_encode_render_ne_iff (name : Text) (hlength : others.length = bytes.length)
    (offset : Nat) :
    (render ⟨name, bytes⟩).encode[offset]? ≠ (render ⟨name, others⟩).encode[offset]? ↔
      ∃ (i : Nat) (h : i < bytes.length) (h' : i < others.length),
        (offset = cellStart name i + 3 ∧ bytes[i].toNat / 16 ≠ others[i].toNat / 16) ∨
          (offset = cellStart name i + 4 ∧ bytes[i].toNat % 16 ≠ others[i].toNat % 16) := by
  constructor
  · intro hne
    -- The offset lies in a cell, since outside of the cells nothing differs.
    have hinside : cellStart name 0 ≤ offset ∧ offset < cellStart name bytes.length := by
      by_contra hout
      exact hne (getElem?_outside_cells name hlength (by omega))
    obtain ⟨i, hi, j, hj, hoffset⟩ : ∃ i < bytes.length,
        ∃ j < 6 + (if i % 8 = 7 then 1 else 0), offset = cellStart name i + j := by
      simp only [cellStart] at hinside ⊢
      have hcells : offset - (22 + Text.byteLength name) < 6 * bytes.length + bytes.length / 8 := by
        omega
      obtain ⟨i, hi, j, hj, hoffset⟩ := exists_cell_of_lt hcells
      exact ⟨i, hi, j, hj, by omega⟩
    have hi' : i < others.length := hlength ▸ hi
    rw [hoffset, getElem?_in_cell name hi hj, getElem?_in_cell name hi' hj,
      getElem?_encode_cell_ne_iff] at hne
    refine ⟨i, hi, hi', ?_⟩
    rcases hne with ⟨rfl, hdigit⟩ | ⟨rfl, hdigit⟩
    · exact .inl ⟨hoffset, hdigit⟩
    · exact .inr ⟨hoffset, hdigit⟩
  · rintro ⟨i, hi, hi', hdigit⟩
    have hcell : ∀ j < 6, offset = cellStart name i + j →
        ((render ⟨name, bytes⟩).encode[offset]? ≠ (render ⟨name, others⟩).encode[offset]? ↔
          (Text.encode (cell i bytes[i]))[j]? ≠ (Text.encode (cell i others[i]))[j]?) := by
      rintro j hj rfl
      rw [getElem?_in_cell name hi (by omega), getElem?_in_cell name hi' (by omega)]
    rcases hdigit with ⟨hoffset, hhigh⟩ | ⟨hoffset, hlow⟩
    · rw [hcell 3 (by omega) hoffset, getElem?_encode_cell_ne_iff]
      exact .inl ⟨rfl, hhigh⟩
    · rw [hcell 4 (by omega) hoffset, getElem?_encode_cell_ne_iff]
      exact .inr ⟨rfl, hlow⟩

/-- The six bytes at the start of a cell are a separator, which is a tab at the beginning of a
row, and the literal of the byte; a newline follows exactly behind the last byte of a row.  So
declarations of the same name and as many bytes have the same size, and differ in the digits in
which their bytes differ and nowhere else. -/
theorem render_at_cellStart (name : Text) (bytes : List UInt8) :
    (∀ (i : Nat) (h : i < bytes.length),
      ((render ⟨name, bytes⟩).encode.drop (cellStart name i)).take 6 =
          Text.encode ((if i % 8 = 0 then '\t' else ' ') :: (Token.ofByte bytes[i]).text) ∧
        cellStart name i + 6 < (render ⟨name, bytes⟩).encode.length ∧
        ((render ⟨name, bytes⟩).encode[cellStart name i + 6]? = some 0x0A ↔
          i % 8 = 7 ∨ i + 1 = bytes.length)) ∧
      ∀ others : List UInt8, others.length = bytes.length →
        (render ⟨name, bytes⟩).encode.length = (render ⟨name, others⟩).encode.length ∧
          ∀ offset : Nat,
            (render ⟨name, bytes⟩).encode[offset]? ≠ (render ⟨name, others⟩).encode[offset]? ↔
              ∃ (i : Nat) (h : i < bytes.length) (h' : i < others.length),
                (offset = cellStart name i + 3 ∧
                    bytes[i].toNat / 16 ≠ others[i].toNat / 16) ∨
                  (offset = cellStart name i + 4 ∧
                    bytes[i].toNat % 16 ≠ others[i].toNat % 16) := by
  constructor
  · intro i h
    have hlength := byteLength_separated_literal i bytes[i]
    rw [← Text.length_encode] at hlength
    have hbehind := getElem?_behind_cell name h
    refine ⟨?_, ?_, ?_⟩
    · rw [drop_cellStart name h, encode_cell, List.append_assoc, List.take_left' hlength]
      rfl
    · exact (List.getElem?_eq_some_iff.mp hbehind).1
    · rw [hbehind]
      split
      · next hend => simp [hend]
      · next hend => simp [hend]
  · intro others hlength
    refine ⟨?_, getElem?_encode_render_ne_iff name hlength⟩
    rw [Text.length_encode, Text.length_encode, byteLength_render, byteLength_render, hlength]

/-- The first byte of a second row, behind a name of two bytes, and a change of the last low
digit. -/
theorem render_at_cellStart_second_row :
    let bytes : List UInt8 := [0, 1, 2, 3, 4, 5, 6, 7, 8, 9]
    let others : List UInt8 := [0, 1, 2, 3, 4, 5, 6, 7, 8, 10]
    let text := (render ⟨['é'], bytes⟩).encode
    let other := (render ⟨['é'], others⟩).encode
    (8 < bytes.length ∧ cellStart ['é'] 8 = 73 ∧
        (text.drop 73).take 6 = Text.encode "\t0x08,".toList ∧ text[79]? ≠ some 0x0A) ∧
      others.length = bytes.length ∧ text.length = other.length ∧ text[83]? ≠ other[83]? := by
  intro bytes others text other
  have hstart : cellStart ['é'] 8 = 73 := by decide
  obtain ⟨hcell, hothers⟩ := render_at_cellStart ['é'] bytes
  obtain ⟨htake, -, hbehind⟩ := hcell 8 (by decide)
  obtain ⟨hlength, hdiffer⟩ := hothers others (by decide)
  rw [hstart] at htake hbehind
  refine ⟨⟨by decide, hstart, ?_, ?_⟩, by decide, hlength, ?_⟩
  · rw [htake]
    decide
  · rw [Ne, hbehind]
    decide
  · exact (hdiffer 83).mpr ⟨9, by decide, by decide, .inr (by decide)⟩

end Declaration
end ByteEmbed
