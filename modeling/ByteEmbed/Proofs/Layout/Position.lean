import ByteEmbed.Proofs.Grammar.RoundTrip
import Mathlib.Data.List.Induction

/-!
# The layout of a declaration by position

Rendering cuts the bytes into rows and writes them row by row.  Here the layout is given
without rows: a byte takes a cell, and what stands in it beside the literal follows from the
position of the byte alone.  The cell of every eighth byte begins with a tab and that of
the one before it ends in a newline, so all that is left to be written behind the cells is
the newline of a short row.

* `body_eq_cells` - the rows and the cells are the same text;
* `rows_eq_map_range` - which bytes stand on which row;
* `render_by_position` - a rendering is its cells between two lines, and its lines are the
  header, the rows and the closing line.

Cells compose along an append of the bytes, which rows do not, so what else is said about
the layout is said of the cells.
-/

namespace ByteEmbed
namespace Declaration

/-! ### Cells -/

/-- What separates the byte at a position from what precedes it. -/
def separatorAt (i : Nat) : Char :=
  if i % 8 = 0 then '\t' else ' '

/-- What ends the row behind the byte at a position, if the row ends there. -/
def rowEndAt (i : Nat) : Text :=
  if i % 8 = 7 then ['\n'] else []

/-- The text of the byte at a position. -/
def cell (i : Nat) (value : UInt8) : Text :=
  separatorAt i :: (Token.ofByte value).text ++ rowEndAt i

/-- The text of bytes, the first of which is at position `i`. -/
def cells (i : Nat) (bytes : List UInt8) : Text :=
  (bytes.zipIdx i).flatMap fun one => cell one.2 one.1

/-- What ends the last row if it is short, given the number of bytes. -/
def shortRowEnd (count : Nat) : Text :=
  if count % 8 = 0 then [] else ['\n']

/-- The text of a declaration, written byte after byte. -/
def renderByPosition (d : Declaration) : Text :=
  "static uint8_t ".toList ++ d.name ++ "[] = \x7b\n".toList ++ cells 0 d.bytes ++
    shortRowEnd d.bytes.length ++ "\x7d;\n".toList

@[simp]
theorem cells_nil (i : Nat) : cells i [] = [] := rfl

@[simp]
theorem cells_cons (i : Nat) (value : UInt8) (bytes : List UInt8) :
    cells i (value :: bytes) = cell i value ++ cells (i + 1) bytes := by
  simp [cells, List.zipIdx_cons]

@[simp]
theorem cells_append (i : Nat) (front back : List UInt8) :
    cells i (front ++ back) = cells i front ++ cells (i + front.length) back := by
  simp [cells, List.zipIdx_append]

/-- Only the place on the row matters to a cell. -/
theorem cell_congr {i j : Nat} (h : i % 8 = j % 8) (value : UInt8) :
    cell i value = cell j value := by
  simp only [cell, separatorAt, rowEndAt, h]

theorem cells_congr {i j : Nat} (h : i % 8 = j % 8) (bytes : List UInt8) :
    cells i bytes = cells j bytes := by
  induction bytes generalizing i j with
  | nil => rfl
  | cons value bytes ih =>
      have hnext : (i + 1) % 8 = (j + 1) % 8 := by omega
      rw [cells_cons, cells_cons, cell_congr h, ih hnext]

theorem shortRowEnd_congr {count other : Nat} (h : count % 8 = other % 8) :
    shortRowEnd count = shortRowEnd other := by
  simp only [shortRowEnd, h]

/-- Behind the last byte stands one newline, whether its row is full or short. -/
theorem rowEndAt_append_shortRowEnd (i : Nat) : rowEndAt i ++ shortRowEnd (i + 1) = ['\n'] := by
  unfold rowEndAt shortRowEnd
  split
  · rw [if_pos (by omega)]
    rfl
  · rw [if_neg (by omega)]
    rfl

/-! ### Rows -/

/-- The line of one row, without its end. -/
def rowLine (row : List UInt8) : Text :=
  '\t' :: [' '].intercalate (row.map fun value => (Token.ofByte value).text)

theorem rowText_eq (row : List UInt8) : rowText row = rowLine row ++ ['\n'] := by
  have htext : (fun value => (Token.ofByte value).text) = Literal.text := funext Token.text_ofByte
  rw [rowLine, htext]
  rfl

theorem intercalate_cons_eq_flatMap (sep first : Text) (parts : List Text) :
    sep.intercalate (first :: parts) = first ++ parts.flatMap (sep ++ ·) := by
  induction parts generalizing first with
  | nil => simp
  | cons second parts ih =>
      rw [List.intercalate_cons_cons, ih second, List.flatMap_cons]
      simp

theorem rowLine_cons (value : UInt8) (row : List UInt8) :
    rowLine (value :: row) =
      '\t' :: (Token.ofByte value).text ++
        row.flatMap fun next => ' ' :: (Token.ofByte next).text := by
  rw [rowLine, List.map_cons, intercalate_cons_eq_flatMap, List.flatMap_map]
  rfl

/-- Bytes that do not reach past the end of a row, by induction on the bytes: the newline
of the row stands in the last cell if the row is full, and behind it if it is short. -/
theorem cells_of_le (i : Nat) (value : UInt8) (row : List UInt8) (h : i + row.length < 8) :
    cells i (value :: row) ++ shortRowEnd (i + row.length + 1) =
      separatorAt i :: (Token.ofByte value).text ++
        (row.flatMap fun next => ' ' :: (Token.ofByte next).text) ++ ['\n'] := by
  induction row generalizing i value with
  | nil => simp [cell, rowEndAt_append_shortRowEnd]
  | cons next row ih =>
      rw [List.length_cons] at h
      have hnone : rowEndAt i = [] := if_neg (by omega)
      have hspace : separatorAt (i + 1) = ' ' := if_neg (by omega)
      have hrest := ih (i + 1) next (by omega)
      rw [hspace] at hrest
      have hcount : i + (next :: row).length + 1 = i + 1 + row.length + 1 := by
        rw [List.length_cons]
        omega
      rw [cells_cons, List.append_assoc, hcount, hrest, cell, hnone]
      simp

theorem rowText_eq_cells {row : List UInt8} (hne : row ≠ []) (h : row.length ≤ 8) :
    rowText row = cells 0 row ++ shortRowEnd row.length := by
  cases row with
  | nil => contradiction
  | cons value row =>
      rw [List.length_cons] at h
      have hcells := cells_of_le 0 value row (by omega)
      rw [Nat.zero_add] at hcells
      rw [rowText_eq, rowLine_cons, List.length_cons, hcells]
      rfl

/-- The rows of a body are its cells, and a newline if the last row is short. -/
theorem body_eq_cells (bytes : List UInt8) :
    body bytes = cells 0 bytes ++ shortRowEnd bytes.length := by
  rw [body]
  fun_induction rows bytes with
  | case1 => rfl
  | case2 b rest ih =>
      generalize hbytes : b :: rest = bytes at ih ⊢
      have hne : bytes ≠ [] := by simp [← hbytes]
      have hsplit : bytes.take rowWidth ++ bytes.drop rowWidth = bytes :=
        List.take_append_drop rowWidth bytes
      have hrow : (bytes.take rowWidth).length ≤ 8 := List.length_take_le 8 bytes
      rw [List.flatMap_cons, ih, rowText_eq_cells (by simp [hne, rowWidth]) hrow]
      by_cases hlong : 8 ≤ bytes.length
      · -- The row is full, and the rest is laid out as if nothing preceded it.
        have hfull : (bytes.take rowWidth).length = 8 := by
          rw [List.length_take]
          exact Nat.min_eq_left hlong
        have hrest : cells 8 (bytes.drop rowWidth) = cells 0 (bytes.drop rowWidth) :=
          cells_congr (by omega) _
        have hcount : shortRowEnd (bytes.drop rowWidth).length = shortRowEnd bytes.length := by
          apply shortRowEnd_congr
          simp only [rowWidth, List.length_drop]
          omega
        have hcells := cells_append 0 (bytes.take rowWidth) (bytes.drop rowWidth)
        rw [hsplit, hfull, Nat.zero_add, hrest] at hcells
        rw [hcells, hcount, hfull]
        simp [shortRowEnd]
      · have hlast : bytes.drop rowWidth = [] := List.drop_eq_nil_of_le (by
          simp only [rowWidth]
          omega)
        rw [hlast, List.append_nil] at hsplit
        rw [hlast, hsplit]
        simp [shortRowEnd]

theorem render_eq_cells (name : Text) (bytes : List UInt8) :
    render ⟨name, bytes⟩ =
      header name ++ cells 0 bytes ++ (shortRowEnd bytes.length ++ terminator) := by
  simp only [render, body_eq_cells, List.append_assoc]

/-! ### Which bytes stand on which row -/

/-- The bytes of a row: eight from its first position on, or as many as there are. -/
def rowAt (bytes : List UInt8) (k : Nat) : List UInt8 :=
  bytes.extract (8 * k) (min (8 * k + 8) bytes.length)

theorem rowAt_eq_take (bytes : List UInt8) (k : Nat) :
    rowAt bytes k = (bytes.drop (8 * k)).take 8 := by
  rw [rowAt, List.extract, List.take_eq_take_iff, List.length_drop]
  omega

theorem rowAt_zero (bytes : List UInt8) : rowAt bytes 0 = bytes.take rowWidth := by
  rw [rowAt_eq_take]
  rfl

theorem rowAt_succ (bytes : List UInt8) (k : Nat) :
    rowAt bytes (k + 1) = rowAt (bytes.drop rowWidth) k := by
  rw [rowAt_eq_take, rowAt_eq_take, List.drop_drop]
  congr 2
  simp only [rowWidth]
  omega

theorem rowAt_ne_nil {bytes : List UInt8} {k : Nat} (h : k < (bytes.length + 7) / 8) :
    rowAt bytes k ≠ [] := by
  rw [← List.length_pos_iff, rowAt_eq_take, List.length_take, List.length_drop]
  omega

/-- There are as many rows as it takes, and the row at each place holds the bytes of its
positions. -/
theorem rows_eq_map_range (bytes : List UInt8) :
    rows bytes = (List.range ((bytes.length + 7) / 8)).map (rowAt bytes) := by
  fun_induction rows bytes with
  | case1 => rfl
  | case2 b rest ih =>
      have hcount : ((b :: rest).length + 7) / 8 =
          (((b :: rest).drop rowWidth).length + 7) / 8 + 1 := by
        simp only [rowWidth, List.length_drop, List.length_cons]
        omega
      have hsucc : rowAt (b :: rest) ∘ Nat.succ = rowAt ((b :: rest).drop rowWidth) :=
        funext (rowAt_succ (b :: rest))
      rw [hcount, List.range_succ_eq_map, List.map_cons, List.map_map, hsucc, ← ih, rowAt_zero]

/-! ### Lines -/

/-- Lines without a newline of their own are what stands between the newlines. -/
theorem splitOn_flatMap_lines {lines : List Text} (h : ∀ line ∈ lines, '\n' ∉ line) :
    (lines.flatMap (· ++ ['\n'])).splitOn '\n' = lines ++ [[]] := by
  induction lines with
  | nil => rfl
  | cons line lines ih =>
      have hline : line.splitOn '\n' = [line] := List.splitOn_eq_singleton (h line (by simp))
      have hlines := ih fun other hother => h other (List.mem_cons_of_mem line hother)
      rw [List.flatMap_cons, List.append_assoc, List.singleton_append,
        List.splitOn_append_cons_self, hline, hlines]
      rfl

theorem newline_not_mem_literal (value : UInt8) : '\n' ∉ (Token.ofByte value).text := by
  have hdigit : ∀ d : Fin 16, '\n' ≠ Token.digit d := by decide
  simp [Token.ofByte, Token.text, hdigit]

theorem newline_not_mem_rowLine (row : List UInt8) : '\n' ∉ rowLine row := by
  cases row with
  | nil => decide
  | cons value row =>
      rw [rowLine_cons]
      simp [newline_not_mem_literal]

theorem render_eq_lines (name : Text) (bytes : List UInt8) :
    render ⟨name, bytes⟩ =
      ((headerPrefix ++ name ++ headerClose) :: (rows bytes).map rowLine ++
        ["\x7d;".toList]).flatMap (· ++ ['\n']) := by
  have hbody : body bytes = ((rows bytes).map rowLine).flatMap (· ++ ['\n']) := by
    rw [body, List.flatMap_map]
    exact List.flatMap_congr fun row _ => rowText_eq row
  rw [render, header_eq, hbody]
  simp [terminator_eq]

/-- Cut into rows or written byte after byte, a declaration has the same text.  If its name
holds no newline, then its lines are the header, one for every eight bytes or less, in order
and none of them empty, and the closing line. -/
theorem render_by_position (name : Text) (bytes : List UInt8) :
    render ⟨name, bytes⟩ = renderByPosition ⟨name, bytes⟩ ∧
      ('\n' ∉ name →
        (render ⟨name, bytes⟩).splitOn '\n' =
          ("static uint8_t ".toList ++ name ++ "[] = \x7b".toList) ::
            (List.range ((bytes.length + 7) / 8)).map (fun k => rowLine (rowAt bytes k)) ++
            ["\x7d;".toList, []]) ∧
      ∀ k < (bytes.length + 7) / 8, rowAt bytes k ≠ [] := by
  refine ⟨?_, ?_, fun k hk => rowAt_ne_nil hk⟩
  · rw [render_eq_cells, ← List.append_assoc]
    rfl
  · intro hname
    have hlines : ∀ line ∈ (headerPrefix ++ name ++ headerClose) :: (rows bytes).map rowLine ++
        ["\x7d;".toList], '\n' ∉ line := by
      intro line hline
      rw [List.cons_append, List.mem_cons, List.mem_append, List.mem_singleton] at hline
      rcases hline with rfl | hrow | rfl
      · exact newline_not_mem_line hname
      · obtain ⟨row, -, rfl⟩ := List.mem_map.mp hrow
        exact newline_not_mem_rowLine row
      · decide
    rw [render_eq_lines, splitOn_flatMap_lines hlines, rows_eq_map_range, List.map_map,
      List.append_assoc]
    rfl

/-- Nine bytes fill one row and begin another. -/
theorem render_by_position_nine :
    let name : Text := "a\t0x00".toList
    let bytes : List UInt8 := [0, 255, 16, 3, 4, 5, 6, 7, 8]
    '\n' ∉ name ∧
      (render ⟨name, bytes⟩).splitOn '\n' =
        ["static uint8_t a\t0x00[] = \x7b".toList,
          "\t0x00, 0xFF, 0x10, 0x03, 0x04, 0x05, 0x06, 0x07,".toList, "\t0x08,".toList,
          "\x7d;".toList, []] ∧
      rowAt bytes 1 ≠ [] := by
  intro name bytes
  have hname : '\n' ∉ name := by decide
  obtain ⟨-, hlines, hrows⟩ := render_by_position name bytes
  refine ⟨hname, ?_, hrows 1 (by decide)⟩
  rw [hlines hname]
  decide

end Declaration
end ByteEmbed
