import ByteEmbed.Proofs.Layout.Position
import Mathlib.Data.List.DropRight

/-!
# Declarations of more bytes

The cells of bytes that are added stand behind those of the bytes before them, so the text of a
declaration goes on where it ended.  Only the newline of a short row is in the way: bytes that
are added to a short row stand on it and not behind its newline.

`render_append` says when the text of two pieces is that of their bytes together, and that the
text up to its last newline is kept in any case.
-/

namespace ByteEmbed
namespace Declaration

/-- A text less its closing line. -/
theorem rdrop_render (name : Text) (bytes : List UInt8) :
    (render ⟨name, bytes⟩).rdrop terminator.length =
      header name ++ cells 0 bytes ++ shortRowEnd bytes.length := by
  rw [render_eq_cells, ← List.append_assoc, List.rdrop_append_length]

/-- A text less its header line. -/
theorem drop_render (name : Text) (bytes : List UInt8) :
    (render ⟨name, bytes⟩).drop (header name).length =
      cells 0 bytes ++ (shortRowEnd bytes.length ++ terminator) := by
  rw [render_eq_cells, List.append_assoc, List.drop_left]

/-- Cells may begin anew behind other cells exactly if those fill their rows, or if nothing
follows them. -/
theorem cells_seam_iff (count : Nat) (bytes : List UInt8) :
    cells count bytes ++ shortRowEnd (count + bytes.length) =
        shortRowEnd count ++ (cells 0 bytes ++ shortRowEnd bytes.length) ↔
      8 ∣ count ∨ bytes = [] := by
  by_cases hrow : count % 8 = 0
  · have hcells : cells count bytes = cells 0 bytes := cells_congr hrow bytes
    have hend : shortRowEnd (count + bytes.length) = shortRowEnd bytes.length :=
      shortRowEnd_congr (by omega)
    have hnone : shortRowEnd count = [] := if_pos hrow
    rw [hcells, hend, hnone]
    simp [Nat.dvd_of_mod_eq_zero hrow]
  · have hnewline : shortRowEnd count = ['\n'] := if_neg hrow
    have hdvd : ¬ 8 ∣ count := fun h => hrow (Nat.mod_eq_zero_of_dvd h)
    cases bytes with
    | nil => simp [shortRowEnd]
    | cons value bytes =>
        -- A byte on a short row follows a space.
        have hspace : separatorAt count = ' ' := if_neg hrow
        rw [cells_cons, cell, hspace, hnewline]
        simp [hdvd]

/-- Any bytes end in a newline and the closing line, and what precedes it is kept when more
bytes follow. -/
theorem exists_render_eq_append (name : Text) {bytes : List UInt8} (hne : bytes ≠ []) :
    ∃ front, render ⟨name, bytes⟩ = front ++ '\n' :: terminator ∧
      ∀ more, front <+: render ⟨name, bytes ++ more⟩ := by
  obtain ⟨init, value, rfl⟩ := (List.eq_nil_or_concat' bytes).resolve_left hne
  have hcells : ∀ more, cells 0 (init ++ [value] ++ more) =
      cells 0 init ++ separatorAt init.length :: (Token.ofByte value).text ++
        (rowEndAt init.length ++ cells (init.length + 1) more) := by
    intro more
    simp [cell]
  refine ⟨header name ++ (cells 0 init ++ separatorAt init.length :: (Token.ofByte value).text),
    ?_, ?_⟩
  · have hlast := hcells []
    rw [List.append_nil, cells_nil, List.append_nil] at hlast
    have hend : rowEndAt init.length ++ (shortRowEnd (init.length + 1) ++ terminator) =
        '\n' :: terminator := by
      rw [← List.append_assoc, rowEndAt_append_shortRowEnd]
      rfl
    rw [render_eq_cells, hlast, List.length_append, List.length_singleton, ← hend]
    simp only [List.append_assoc]
  · intro more
    rw [render_eq_cells, hcells]
    refine ⟨rowEndAt init.length ++ cells (init.length + 1) more ++
      (shortRowEnd (init ++ [value] ++ more).length ++ terminator), ?_⟩
    simp only [List.append_assoc]

/-- The text of two pieces, without the closing line of the first and the header of the second,
is that of their bytes together exactly if the rows of the first are full or the second has no
bytes.  In any case, all that precedes the last newline and the closing line is kept when
bytes are added. -/
theorem render_append (name : Text) (bytes more : List UInt8) :
    (render ⟨name, bytes ++ more⟩ =
          (render ⟨name, bytes⟩).rdrop terminator.length ++
            (render ⟨name, more⟩).drop (header name).length ↔
        8 ∣ bytes.length ∨ more = []) ∧
      (bytes ≠ [] →
        "\n\x7d;\n".toList <:+ render ⟨name, bytes⟩ ∧
          (render ⟨name, bytes⟩).rdrop 4 <+: render ⟨name, bytes ++ more⟩) := by
  constructor
  · rw [rdrop_render, drop_render, render_eq_cells, cells_append, Nat.zero_add, List.length_append,
      ← cells_seam_iff bytes.length more]
    simp only [← List.append_assoc, List.append_cancel_right_eq]
    simp only [List.append_assoc, List.append_cancel_left_eq]
  · intro hne
    obtain ⟨front, hfront, hkept⟩ := exists_render_eq_append name hne
    have hend : '\n' :: terminator = "\n\x7d;\n".toList := by decide
    rw [hfront, hend]
    refine ⟨List.suffix_append _ _, ?_⟩
    have hdrop : (front ++ "\n\x7d;\n".toList).rdrop 4 = front :=
      List.rdrop_append_length
    rw [hdrop]
    exact hkept more

/-- Two bytes that follow one stand on its row, so their text cannot be appended as it is. -/
theorem render_append_short_row :
    render ⟨['a'], [1] ++ [2, 3]⟩ ≠
        (render ⟨['a'], [1]⟩).rdrop terminator.length ++
          (render ⟨['a'], [2, 3]⟩).drop (header ['a']).length ∧
      ([1] : List UInt8) ≠ [] ∧
      (render ⟨['a'], [1]⟩).rdrop 4 = header ['a'] ++ "\t0x01,".toList ∧
      (render ⟨['a'], [1]⟩).rdrop 4 <+: render ⟨['a'], [1] ++ [2, 3]⟩ := by
  obtain ⟨hseam, hkept⟩ := render_append ['a'] [1] [2, 3]
  have hne : ([1] : List UInt8) ≠ [] := List.cons_ne_nil 1 []
  refine ⟨?_, hne, by decide +kernel, (hkept hne).2⟩
  rw [Ne, hseam]
  decide

end Declaration
end ByteEmbed
