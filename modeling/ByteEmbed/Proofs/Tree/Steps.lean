import ByteEmbed.Path
import Mathlib.Data.List.Basic

/-!
# The steps of a path and of its folder

A path is no shorter than any name that it goes into, and neither is the path of its
folder: that one is a single dot, or the spelling of the path cut off behind a
slash.  So the folder of a relative path is relative as well.

If a path ends in a name, then the path of its folder takes the same steps up to that
name and stays where they lead.
-/

namespace ByteEmbed
namespace Path

theorem length_le_intercalate (sep : List UInt8) {part : List UInt8}
    {parts : List (List UInt8)} (h : part ∈ parts) :
    part.length ≤ (sep.intercalate parts).length := by
  induction parts with
  | nil => cases h
  | cons first parts ih =>
      cases parts with
      | nil =>
          have hpart : part = first := List.mem_singleton.mp h
          have hwhole : sep.intercalate [first] = first := List.intercalate_singleton
          exact Nat.le_of_eq (by rw [hpart, hwhole])
      | cons second parts =>
          rw [List.intercalate_cons_cons, List.length_append, List.length_append]
          rcases List.mem_cons.mp h with rfl | h
          · omega
          · have hrest := ih h
            omega

theorem intercalate_append_cons {sep last : List UInt8} {parts rest : List (List UInt8)}
    (h : parts ≠ []) :
    sep.intercalate (parts ++ last :: rest) =
      sep.intercalate parts ++ sep ++ sep.intercalate (last :: rest) := by
  induction parts with
  | nil => contradiction
  | cons first parts ih =>
      cases parts with
      | nil => rw [List.singleton_append, List.intercalate_cons_cons, List.intercalate_singleton]
      | cons second parts =>
          have hrest := ih (List.cons_ne_nil second parts)
          rw [List.cons_append] at hrest
          rw [List.cons_append, List.cons_append, List.intercalate_cons_cons, hrest,
            List.intercalate_cons_cons]
          simp only [List.append_assoc]

theorem length_le_of_mem_pieces {path : Path} {piece : List UInt8}
    (h : piece ∈ path.pieces) : piece.length ≤ path.bytes.length := by
  have hlength := length_le_intercalate [slash] h
  rw [pieces, List.intercalate_splitOn] at hlength
  exact hlength

theorem ofPiece_eq_into_iff {piece : List UInt8} {name : Name} :
    Step.ofPiece piece = .into name ↔
      piece = name ∧ piece ≠ [] ∧ piece ≠ [dot] ∧ piece ≠ [dot, dot] := by
  unfold Step.ofPiece
  split
  · next hstay =>
      simp only [reduceCtorEq, false_iff]
      rintro ⟨-, hempty, hdot, -⟩
      exact hstay.elim hempty hdot
  · next hstay =>
      rw [not_or] at hstay
      split
      · next hup =>
          simp only [reduceCtorEq, false_iff]
          exact fun h => h.2.2.2 hup
      · next hup =>
          rw [Step.into.injEq]
          exact ⟨fun h => ⟨h, hstay.1, hstay.2, hup⟩, And.left⟩

theorem length_le_of_into_mem_steps {path : Path} {name : Name}
    (h : Step.into name ∈ path.steps) : name.length ≤ path.bytes.length := by
  obtain ⟨piece, hpiece, hname⟩ := List.mem_map.mp h
  rw [← (ofPiece_eq_into_iff.mp hname).1]
  exact length_le_of_mem_pieces hpiece

/-- The last name of a path is among its steps. -/
theorem into_mem_steps_of_lastStep? {path : Path} {name : Name}
    (h : path.lastStep? = some (.into name)) : Step.into name ∈ path.steps := by
  obtain ⟨piece, hpiece, hname⟩ := Option.map_eq_some_iff.mp h
  have hmem := List.dropWhile_subset _ (List.mem_of_mem_head? hpiece)
  rw [← hname]
  exact List.mem_map_of_mem (List.mem_reverse.mp hmem)

theorem bytes_ne_nil_of_lastStep? {path : Path} {step : Step}
    (h : path.lastStep? = some step) : path.bytes ≠ [] := by
  intro hbytes
  rw [lastStep?, pieces, hbytes] at h
  cases h

/-! ### The folder -/

/-- The pieces of a folder are followed by at least one more piece. -/
theorem exists_pieces_eq {path : Path} (h : path.folderPieces ≠ []) :
    ∃ last rest, path.pieces = path.folderPieces ++ last :: rest := by
  have hsuffix := List.dropWhile_suffix (l := path.pieces.reverse)
    fun piece => decide (Step.ofPiece piece = .stay)
  unfold folderPieces at h ⊢
  -- What the folder drops is the head of the reversed pieces that are kept.
  cases hkept : path.pieces.reverse.dropWhile
      fun piece => decide (Step.ofPiece piece = .stay) with
  | nil =>
      rw [hkept] at h
      exact absurd rfl h
  | cons last kept =>
      rw [hkept] at hsuffix
      obtain ⟨front, hfront⟩ := hsuffix
      refine ⟨last, front.reverse, ?_⟩
      rw [← List.reverse_reverse path.pieces, ← hfront]
      simp

/-- The path of a folder is a dot, or the path itself cut off behind a slash. -/
theorem folder_eq_or_bytes_folder_prefix (path : Path) :
    path.folder = ⟨[dot]⟩ ∨ path.folder.bytes ≠ [] ∧ path.folder.bytes <+: path.bytes := by
  by_cases h : path.folderPieces = []
  · left
    rw [folder, if_pos h]
  · right
    obtain ⟨last, rest, hpieces⟩ := exists_pieces_eq h
    have hbytes : path.bytes = [slash].intercalate path.pieces :=
      (List.intercalate_splitOn slash).symm
    rw [folder, if_neg h, ofPieces, intercalate_append_cons h, hbytes, hpieces,
      intercalate_append_cons h, List.intercalate_singleton, List.append_nil]
    exact ⟨by simp, List.prefix_append _ _⟩

/-- A folder lies no deeper than its path: it goes into no longer a name. -/
theorem length_le_of_into_mem_folder_steps {path : Path} {name : Name}
    (h : Step.into name ∈ path.folder.steps) : name.length ≤ path.bytes.length := by
  rcases folder_eq_or_bytes_folder_prefix path with hdot | ⟨-, hfolder⟩
  · have hsteps : (⟨[dot]⟩ : Path).steps = [.stay] := by decide
    rw [hdot, hsteps] at h
    cases List.mem_singleton.mp h
  · exact Nat.le_trans (length_le_of_into_mem_steps h) hfolder.length_le

theorem isAbsolute_of_isAbsolute_folder {path : Path} (h : path.folder.isAbsolute = true) :
    path.isAbsolute = true := by
  rcases folder_eq_or_bytes_folder_prefix path with hdot | ⟨hne, hfolder⟩
  · rw [hdot] at h
    exact absurd h (by decide)
  · obtain ⟨tail, htail⟩ := hfolder
    rw [isAbsolute, ← htail, List.head?_append_of_ne_nil _ hne]
    exact h

/-! ### The last name -/

theorem pieces_append_slash (front back : List UInt8) :
    (⟨front ++ slash :: back⟩ : Path).pieces = (⟨front⟩ : Path).pieces ++ (⟨back⟩ : Path).pieces :=
  List.splitOn_append_cons_self front back

theorem pieces_of_not_mem {name : List UInt8} (h : slash ∉ name) :
    (⟨name⟩ : Path).pieces = [name] :=
  List.splitOn_eq_singleton h

theorem steps_append_slash (front back : List UInt8) :
    (⟨front ++ slash :: back⟩ : Path).steps = (⟨front⟩ : Path).steps ++ (⟨back⟩ : Path).steps := by
  rw [steps, pieces_append_slash, List.map_append]
  rfl

/-- A path is cut at its last slash, if it has one. -/
theorem exists_eq_append_slash {path : Path} (h : slash ∈ path.bytes) :
    ∃ front name, slash ∉ name ∧ path = ⟨front ++ slash :: name⟩ := by
  obtain ⟨back, front, hbytes, hback⟩ :=
    List.eq_append_cons_of_mem (List.mem_reverse.mpr h)
  refine ⟨front.reverse, back.reverse, by simpa using hback, ?_⟩
  have hpath : path.bytes = front.reverse ++ slash :: back.reverse := by
    rw [← List.reverse_reverse path.bytes, hbytes]
    simp
  rw [← hpath]

/-- The folder of a path that ends in a name is what stands before the name. -/
theorem folder_append_slash {front name : List UInt8} (hname : slash ∉ name)
    (hstep : Step.ofPiece name ≠ .stay) :
    (⟨front ++ slash :: name⟩ : Path).folder = ⟨front ++ [slash]⟩ := by
  have hpieces : (⟨front ++ slash :: name⟩ : Path).folderPieces = (⟨front⟩ : Path).pieces := by
    rw [folderPieces, pieces_append_slash, pieces_of_not_mem hname]
    simp [hstep]
  have hne : (⟨front⟩ : Path).pieces ≠ [] := List.splitOn_ne_nil slash front
  have hfront : [slash].intercalate (⟨front⟩ : Path).pieces = front :=
    List.intercalate_splitOn slash
  rw [folder, hpieces, if_neg hne, ofPieces, intercalate_append_cons hne, hfront,
    List.intercalate_singleton, List.append_nil]

theorem folder_of_not_mem {name : List UInt8} (h : slash ∉ name)
    (hstep : Step.ofPiece name ≠ .stay) : (⟨name⟩ : Path).folder = ⟨[dot]⟩ := by
  have hpieces : (⟨name⟩ : Path).folderPieces = [] := by
    rw [folderPieces, pieces_of_not_mem h]
    simp [hstep]
  rw [folder, if_pos hpieces]

theorem lastStep?_append_slash {front name : List UInt8} (hname : slash ∉ name)
    (hne : name ≠ []) :
    (⟨front ++ slash :: name⟩ : Path).lastStep? = some (Step.ofPiece name) := by
  rw [lastStep?, pieces_append_slash, pieces_of_not_mem hname]
  simp [hne]

theorem lastStep?_of_not_mem {name : List UInt8} (h : slash ∉ name) (hne : name ≠ []) :
    (⟨name⟩ : Path).lastStep? = some (Step.ofPiece name) := by
  rw [lastStep?, pieces_of_not_mem h]
  simp [hne]

/-! ### What stands behind the last slash -/

/-- What stands behind the last slash of a path, or all of it if it has no slash. -/
def lastPiece (path : Path) : List UInt8 :=
  path.pieces.getLastD []

@[simp]
theorem lastPiece_append_slash {front name : List UInt8} (hname : slash ∉ name) :
    (⟨front ++ slash :: name⟩ : Path).lastPiece = name := by
  rw [lastPiece, pieces_append_slash, pieces_of_not_mem hname, List.getLastD_concat]

@[simp]
theorem lastPiece_of_not_mem {name : List UInt8} (h : slash ∉ name) :
    (⟨name⟩ : Path).lastPiece = name := by
  rw [lastPiece, pieces_of_not_mem h]
  rfl

theorem mem_bytes_of_mem_lastPiece {path : Path} {byte : UInt8} (h : byte ∈ path.lastPiece) :
    byte ∈ path.bytes := by
  by_cases hslash : slash ∈ path.bytes
  · obtain ⟨front, last, hlast, rfl⟩ := exists_eq_append_slash hslash
    rw [lastPiece_append_slash hlast] at h
    exact List.mem_append_right _ (List.mem_cons_of_mem _ h)
  · rwa [lastPiece_of_not_mem hslash] at h

/-- A path ends in a name, with no slash behind it, exactly if it has that name behind
its last slash. -/
theorem lastStep?_eq_into_iff {path : Path} {name : Name} :
    path.lastStep? = some (.into name) ∧ path.endsInSlash = false ↔
      path.lastPiece = name ∧ path.lastPiece ≠ [] ∧ path.lastPiece ≠ [dot] ∧
        path.lastPiece ≠ [dot, dot] := by
  by_cases hslash : slash ∈ path.bytes
  · obtain ⟨front, last, hlast, rfl⟩ := exists_eq_append_slash hslash
    rw [lastPiece_append_slash hlast]
    by_cases hne : last = []
    · subst hne
      simp [endsInSlash]
    · have hend : (⟨front ++ slash :: last⟩ : Path).endsInSlash = false := by
        rw [endsInSlash, beq_eq_false_iff_ne, List.getLast?_append_of_ne_nil _ (by simp),
          List.getLast?_cons_of_ne_nil hne]
        exact fun h => hlast (List.mem_of_getLast? h)
      rw [lastStep?_append_slash hlast hne, Option.some.injEq, ofPiece_eq_into_iff]
      simp [hend]
  · obtain ⟨bytes⟩ := path
    rw [lastPiece_of_not_mem hslash]
    by_cases hne : bytes = []
    · subst hne
      simp [lastStep?, pieces]
    · have hend : (⟨bytes⟩ : Path).endsInSlash = false := by
        rw [endsInSlash, beq_eq_false_iff_ne]
        exact fun h => hslash (List.mem_of_getLast? h)
      rw [lastStep?_of_not_mem hslash hne, Option.some.injEq, ofPiece_eq_into_iff]
      simp [hend]

theorem getLast?_steps (path : Path) :
    path.steps.getLast? = some (Step.ofPiece path.lastPiece) := by
  have hne : path.pieces ≠ [] := List.splitOn_ne_nil slash path.bytes
  rw [steps, List.getLast?_map, lastPiece, List.getLast?_eq_some_getLast hne,
    List.getLastD_eq_getLast?, List.getLast?_eq_some_getLast hne]
  rfl

/-- If what stands behind the last slash of a path does not stay, then the path takes the
steps of its folder, but for the last one, and then that step. -/
theorem exists_steps_eq_concat {path : Path} (h : Step.ofPiece path.lastPiece ≠ .stay) :
    ∃ front, path.steps = front ++ [Step.ofPiece path.lastPiece] ∧
      path.folder.steps = front ++ [.stay] ∧ path.folder.isAbsolute = path.isAbsolute := by
  by_cases hslash : slash ∈ path.bytes
  · obtain ⟨front, last, hlast, rfl⟩ := exists_eq_append_slash hslash
    rw [lastPiece_append_slash hlast] at h ⊢
    have hfolder : (⟨front ++ slash :: last⟩ : Path).folder = ⟨front ++ [slash]⟩ :=
      folder_append_slash hlast h
    refine ⟨(⟨front⟩ : Path).steps, ?_, ?_, ?_⟩
    · rw [steps_append_slash, steps, steps, pieces_of_not_mem hlast]
      rfl
    · rw [hfolder, steps_append_slash]
      rfl
    · rw [hfolder]
      cases front <;> rfl
  · obtain ⟨bytes⟩ := path
    rw [lastPiece_of_not_mem hslash] at h ⊢
    have hfolder : (⟨bytes⟩ : Path).folder = ⟨[dot]⟩ := folder_of_not_mem hslash h
    refine ⟨[], ?_, ?_, ?_⟩
    · rw [steps, pieces_of_not_mem hslash]
      rfl
    · rw [hfolder]
      decide
    · have hrelative : (⟨bytes⟩ : Path).isAbsolute = false := by
        rw [isAbsolute, beq_eq_false_iff_ne]
        exact fun hhead => hslash (List.mem_of_mem_head? hhead)
      rw [hfolder, hrelative]
      decide

/-- A path that ends in a name takes the steps of its folder, but for the last one, and
then goes into the name. -/
theorem exists_steps_eq_of_lastStep? {path : Path} {name : Name}
    (h : path.lastStep? = some (.into name)) (hend : path.endsInSlash = false) :
    ∃ front, path.steps = front ++ [.into name] ∧ path.folder.steps = front ++ [.stay] ∧
      path.folder.isAbsolute = path.isAbsolute := by
  have hstep : Step.ofPiece path.lastPiece = .into name :=
    ofPiece_eq_into_iff.mpr (lastStep?_eq_into_iff.mp ⟨h, hend⟩)
  rw [← hstep]
  apply exists_steps_eq_concat
  rw [hstep]
  exact nofun

/-- A byte that is neither in the folder of a path nor in its last name is not in the path,
slashes aside. -/
theorem not_mem_bytes_of_folder {path : Path} {name : Name} {byte : UInt8}
    (hlast : path.lastStep? = some (.into name)) (hend : path.endsInSlash = false)
    (hslash : byte ≠ slash) (hfolder : byte ∉ path.folder.bytes) (hname : byte ∉ path.lastPiece) :
    byte ∉ path.bytes := by
  by_cases hmem : slash ∈ path.bytes
  · obtain ⟨front, last, hno, rfl⟩ := exists_eq_append_slash hmem
    obtain ⟨hpiece, hempty, hdot, -⟩ := lastStep?_eq_into_iff.mp ⟨hlast, hend⟩
    rw [lastPiece_append_slash hno] at hname hempty hdot
    have hstep : Step.ofPiece last ≠ .stay := by
      rw [Step.ofPiece, if_neg (not_or.mpr ⟨hempty, hdot⟩)]
      split <;> exact nofun
    rw [folder_append_slash hno hstep] at hfolder
    intro h
    rcases List.mem_append.mp h with hfront | hrest
    · exact hfolder (List.mem_append_left _ hfront)
    · rcases List.mem_cons.mp hrest with heq | hrest
      · exact hslash heq
      · exact hname hrest
  · rw [← lastPiece_of_not_mem hmem]
    exact hname

end Path
end ByteEmbed
