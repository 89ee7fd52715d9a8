import ByteEmbed.Declaration.Parse
import Mathlib.Data.List.Basic

/-!
# The outer lines of a declaration

The header line is the text before the first newline.  It must open and close in
the right way; what lies between is the name, and nothing is asked of it but that
it holds no newline.

`hasHeader_iff` finds the name in a header line: the opening and the close never
overlap.  `readHeader?_eq_some_iff` says that the reader finds the same name, and
`terminator_suffix_iff` that the closing line never overlaps the header.
-/

namespace ByteEmbed
namespace Declaration

/-- What closes a header line, its newline aside. -/
def headerClose : Text := "[] = \x7b".toList

/-- Whether a text begins with a header line. -/
def HasHeader (source : Text) : Prop :=
  '\n' ∈ source ∧ headerPrefix <+: Text.firstLine source ∧ headerClose <:+ Text.firstLine source

theorem headerSuffix_eq : headerSuffix = headerClose ++ ['\n'] := by decide

theorem headerClose_eq : headerClose = "[] = ".toList ++ ['\x7b'] := by decide

theorem terminator_eq : terminator = ['\x7d', ';', '\n'] := by decide

theorem header_eq (name : Text) :
    header name = headerPrefix ++ name ++ headerClose ++ ['\n'] := by
  simp [header, headerSuffix_eq]

/-- A line that opens and closes like a header does so in different places. -/
theorem exists_name_of_prefix_of_suffix {line : Text} (hopen : headerPrefix <+: line)
    (hclose : headerClose <:+ line) : ∃ name, line = headerPrefix ++ name ++ headerClose := by
  obtain ⟨back, hback⟩ := hopen
  obtain ⟨front, hfront⟩ := hclose
  rcases List.append_eq_append_iff.mp (hfront.trans hback.symm) with
    ⟨overlap, hbegins, hclose⟩ | ⟨name, hname, -⟩
  · cases overlap with
    | nil => exact ⟨[], by rw [← hfront, hbegins]; simp⟩
    | cons c overlap =>
        -- The overlap would begin with the bracket of the close.
        have hc : c = '[' := (List.cons.inj hclose).1.symm
        have hmem : '[' ∈ headerPrefix := by
          rw [hbegins, hc]
          simp
        exact absurd hmem (by decide)
  · exact ⟨name, by rw [← hfront, hname]⟩

theorem bne_newline_of_not_mem {line : Text} (h : '\n' ∉ line) :
    ∀ c ∈ line, (c != '\n') = true := by
  intro c hc
  rw [bne_iff_ne]
  rintro rfl
  exact h hc

theorem firstLine_append {line : Text} (h : '\n' ∉ line) (rest : Text) :
    Text.firstLine (line ++ '\n' :: rest) = line := by
  rw [Text.firstLine, List.takeWhile_append_of_pos (bne_newline_of_not_mem h)]
  simp

theorem newline_not_mem_line {name : Text} (h : '\n' ∉ name) :
    '\n' ∉ headerPrefix ++ name ++ headerClose := by
  have hbegins : '\n' ∉ headerPrefix := by decide
  have hclose : '\n' ∉ headerClose := by decide
  simp [h, hbegins, hclose]

theorem firstLine_header {name : Text} (h : '\n' ∉ name) (rest : Text) :
    Text.firstLine (header name ++ rest) = headerPrefix ++ name ++ headerClose := by
  rw [header_eq, List.append_assoc, List.singleton_append]
  exact firstLine_append (newline_not_mem_line h) rest

/-- A header line holds a name without a newline, and the rest follows it. -/
theorem hasHeader_iff (source : Text) :
    HasHeader source ↔ ∃ name rest, '\n' ∉ name ∧ source = header name ++ rest := by
  constructor
  · rintro ⟨hmem, hopen, hclose⟩
    obtain ⟨line, rest, rfl, hline⟩ := List.eq_append_cons_of_mem hmem
    rw [firstLine_append hline] at hopen hclose
    obtain ⟨name, rfl⟩ := exists_name_of_prefix_of_suffix hopen hclose
    refine ⟨name, rest, ?_, ?_⟩
    · intro hname
      exact hline (by simp [hname])
    · rw [header_eq]
      simp
  · rintro ⟨name, rest, hname, rfl⟩
    rw [HasHeader, firstLine_header hname]
    refine ⟨by simp [header_eq], ?_, List.suffix_append _ _⟩
    rw [List.append_assoc]
    exact List.prefix_append _ _

/-! ### The reader of header lines -/

theorem readHeader?_of_not_mem {source : Text} (h : '\n' ∉ source) :
    readHeader? source = none := by
  have hdrop : source.dropWhile (· != '\n') = [] := by
    rw [← List.append_nil source, List.dropWhile_append_of_pos (bne_newline_of_not_mem h)]
    rfl
  rw [readHeader?, hdrop]

theorem readHeader?_line {line : Text} (h : '\n' ∉ line) (rest : Text) :
    readHeader? (line ++ '\n' :: rest) =
      (headerPrefix.isPrefixOf? (line ++ ['\n'])).bind fun named =>
        (headerSuffix.isSuffixOf? named).map fun name => (name, rest) := by
  have hline := bne_newline_of_not_mem h
  rw [readHeader?, List.dropWhile_append_of_pos hline, List.takeWhile_append_of_pos hline]
  rw [List.dropWhile_cons_of_neg (by simp), List.takeWhile_cons_of_neg (by simp),
    List.append_nil]
  dsimp only
  cases headerPrefix.isPrefixOf? (line ++ ['\n']) with
  | none => rfl
  | some named =>
      show (headerSuffix.isSuffixOf? named).bind _ = (headerSuffix.isSuffixOf? named).map _
      cases headerSuffix.isSuffixOf? named with
      | none => rfl
      | some name => rfl

/-- The reader finds a name exactly where a header line holds it. -/
theorem readHeader?_eq_some_iff (source name rest : Text) :
    readHeader? source = some (name, rest) ↔ '\n' ∉ name ∧ source = header name ++ rest := by
  constructor
  · intro h
    by_cases hmem : '\n' ∈ source
    · obtain ⟨line, back, rfl, hline⟩ := List.eq_append_cons_of_mem hmem
      rw [readHeader?_line hline] at h
      obtain ⟨named, hnamed, h⟩ := Option.bind_eq_some_iff.mp h
      obtain ⟨found, hfound, h⟩ := Option.map_eq_some_iff.mp h
      obtain ⟨rfl, rfl⟩ := Prod.mk.inj h
      rw [List.isPrefixOf?_eq_some_iff_append_eq] at hnamed
      rw [List.isSuffixOf?_eq_some_iff_append_eq] at hfound
      have hheader : line ++ ['\n'] = header found := by
        rw [← hnamed, ← hfound, header, List.append_assoc]
      constructor
      · intro hname
        rw [header_eq, List.append_cancel_right_eq] at hheader
        exact hline (by simp [hheader, hname])
      · rw [← hheader, List.append_assoc, List.singleton_append]
    · rw [readHeader?_of_not_mem hmem] at h
      contradiction
  · rintro ⟨hname, rfl⟩
    have hopen : headerPrefix.isPrefixOf? (headerPrefix ++ name ++ headerClose ++ ['\n']) =
        some (name ++ headerSuffix) := by
      rw [List.isPrefixOf?_eq_some_iff_append_eq, headerSuffix_eq]
      simp
    have hclose : headerSuffix.isSuffixOf? (name ++ headerSuffix) = some name :=
      List.isSuffixOf?_eq_some_iff_append_eq.mpr rfl
    rw [header_eq, List.append_assoc, List.singleton_append,
      readHeader?_line (newline_not_mem_line hname), hopen, Option.bind_some, hclose,
      Option.map_some]

theorem readHeader?_eq_none_iff (source : Text) :
    readHeader? source = none ↔ ¬ HasHeader source := by
  rw [hasHeader_iff, Option.eq_none_iff_forall_ne_some]
  constructor
  · rintro h ⟨name, rest, hsource⟩
    exact h (name, rest) ((readHeader?_eq_some_iff source name rest).mpr hsource)
  · rintro h ⟨name, rest⟩ hread
    exact h ⟨name, rest, (readHeader?_eq_some_iff source name rest).mp hread⟩

/-- The first line gives the name, and what follows it the rest. -/
theorem header_append_inj {name other rest back : Text} (hname : '\n' ∉ name)
    (hother : '\n' ∉ other) (h : header name ++ rest = header other ++ back) :
    name = other ∧ rest = back := by
  have hread := (readHeader?_eq_some_iff _ name rest).mpr ⟨hname, rfl⟩
  rw [(readHeader?_eq_some_iff _ other back).mpr ⟨hother, h⟩] at hread
  obtain ⟨rfl, rfl⟩ := Prod.mk.inj (Option.some.inj hread)
  exact ⟨rfl, rfl⟩

/-! ### The closing line -/

/-- The closing line never shares a character with the header line. -/
theorem terminator_suffix_iff (name rest : Text) :
    terminator <:+ header name ++ rest ↔ terminator <:+ rest := by
  constructor
  · rintro ⟨front, h⟩
    rcases List.append_eq_append_iff.mp h with ⟨overlap, hheader, hend⟩ | ⟨back, -, hback⟩
    · -- The header ends in a brace and a newline, so only an empty overlap fits.
      have hlast : overlap.reverse ++ front.reverse =
          '\n' :: '\x7b' :: (headerPrefix ++ name ++ "[] = ".toList).reverse := by
        rw [← List.reverse_append, ← hheader]
        simp [header_eq, headerClose_eq]
      rcases overlap with _ | ⟨a, _ | ⟨b, _ | ⟨c, overlap⟩⟩⟩
      · exact ⟨[], hend⟩
      · simp_all [terminator_eq]
      · simp_all [terminator_eq]
      · simp_all [terminator_eq]
    · exact ⟨back, hback.symm⟩
  · intro h
    exact h.trans (List.suffix_append _ _)

end Declaration
end ByteEmbed
