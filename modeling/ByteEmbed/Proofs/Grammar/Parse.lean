import ByteEmbed.Proofs.Grammar.Body
import ByteEmbed.Proofs.Grammar.Header

/-!
# What the parser accepts and where it refuses

A text is accepted exactly when it is spelled by a name and tokens between the two
outer lines, and then it is so in one way only.  A refused text lacks the header
line, or has it and lacks the closing line, or has both and something in the
body that begins no token.  In the last case the offset is that of the first
such place: what precedes it would be accepted if it were closed there.

`ReadsAs` lists the four ways in which a text can be shaped, each with the result
that belongs to it, and `readsAs_parse` says that the parser gives that result.  All
else is read off by cases on it, with the uniqueness of tokens.
-/

namespace ByteEmbed
namespace Declaration

/-- Whether a text is the header line of a name, tokens, and the closing line. -/
structure IsSpelling (source name : Text) (tokens : List Token) : Prop where
  newline_not_mem : '\n' ∉ name
  source_eq : source = header name ++ Token.spell tokens ++ terminator

/-- A text is spelled in one way only. -/
theorem IsSpelling.unique {source name other : Text} {tokens others : List Token}
    (h : IsSpelling source name tokens) (h' : IsSpelling source other others) :
    name = other ∧ tokens = others := by
  have hsource := h.source_eq.symm.trans h'.source_eq
  rw [List.append_assoc, List.append_assoc] at hsource
  obtain ⟨rfl, hbody⟩ := header_append_inj h.newline_not_mem h'.newline_not_mem hsource
  rw [List.append_cancel_right_eq] at hbody
  exact ⟨rfl, Token.spell_injective hbody⟩

theorem parse_of_not_hasHeader {source : Text} (h : ¬ HasHeader source) :
    parse source = .error .missingHeader := by
  rw [parse, (readHeader?_eq_none_iff source).mpr h]

theorem parse_of_not_terminated {name rest : Text} (hname : '\n' ∉ name)
    (h : ¬ terminator <:+ rest) :
    parse (header name ++ rest) = .error .missingTerminator := by
  have hread := (readHeader?_eq_some_iff (header name ++ rest) name rest).mpr ⟨hname, rfl⟩
  have hclose : terminator.isSuffixOf? rest = none := by
    rw [Option.eq_none_iff_forall_ne_some]
    intro body hbody
    exact h ⟨body, List.isSuffixOf?_eq_some_iff_append_eq.mp hbody⟩
  rw [parse, hread]
  dsimp only
  rw [hclose]

/-- Between the two outer lines the parser reads a body. -/
theorem parse_of_body {name : Text} (hname : '\n' ∉ name) (body : Text) :
    parse (header name ++ body ++ terminator) =
      (readBody (Text.byteLength (header name)) [] body).map (Declaration.mk name) := by
  have hread := (readHeader?_eq_some_iff (header name ++ (body ++ terminator)) name
    (body ++ terminator)).mpr ⟨hname, rfl⟩
  have hclose : terminator.isSuffixOf? (body ++ terminator) = some body :=
    List.isSuffixOf?_eq_some_iff_append_eq.mpr rfl
  rw [List.append_assoc, parse, hread]
  dsimp only
  rw [hclose]
  dsimp only
  cases readBody (Text.byteLength (header name)) [] body <;> rfl

/-- It reads the tokens of the body, or points at the text that begins with none. -/
theorem parse_of_isStuck {name rest : Text} (hname : '\n' ∉ name) (tokens : List Token)
    (hrest : Token.IsStuck rest) :
    parse (header name ++ (Token.spell tokens ++ rest) ++ terminator) =
      if rest = [] then .ok ⟨name, Token.values tokens⟩
      else .error (.unexpectedText
        (Text.byteLength (header name) + Text.byteLength (Token.spell tokens))) := by
  rw [parse_of_body hname, readBody_spell_append _ _ _ hrest]
  split <;> rfl

/-- The shapes of a text and what the parser makes of them. -/
inductive ReadsAs (source : Text) : Except ParseError Declaration → Prop where
  | noHeader (hheader : ¬ HasHeader source) : ReadsAs source (.error .missingHeader)
  | noTerminator (hheader : HasHeader source) (hclose : ¬ terminator <:+ source) :
      ReadsAs source (.error .missingTerminator)
  | accepted {name : Text} {tokens : List Token} (hspelling : IsSpelling source name tokens) :
      ReadsAs source (.ok ⟨name, Token.values tokens⟩)
  | stray {name rest : Text} {c : Char} {tokens : List Token} (hname : '\n' ∉ name)
      (hstuck : Token.IsStuck (c :: rest))
      (hsource : source = header name ++ (Token.spell tokens ++ c :: rest) ++ terminator) :
      ReadsAs source (.error (.unexpectedText
        (Text.byteLength (header name) + Text.byteLength (Token.spell tokens))))

theorem readsAs_parse (source : Text) : ReadsAs source (parse source) := by
  by_cases hheader : HasHeader source
  · obtain ⟨name, rest, hname, rfl⟩ := (hasHeader_iff source).mp hheader
    by_cases hclose : terminator <:+ header name ++ rest
    · -- Both lines are there, and the body is tokens with a stuck rest.
      obtain ⟨body, rfl⟩ := (terminator_suffix_iff name rest).mp hclose
      obtain ⟨tokens, stuck, rfl, hstuck⟩ := Token.exists_spell_append body
      rw [← List.append_assoc, parse_of_isStuck hname tokens hstuck]
      cases stuck with
      | nil =>
          rw [if_pos rfl, List.append_nil]
          exact .accepted ⟨hname, rfl⟩
      | cons c stuck =>
          rw [if_neg (List.cons_ne_nil c stuck)]
          exact .stray hname hstuck rfl
    · have hrest : ¬ terminator <:+ rest := by
        rw [terminator_suffix_iff] at hclose
        exact hclose
      rw [parse_of_not_terminated hname hrest]
      exact .noTerminator hheader hclose
  · rw [parse_of_not_hasHeader hheader]
    exact .noHeader hheader

/-! ### Acceptance -/

theorem parse_eq_ok_of_isSpelling {source name : Text} {tokens : List Token}
    (h : IsSpelling source name tokens) :
    parse source = .ok ⟨name, Token.values tokens⟩ := by
  have hparse := parse_of_isStuck h.newline_not_mem tokens Token.isStuck_nil
  rw [if_pos rfl, List.append_nil] at hparse
  rw [h.source_eq, hparse]

theorem parse_eq_ok_iff (source : Text) (d : Declaration) :
    parse source = .ok d ↔
      ∃ tokens, IsSpelling source d.name tokens ∧ Token.values tokens = d.bytes := by
  constructor
  · intro h
    have hreads := readsAs_parse source
    rw [h] at hreads
    cases hreads with
    | accepted hspelling => exact ⟨_, hspelling, rfl⟩
  · rintro ⟨tokens, hspelling, hbytes⟩
    rw [parse_eq_ok_of_isSpelling hspelling, hbytes]

/-- The parser accepts exactly the texts of its grammar, reads their literals in
order, and every accepted text is spelled in one way only. -/
theorem parse_eq_ok_iff_spelled_uniquely (source name : Text) (bytes : List UInt8) :
    (parse source = .ok ⟨name, bytes⟩ ↔
        ∃ tokens, IsSpelling source name tokens ∧ Token.values tokens = bytes) ∧
      ((∃ d, parse source = .ok d) ↔
        ∃! spelling : Text × List Token, IsSpelling source spelling.1 spelling.2) := by
  refine ⟨parse_eq_ok_iff source ⟨name, bytes⟩, ?_⟩
  constructor
  · rintro ⟨d, h⟩
    obtain ⟨tokens, hspelling, -⟩ := (parse_eq_ok_iff source d).mp h
    refine ⟨(d.name, tokens), hspelling, ?_⟩
    rintro ⟨other, others⟩ hother
    obtain ⟨rfl, rfl⟩ := hspelling.unique hother
    rfl
  · rintro ⟨spelling, hspelling, -⟩
    exact ⟨_, parse_eq_ok_of_isSpelling hspelling⟩

/-! ### Refusal -/

theorem parse_eq_missingHeader_iff (source : Text) :
    parse source = .error .missingHeader ↔ ¬ HasHeader source := by
  constructor
  · intro h
    have hreads := readsAs_parse source
    rw [h] at hreads
    cases hreads with
    | noHeader hheader => exact hheader
  · exact parse_of_not_hasHeader

theorem parse_eq_missingTerminator_iff (source : Text) :
    parse source = .error .missingTerminator ↔
      HasHeader source ∧ ¬ terminator <:+ source := by
  constructor
  · intro h
    have hreads := readsAs_parse source
    rw [h] at hreads
    cases hreads with
    | noTerminator hheader hclose => exact ⟨hheader, hclose⟩
  · rintro ⟨hheader, hclose⟩
    obtain ⟨name, rest, hname, rfl⟩ := (hasHeader_iff source).mp hheader
    rw [terminator_suffix_iff] at hclose
    exact parse_of_not_terminated hname hclose

/-- Whether an offset is that of the first stray character in the body of a text:
what precedes it is accepted with the name of the text if it is closed there, and
neither a separator nor a literal that ends within the body stands at it. -/
def IsFirstStray (source : Text) (offset : Nat) : Prop :=
  ∃ front c rest, source = front ++ c :: rest ++ terminator ∧
    Text.byteLength front = offset ∧
    (∃ d, parse (front ++ terminator) = .ok d ∧
      Text.firstLine source = headerPrefix ++ d.name ++ headerClose) ∧
    c ∉ ['\t', ' ', '\n'] ∧
    ∀ high low, ¬ (Token.literal high low).text <+: c :: rest

theorem not_mem_separators_iff (c : Char) :
    c ∉ ['\t', ' ', '\n'] ↔ ∀ s : Separator, c ≠ s.char := by
  constructor
  · rintro h s rfl
    cases s <;> simp [Separator.char] at h
  · intro h hmem
    simp only [List.mem_cons, List.not_mem_nil, or_false] at hmem
    rcases hmem with rfl | rfl | rfl
    · exact h .tab rfl
    · exact h .space rfl
    · exact h .newline rfl

/-- The parser points at a first stray character. -/
theorem parse_of_isFirstStray {source : Text} {offset : Nat}
    (h : IsFirstStray source offset) :
    parse source = .error (.unexpectedText offset) := by
  obtain ⟨front, c, rest, rfl, rfl, ⟨d, hfront, -⟩, hc, hliteral⟩ := h
  obtain ⟨tokens, hspelling, -⟩ := (parse_eq_ok_iff _ d).mp hfront
  have hstuck : Token.IsStuck (c :: rest) :=
    (Token.isStuck_cons_iff c rest).mpr ⟨(not_mem_separators_iff c).mp hc, hliteral⟩
  -- What precedes the stray character is itself a header line and tokens.
  obtain rfl : front = header d.name ++ Token.spell tokens :=
    List.append_cancel_right hspelling.source_eq
  have hparse := parse_of_isStuck hspelling.newline_not_mem tokens hstuck
  rw [if_neg (List.cons_ne_nil c rest)] at hparse
  rw [Text.byteLength_append, ← hparse]
  simp

theorem isFirstStray_of_parse {source : Text} {offset : Nat}
    (h : parse source = .error (.unexpectedText offset)) :
    HasHeader source ∧ terminator <:+ source ∧ IsFirstStray source offset := by
  have hreads := readsAs_parse source
  rw [h] at hreads
  cases hreads with
  | @stray name rest c tokens hname hstuck hsource =>
      obtain ⟨hseparator, hliteral⟩ := (Token.isStuck_cons_iff c rest).mp hstuck
      have hheader : HasHeader source := by
        rw [hasHeader_iff, hsource, List.append_assoc]
        exact ⟨name, _, hname, rfl⟩
      have hfirst : Text.firstLine source = headerPrefix ++ name ++ headerClose := by
        rw [hsource, List.append_assoc, firstLine_header hname]
      have hfront : parse (header name ++ Token.spell tokens ++ terminator) =
          .ok ⟨name, Token.values tokens⟩ :=
        parse_eq_ok_of_isSpelling ⟨hname, rfl⟩
      refine ⟨hheader, ⟨_, hsource.symm⟩, header name ++ Token.spell tokens, c, rest, ?_, ?_,
        ⟨_, hfront, hfirst⟩, (not_mem_separators_iff c).mpr hseparator, hliteral⟩
      · rw [hsource, ← List.append_assoc (header name)]
      · rw [Text.byteLength_append]

/-- The three errors of the parser tell apart the texts that it refuses, and the
offset of the last one is the only first stray character. -/
theorem parse_eq_error_iff (source : Text) :
    (parse source = .error .missingHeader ↔ ¬ HasHeader source) ∧
      (parse source = .error .missingTerminator ↔
        HasHeader source ∧ ¬ terminator <:+ source) ∧
      (∀ offset, parse source = .error (.unexpectedText offset) ↔
        HasHeader source ∧ terminator <:+ source ∧ IsFirstStray source offset) ∧
      ∀ offset other, IsFirstStray source offset → IsFirstStray source other →
        offset = other := by
  refine ⟨parse_eq_missingHeader_iff source, parse_eq_missingTerminator_iff source, ?_, ?_⟩
  · intro offset
    constructor
    · exact isFirstStray_of_parse
    · rintro ⟨-, -, hstray⟩
      exact parse_of_isFirstStray hstray
  · intro offset other hoffset hother
    have hparse := parse_of_isFirstStray hoffset
    rw [parse_of_isFirstStray hother] at hparse
    exact (ParseError.unexpectedText.inj (Except.error.inj hparse)).symm

end Declaration
end ByteEmbed
