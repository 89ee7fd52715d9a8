import ByteEmbed.Declaration.Reformat
import ByteEmbed.Proofs.Grammar.RoundTrip

/-!
# Renderings as canonical forms

Two declarations are never rendered alike.  A name may imitate any part of the
format, so this cannot be read off the parser; but no token holds a bracket, and so
the last bracket of a rendering is that of its header, whatever stands in the name.

Among the texts that are read as one declaration, its rendering is the one that
reformatting gives, and the only one that reformatting leaves as it is.
-/

namespace ByteEmbed

namespace Token

/-- What no token holds stands in no sequence of tokens. -/
theorem not_mem_spell {c : Char} (h : ∀ token : Token, c ∉ token.text) (tokens : List Token) :
    c ∉ spell tokens := by
  intro hmem
  obtain ⟨token, -, hc⟩ := List.mem_flatMap.mp hmem
  exact h token hc

end Token

namespace Declaration

/-! ### Renderings tell declarations apart -/

theorem bracket_not_mem_body (bytes : List UInt8) : '[' ∉ body bytes := by
  rw [← spell_bodyTokens]
  exact Token.not_mem_spell bracket_not_mem_text (bodyTokens bytes)

theorem body_injective : Function.Injective body := by
  intro bytes others h
  rw [← spell_bodyTokens, ← spell_bodyTokens] at h
  rw [← values_bodyTokens bytes, Token.spell_injective h, values_bodyTokens]

/-- A text is cut at the last occurrence of a character in one way only. -/
theorem append_cons_inj_of_not_mem {c : Char} {front other back rest : Text}
    (hback : c ∉ back) (hrest : c ∉ rest) (h : front ++ c :: back = other ++ c :: rest) :
    front = other ∧ back = rest := by
  rcases List.append_eq_append_iff.mp h with ⟨gap, hother, hgap⟩ | ⟨gap, hfront, hgap⟩
  · cases gap with
    | nil => exact ⟨by simp [hother], (List.cons.inj hgap).2⟩
    | cons d gap => exact absurd (by simp [(List.cons.inj hgap).2]) hback
  · cases gap with
    | nil => exact ⟨by simp [hfront], (List.cons.inj hgap).2.symm⟩
    | cons d gap => exact absurd (by simp [(List.cons.inj hgap).2]) hrest

/-- Equal renderings have equal names and equal bytes, whatever the names hold. -/
theorem render_eq_render_iff (name other : Text) (bytes others : List UInt8) :
    render ⟨name, bytes⟩ = render ⟨other, others⟩ ↔ name = other ∧ bytes = others := by
  constructor
  · intro h
    have hsuffix : headerSuffix = '[' :: "] = \x7b\n".toList := by decide
    -- Behind the bracket of the header there is no other one.
    have hclear : ∀ bytes, '[' ∉ "] = \x7b\n".toList ++ body bytes := by
      intro bytes hmem
      rcases List.mem_append.mp hmem with hmem | hmem
      · exact absurd hmem (by decide)
      · exact bracket_not_mem_body bytes hmem
    have hopen := List.append_cancel_right h
    have hcut : name ++ '[' :: ("] = \x7b\n".toList ++ body bytes) =
        other ++ '[' :: ("] = \x7b\n".toList ++ body others) := by
      simpa [header, hsuffix] using hopen
    obtain ⟨hname, htail⟩ := append_cons_inj_of_not_mem (hclear bytes) (hclear others) hcut
    exact ⟨hname, body_injective (List.append_cancel_left htail)⟩
  · rintro ⟨rfl, rfl⟩
    rfl

/-! ### Reformatting -/

theorem newline_not_mem_of_parse {source : Text} {d : Declaration} (h : parse source = .ok d) :
    '\n' ∉ d.name := by
  obtain ⟨tokens, hspelling, -⟩ := (parse_eq_ok_iff source d).mp h
  exact hspelling.newline_not_mem

/-- What a text is read as is read again from its rendering. -/
theorem parse_render_of_parse {source : Text} {d : Declaration} (h : parse source = .ok d) :
    parse (render d) = .ok d :=
  parse_render_of_not_mem (newline_not_mem_of_parse h)

theorem reformat_of_parse {source : Text} {d : Declaration} (h : parse source = .ok d) :
    reformat source = .ok (render d) := by
  rw [reformat, h]
  rfl

theorem reformat_of_parse_error {source : Text} {e : ParseError} (h : parse source = .error e) :
    reformat source = .error e := by
  rw [reformat, h]
  rfl

theorem bind_reformat_parse (source : Text) :
    (reformat source).bind parse = parse source := by
  cases h : parse source with
  | error e =>
      rw [reformat_of_parse_error h]
      rfl
  | ok d =>
      rw [reformat_of_parse h]
      exact parse_render_of_parse h

/-- Reformatting depends on what is read alone, and tells apart what is read
differently. -/
theorem reformat_eq_iff (source other : Text) :
    reformat source = reformat other ↔ parse source = parse other := by
  constructor
  · intro h
    rw [← bind_reformat_parse source, h, bind_reformat_parse]
  · intro h
    rw [reformat, h, reformat]

theorem reformat_eq_self_iff (source : Text) :
    reformat source = .ok source ↔
      ∃ name bytes, '\n' ∉ name ∧ source = render ⟨name, bytes⟩ := by
  constructor
  · intro h
    cases hparse : parse source with
    | error e =>
        rw [reformat_of_parse_error hparse] at h
        contradiction
    | ok d =>
        rw [reformat_of_parse hparse] at h
        exact ⟨d.name, d.bytes, newline_not_mem_of_parse hparse, (Except.ok.inj h).symm⟩
  · rintro ⟨name, bytes, hname, rfl⟩
    exact reformat_of_parse (parse_render_of_not_mem hname)

/-- A text and its reformatting are read alike, so reformatting again changes nothing;
texts are reformatted alike exactly if they are read alike; and those that stay as they
are are the renderings of names without a newline. -/
theorem reformat_canonical (source other : Text) :
    (reformat source).bind parse = parse source ∧
      (reformat source).bind reformat = reformat source ∧
      (reformat source = reformat other ↔ parse source = parse other) ∧
      (reformat source = .ok source ↔
        ∃ name bytes, '\n' ∉ name ∧ source = render ⟨name, bytes⟩) := by
  refine ⟨bind_reformat_parse source, ?_, reformat_eq_iff source other,
    reformat_eq_self_iff source⟩
  cases h : parse source with
  | error e =>
      rw [reformat_of_parse_error h]
      rfl
  | ok d =>
      rw [reformat_of_parse h]
      exact reformat_of_parse (parse_render_of_parse h)

end Declaration
end ByteEmbed
