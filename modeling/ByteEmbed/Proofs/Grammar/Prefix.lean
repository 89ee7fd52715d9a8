import ByteEmbed.Proofs.Grammar.Canonical

/-!
# Where a declaration ends

No token holds a brace.  So the closing line of an accepted text is where its first brace
behind the header line stands, whatever the name holds, and the text itself says where it
ends.  Cut short it lacks one of its outer lines, and with more text behind it that brace is
stray (`parse_cut_or_extended`).

The same holds of renderings in a row: the first of them is known from the text
(`render_append_inj`).
-/

namespace ByteEmbed

namespace Token

theorem brace_not_mem_text (token : Token) : '\x7d' ∉ token.text :=
  fun h => absurd (mem_alphabet_of_mem_text h) (by decide)

/-- No token begins with a brace. -/
theorem isStuck_brace (rest : Text) : IsStuck ('\x7d' :: rest) :=
  isStuck_nil.append_cons brace_not_mem_text rest

/-- Tokens at the front of a text end before its first brace. -/
theorem spell_prefix_of_brace {tokens : List Token} {rest front back : Text}
    (h : spell tokens ++ rest = front ++ '\x7d' :: back) : spell tokens <+: front := by
  rcases List.append_eq_append_iff.mp h with ⟨gap, hfront, -⟩ | ⟨gap, hspell, hgap⟩
  · exact ⟨gap, hfront.symm⟩
  · cases gap with
    | nil => rw [hspell, List.append_nil]
    | cons c gap =>
        obtain ⟨rfl, -⟩ := List.cons.inj hgap
        have hmem : '\x7d' ∈ spell tokens := by
          rw [hspell]
          simp
        exact absurd hmem (not_mem_spell brace_not_mem_text tokens)

end Token

namespace Declaration

/-! ### Renderings in a row -/

/-- What stands behind tokens and the closing line is determined by the text. -/
theorem spell_terminator_append_inj {tokens others : List Token} {rest back : Text}
    (h : Token.spell tokens ++ (terminator ++ rest) = Token.spell others ++ (terminator ++ back)) :
    tokens = others ∧ rest = back := by
  obtain ⟨htokens, htail⟩ :=
    Token.spell_append_inj h (Token.isStuck_brace _) (Token.isStuck_brace _)
  exact ⟨htokens, List.append_cancel_left htail⟩

/-- The first of some renderings in a row is determined by the text, and so is what
follows it. -/
theorem render_append_inj {d e : Declaration} {rest back : Text} (hd : '\n' ∉ d.name)
    (he : '\n' ∉ e.name) (h : render d ++ rest = render e ++ back) : d = e ∧ rest = back := by
  obtain ⟨name, bytes⟩ := d
  obtain ⟨other, others⟩ := e
  rw [render, render, ← spell_bodyTokens, ← spell_bodyTokens] at h
  simp only [List.append_assoc] at h
  obtain ⟨rfl, hbody⟩ := header_append_inj hd he h
  obtain ⟨htokens, hrest⟩ := spell_terminator_append_inj hbody
  have hbytes : bytes = others := by
    rw [← values_bodyTokens bytes, htokens, values_bodyTokens]
  exact ⟨by rw [hbytes], hrest⟩

/-! ### Texts that are cut short -/

theorem parse_of_cut_header {name front : Text} (hname : '\n' ∉ name)
    (h : front <+: headerPrefix ++ name ++ headerClose) :
    parse front = .error .missingHeader := by
  apply parse_of_not_hasHeader
  rintro ⟨hnewline, -, -⟩
  exact newline_not_mem_line hname (h.subset hnewline)

/-- Without its end, a closing line that follows tokens is none. -/
theorem not_terminated_of_cut {tokens : List Token} {front back : Text}
    (h : Token.spell tokens ++ terminator = front ++ back) (hback : back ≠ []) :
    ¬ terminator <:+ front := by
  rintro ⟨body, rfl⟩
  rw [List.append_assoc] at h
  obtain ⟨gap, rfl⟩ := Token.spell_prefix_of_brace h
  rw [List.append_assoc, List.append_cancel_left_eq] at h
  have hlength := congrArg List.length h
  have hpos := List.length_pos_iff.mpr hback
  simp only [List.length_append] at hlength
  omega

theorem parse_of_cut_body {name front back : Text} {tokens : List Token} (hname : '\n' ∉ name)
    (h : Token.spell tokens ++ terminator = front ++ back) (hback : back ≠ []) :
    parse (header name ++ front) = .error .missingTerminator :=
  parse_of_not_terminated hname (not_terminated_of_cut h hback)

/-- A cut through an accepted text is in its first line or behind that. -/
theorem parse_of_cut {source front back : Text} {d : Declaration} (h : parse source = .ok d)
    (hsource : source = front ++ back) (hback : back ≠ []) :
    (front <+: Text.firstLine source → parse front = .error .missingHeader) ∧
      (¬ front <+: Text.firstLine source → parse front = .error .missingTerminator) := by
  obtain ⟨tokens, ⟨hname, hspelled⟩, -⟩ := (parse_eq_ok_iff source d).mp h
  rw [List.append_assoc] at hspelled
  have hline : Text.firstLine source = headerPrefix ++ d.name ++ headerClose := by
    rw [hspelled, firstLine_header hname]
  rw [hline]
  refine ⟨parse_of_cut_header hname, ?_⟩
  intro hcut
  -- The cut is behind the newline of the header, so it is in the body or the closing line.
  have hheader : header d.name <+: front := by
    have hfront : front <+: source := ⟨back, hsource.symm⟩
    have hwhole : header d.name <+: source := ⟨_, hspelled.symm⟩
    rcases List.prefix_or_prefix_of_prefix hfront hwhole with hshort | hlong
    · rw [header_eq, List.prefix_concat_iff] at hshort
      rcases hshort with hfull | hpart
      · rw [hfull, header_eq]
      · exact absurd hpart hcut
    · exact hlong
  obtain ⟨body, rfl⟩ := hheader
  rw [hspelled, List.append_assoc, List.append_cancel_left_eq] at hsource
  exact parse_of_cut_body hname hsource hback

/-! ### Texts that go on -/

/-- What follows the closing line of an accepted text makes that line stray, or leaves the
text without a closing line. -/
theorem parse_of_extended {source extra : Text} {d : Declaration} (h : parse source = .ok d)
    (hextra : extra ≠ []) :
    (terminator <:+ source ++ extra →
      parse (source ++ extra) = .error (.unexpectedText (Text.byteLength source - 3))) ∧
      (¬ terminator <:+ source ++ extra →
        parse (source ++ extra) = .error .missingTerminator) := by
  obtain ⟨tokens, ⟨hname, rfl⟩, -⟩ := (parse_eq_ok_iff source d).mp h
  have hsplit : header d.name ++ Token.spell tokens ++ terminator ++ extra =
      header d.name ++ (Token.spell tokens ++ (terminator ++ extra)) := by
    simp only [List.append_assoc]
  rw [hsplit, terminator_suffix_iff]
  constructor
  · rintro ⟨body, hbody⟩
    -- The body now holds the tokens, and the old closing line behind them.
    obtain ⟨gap, rfl⟩ := Token.spell_prefix_of_brace hbody.symm
    rw [List.append_assoc, List.append_cancel_left_eq] at hbody
    cases gap with
    | nil =>
        exact absurd (List.self_eq_append_right.mp hbody) hextra
    | cons c gap =>
        obtain rfl : c = '\x7d' := (List.cons.inj hbody).1
        have hparse := parse_of_isStuck hname tokens (Token.isStuck_brace gap)
        rw [if_neg (List.cons_ne_nil _ gap)] at hparse
        rw [← hbody, ← List.append_assoc (Token.spell tokens), ← List.append_assoc, hparse,
          Text.byteLength_append, Text.byteLength_append, byteLength_terminator,
          Nat.add_sub_cancel]
  · intro hclose
    exact parse_of_not_terminated hname hclose

theorem exists_parse_extended_eq_error {source extra : Text} {d : Declaration}
    (h : parse source = .ok d) (hextra : extra ≠ []) :
    ∃ e, parse (source ++ extra) = .error e := by
  by_cases hclose : terminator <:+ source ++ extra
  · exact ⟨_, (parse_of_extended h hextra).1 hclose⟩
  · exact ⟨_, (parse_of_extended h hextra).2 hclose⟩

/-- An accepted text ends in its closing line, which is its last three bytes. -/
theorem exists_eq_append_terminator {source : Text} {d : Declaration}
    (h : parse source = .ok d) :
    ∃ front, source = front ++ terminator ∧
      Text.byteLength front = Text.byteLength source - 3 := by
  obtain ⟨tokens, hspelling, -⟩ := (parse_eq_ok_iff source d).mp h
  refine ⟨_, hspelling.source_eq, ?_⟩
  rw [hspelling.source_eq, Text.byteLength_append _ terminator, byteLength_terminator,
    Nat.add_sub_cancel]

/-- An accepted text is refused if it is cut short: for want of a header line if the cut is
before the end of its first line, and for want of a closing line otherwise.  It is refused as
well if anything follows it: where its own closing line begins, if the whole has one at its
end, and otherwise for want of one.  So no accepted text begins another, and two of them
in a row are none. -/
theorem parse_cut_or_extended {source : Text} {d : Declaration} (h : parse source = .ok d) :
    (∀ front back, source = front ++ back → back ≠ [] →
      (front <+: Text.firstLine source → parse front = .error .missingHeader) ∧
        (¬ front <+: Text.firstLine source → parse front = .error .missingTerminator)) ∧
      (∃ front, source = front ++ terminator ∧
        Text.byteLength front = Text.byteLength source - 3 ∧
        ∀ extra, extra ≠ [] →
          (terminator <:+ source ++ extra →
            parse (source ++ extra) = .error (.unexpectedText (Text.byteLength front))) ∧
          (¬ terminator <:+ source ++ extra →
            parse (source ++ extra) = .error .missingTerminator)) ∧
      (∀ other e, parse other = .ok e → source <+: other → source = other) ∧
      ∀ other e, parse other = .ok e →
        parse (source ++ other) = .error (.unexpectedText (Text.byteLength source - 3)) := by
  refine ⟨fun front back hsource hback => parse_of_cut h hsource hback, ?_, ?_, ?_⟩
  · obtain ⟨front, hfront, hlength⟩ := exists_eq_append_terminator h
    refine ⟨front, hfront, hlength, ?_⟩
    intro extra hextra
    rw [hlength]
    exact parse_of_extended h hextra
  · rintro other e hother ⟨extra, rfl⟩
    by_cases hextra : extra = []
    · rw [hextra, List.append_nil]
    · obtain ⟨cause, herror⟩ := exists_parse_extended_eq_error h hextra
      rw [herror] at hother
      cases hother
  · intro other e hother
    obtain ⟨front, rfl, -⟩ := exists_eq_append_terminator hother
    apply (parse_of_extended h (by simp [terminator_eq])).1
    rw [← List.append_assoc]
    exact List.suffix_append _ _

/-- The text of a declaration whose name imitates the close of a header and a closing
line. -/
def lookalike : Text :=
  "static uint8_t \x7d;[] = \x7b[] = \x7b\n\t0x2A,\n\x7d;\n".toList

theorem parse_cut_or_extended_lookalike :
    parse lookalike = .ok ⟨"\x7d;[] = \x7b".toList, [42]⟩ ∧
      parse "static uint8_t \x7d;[] = \x7b".toList = .error .missingHeader ∧
      parse "static uint8_t \x7d;[] = \x7b[] = \x7b\n\t0x2A,\n\x7d;".toList =
        .error .missingTerminator ∧
      parse (lookalike ++ "\x7d;".toList) = .error .missingTerminator ∧
      parse (lookalike ++ lookalike) = .error (.unexpectedText 37) := by
  have hparse : parse lookalike = .ok ⟨"\x7d;[] = \x7b".toList, [42]⟩ := by
    decide +kernel
  obtain ⟨hcut, ⟨front, -, -, hextended⟩, -, hrow⟩ := parse_cut_or_extended hparse
  refine ⟨hparse, ?_, ?_, ?_, ?_⟩
  · exact (hcut _ "[] = \x7b\n\t0x2A,\n\x7d;\n".toList (by decide) (by decide)).1 (by decide)
  · exact (hcut _ ['\n'] (by decide) (by decide)).2 (by decide)
  · exact (hextended _ (by decide)).2 (by decide)
  · have hlength : Text.byteLength lookalike - 3 = 37 := by decide
    rw [← hlength]
    exact hrow lookalike _ hparse

end Declaration
end ByteEmbed
