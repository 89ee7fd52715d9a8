import ByteEmbed.Proofs.Grammar.Parse

/-!
# Bodies one behind the other

The reader of a body keeps no state between tokens: what it makes of a text behind tokens is
what it makes of that text alone, with the values of the tokens put first and every offset
moved by their size (`parse_spell_append`).  An accepted body is a sequence of tokens, so
this is a law of accepted bodies, and `parse_bodies_append` states it in those terms, with
what it says about separators and about the place of an error.

The text that follows is arbitrary.  If it is refused, then at the same character however
much accepted text precedes it.
-/

namespace ByteEmbed

namespace Token

/-- Whether a token is a literal. -/
def isLiteral : Token → Bool
  | .separator _ => false
  | .literal _ _ => true

/-- The bytes of tokens are those of their literals. -/
theorem values_filter_isLiteral (tokens : List Token) :
    values (tokens.filter isLiteral) = values tokens := by
  induction tokens with
  | nil => rfl
  | cons token tokens ih =>
      cases token with
      | separator s =>
          rw [List.filter_cons_of_neg (by simp [isLiteral]), ih, values_separator_cons]
      | literal high low =>
          rw [List.filter_cons_of_pos rfl, values_literal_cons, ih, values_literal_cons]

end Token

namespace Declaration

/-- What is made of a body behind a text that reads as some bytes, given what is made of the
body alone: the bytes come first, and an offset moves by the size of the text. -/
def behind (bytes : List UInt8) (front : Text) :
    Except ParseError Declaration → Except ParseError Declaration
  | .ok d => .ok ⟨d.name, bytes ++ d.bytes⟩
  | .error (.unexpectedText offset) => .error (.unexpectedText (offset + front.byteLength))
  | .error .missingHeader => .error .missingHeader
  | .error .missingTerminator => .error .missingTerminator

/-- Tokens between the outer lines are accepted. -/
theorem parse_spell {name : Text} (hname : '\n' ∉ name) (tokens : List Token) :
    parse (header name ++ Token.spell tokens ++ terminator) =
      .ok ⟨name, Token.values tokens⟩ :=
  parse_eq_ok_of_isSpelling ⟨hname, rfl⟩

/-- A body that is accepted is a sequence of tokens, and the name is that of the header. -/
theorem exists_spell_of_parse {name body : Text} {d : Declaration} (hname : '\n' ∉ name)
    (h : parse (header name ++ body ++ terminator) = .ok d) :
    ∃ tokens, body = Token.spell tokens ∧ d = ⟨name, Token.values tokens⟩ := by
  obtain ⟨tokens, ⟨hnew, hsource⟩, hbytes⟩ := (parse_eq_ok_iff _ d).mp h
  rw [List.append_cancel_right_eq] at hsource
  obtain ⟨hsame, rfl⟩ := header_append_inj hname hnew hsource
  refine ⟨tokens, rfl, ?_⟩
  rw [hsame, hbytes]

/-- A body is tokens, or is refused where its tokens end. -/
theorem exists_outcome_body {name : Text} (hname : '\n' ∉ name) (body : Text) :
    (∃ tokens, body = Token.spell tokens) ∨
      ∃ tokens stray, body = Token.spell tokens ++ stray ∧ stray ≠ [] ∧
        parse (header name ++ body ++ terminator) = .error (.unexpectedText
          (Text.byteLength (header name ++ Token.spell tokens))) := by
  obtain ⟨tokens, stray, rfl, hstuck⟩ := Token.exists_spell_append body
  by_cases hstray : stray = []
  · exact .inl ⟨tokens, by rw [hstray, List.append_nil]⟩
  · refine .inr ⟨tokens, stray, rfl, hstray, ?_⟩
    rw [parse_of_isStuck hname tokens hstuck, if_neg hstray, Text.byteLength_append]

/-- A body behind tokens is read as it is alone. -/
theorem parse_spell_append {name : Text} (hname : '\n' ∉ name) (tokens : List Token)
    (back : Text) :
    parse (header name ++ (Token.spell tokens ++ back) ++ terminator) =
      behind (Token.values tokens) (Token.spell tokens)
        (parse (header name ++ back ++ terminator)) := by
  -- The body itself is tokens with a stuck rest, and tokens behind tokens are tokens.
  obtain ⟨others, rest, rfl, hrest⟩ := Token.exists_spell_append back
  rw [← List.append_assoc (Token.spell tokens), ← Token.spell_append,
    parse_of_isStuck hname _ hrest, parse_of_isStuck hname _ hrest]
  by_cases hnil : rest = []
  · rw [if_pos hnil, if_pos hnil, Token.values_append]
    rfl
  · rw [if_neg hnil, if_neg hnil, behind, Token.spell_append, Text.byteLength_append,
      Nat.add_right_comm, Nat.add_assoc]

/-- Accepted text in front of a body puts its bytes before those of the body and moves the
offset of an error by its own size.  So the bytes are those of the literals in their order,
whatever separates them, and a body that is refused is refused at the same text however
much accepted text precedes it. -/
theorem parse_bodies_append {name front : Text} {d : Declaration} (hname : '\n' ∉ name)
    (h : parse (header name ++ front ++ terminator) = .ok d) :
    (∀ back, parse (header name ++ front ++ back ++ terminator) =
        behind d.bytes front (parse (header name ++ back ++ terminator))) ∧
      (∀ back,
        (∃ e, parse (header name ++ back ++ terminator) = .ok e ∧
          parse (header name ++ front ++ back ++ terminator) =
            .ok ⟨name, d.bytes ++ e.bytes⟩) ∨
        ∃ read stray, back = read ++ stray ∧ stray ≠ [] ∧
          parse (header name ++ back ++ terminator) =
            .error (.unexpectedText (Text.byteLength (header name ++ read))) ∧
          parse (header name ++ front ++ back ++ terminator) =
            .error (.unexpectedText (Text.byteLength (header name ++ front ++ read)))) ∧
      ∀ tokens others : List Token,
        tokens.filter Token.isLiteral = others.filter Token.isLiteral →
        parse (header name ++ Token.spell tokens ++ terminator) =
          parse (header name ++ Token.spell others ++ terminator) := by
  obtain ⟨tokens, rfl, rfl⟩ := exists_spell_of_parse hname h
  have happend : ∀ back, parse (header name ++ Token.spell tokens ++ back ++ terminator) =
      behind (Token.values tokens) (Token.spell tokens)
        (parse (header name ++ back ++ terminator)) := by
    intro back
    rw [List.append_assoc (header name)]
    exact parse_spell_append hname tokens back
  refine ⟨happend, ?_, ?_⟩
  · intro back
    rw [happend]
    rcases exists_outcome_body hname back with
      ⟨others, rfl⟩ | ⟨others, stray, hback, hstray, herror⟩
    · refine .inl ⟨_, parse_spell hname others, ?_⟩
      rw [parse_spell hname others]
      rfl
    · refine .inr ⟨Token.spell others, stray, hback, hstray, herror, ?_⟩
      rw [herror, behind]
      simp only [Text.byteLength_append]
      rw [Nat.add_right_comm]
  · intro tokens others hliterals
    rw [parse_spell hname, parse_spell hname, ← Token.values_filter_isLiteral tokens, hliterals,
      Token.values_filter_isLiteral]

/-- A literal behind the seam that lacks a digit is refused where it stands: the offset moves
by the size of what precedes it. -/
theorem parse_bodies_append_seam :
    parse (header ['a'] ++ "\t0x01,".toList ++ terminator) = .ok ⟨['a'], [1]⟩ ∧
      parse (header ['a'] ++ " 0x0,\n".toList ++ terminator) = .error (.unexpectedText 24) ∧
      parse (header ['a'] ++ "\t0x01,".toList ++ " 0x0,\n".toList ++ terminator) =
        .error (.unexpectedText 30) ∧
      parse (header ['a'] ++ "\t0x01,".toList ++ " 0x02,\n".toList ++ terminator) =
        .ok ⟨['a'], [1, 2]⟩ := by
  have hname : '\n' ∉ ['a'] := by decide
  have hfront : parse (header ['a'] ++ "\t0x01,".toList ++ terminator) = .ok ⟨['a'], [1]⟩ := by
    decide +kernel
  have hstray : parse (header ['a'] ++ " 0x0,\n".toList ++ terminator) =
      .error (.unexpectedText 24) := by
    decide +kernel
  have hback : parse (header ['a'] ++ " 0x02,\n".toList ++ terminator) = .ok ⟨['a'], [2]⟩ := by
    decide +kernel
  obtain ⟨happend, -, -⟩ := parse_bodies_append hname hfront
  refine ⟨hfront, hstray, ?_, ?_⟩
  · rw [happend, hstray]
    rfl
  · rw [happend, hback]
    rfl

end Declaration
end ByteEmbed
