import ByteEmbed.Declaration.Render
import ByteEmbed.Proofs.Grammar.Parse

/-!
# Reading back what was rendered

The rows of a rendered declaration are tokens, so a name without a newline is read
back with its bytes.  A name that holds a newline ends the header line early, and
the reader takes what stands before that newline for the whole line.  Either that
is no header, or the body begins inside the name; then some character up to the
bracket of the real header is stray, because no token holds a bracket.
-/

namespace ByteEmbed

namespace Token

/-- The literal of a byte as a token. -/
def ofByte (value : UInt8) : Token :=
  .literal
    ⟨value.toNat / 16, Nat.div_lt_of_lt_mul value.toNat_lt⟩
    ⟨value.toNat % 16, Nat.mod_lt _ (by decide)⟩

theorem text_ofByte (value : UInt8) : (ofByte value).text = Literal.text value := by
  simp [ofByte, text, Literal.text, digit_eq]

theorem value?_ofByte (value : UInt8) : (ofByte value).value? = some value := by
  have hvalue : 16 * (value.toNat / 16) + value.toNat % 16 = value.toNat := by omega
  simp [ofByte, value?, hvalue]

theorem values_map_ofByte (row : List UInt8) : values (row.map ofByte) = row := by
  simp [values, List.filterMap_map, value?_ofByte]

theorem spell_intersperse (token : Token) (tokens : List Token) :
    spell (tokens.intersperse token) = token.text.intercalate (tokens.map text) := by
  induction tokens with
  | nil => rfl
  | cons first tokens ih =>
      cases tokens with
      | nil => simp
      | cons second tokens =>
          rw [List.intersperse_cons_cons, spell_cons, spell_cons, ih]
          simp

theorem values_intersperse (s : Separator) (tokens : List Token) :
    values (tokens.intersperse (.separator s)) = values tokens := by
  induction tokens with
  | nil => rfl
  | cons first tokens ih =>
      cases tokens with
      | nil => rfl
      | cons second tokens =>
          have hcons : ∀ rest, values (first :: rest) = values [first] ++ values rest := by
            intro rest
            rw [← values_append, List.singleton_append]
          rw [List.intersperse_cons_cons, hcons, values_separator_cons, ih, ← hcons]

/-- Every byte takes room in the text of its literal. -/
theorem length_values_le (tokens : List Token) :
    (values tokens).length ≤ (spell tokens).byteLength := by
  induction tokens with
  | nil => exact Nat.le_refl 0
  | cons token tokens ih =>
      rw [spell_cons, Text.byteLength_append]
      cases token with
      | separator s =>
          rw [values_separator_cons]
          exact Nat.le_add_left_of_le ih
      | literal high low =>
          rw [values_literal_cons, List.length_cons, text, Text.byteLength_cons]
          have hzero : Char.utf8Size '0' = 1 := rfl
          omega

end Token

namespace Declaration

/-- The tokens of a row. -/
def rowTokens (row : List UInt8) : List Token :=
  .separator .tab :: (row.map Token.ofByte).intersperse (.separator .space) ++
    [.separator .newline]

/-- The tokens of a rendered body. -/
def bodyTokens (bytes : List UInt8) : List Token :=
  (rows bytes).flatMap rowTokens

theorem spell_rowTokens (row : List UInt8) : Token.spell (rowTokens row) = rowText row := by
  have htext : Token.text ∘ Token.ofByte = Literal.text := funext Token.text_ofByte
  rw [rowTokens, Token.spell_append, Token.spell_cons, Token.spell_intersperse, List.map_map,
    htext]
  rfl

theorem values_rowTokens (row : List UInt8) : Token.values (rowTokens row) = row := by
  rw [rowTokens, Token.values_append, Token.values_separator_cons, Token.values_intersperse,
    Token.values_map_ofByte]
  simp

/-- Cutting bytes into rows loses none of them. -/
theorem flatten_rows (bytes : List UInt8) : (rows bytes).flatten = bytes := by
  fun_induction rows bytes with
  | case1 => rfl
  | case2 b rest ih => rw [List.flatten_cons, ih, List.take_append_drop]

theorem spell_bodyTokens (bytes : List UInt8) :
    Token.spell (bodyTokens bytes) = body bytes := by
  rw [bodyTokens, body]
  induction rows bytes with
  | nil => rfl
  | cons row rows ih =>
      rw [List.flatMap_cons, List.flatMap_cons, Token.spell_append, spell_rowTokens, ih]

theorem values_bodyTokens (bytes : List UInt8) : Token.values (bodyTokens bytes) = bytes := by
  conv_rhs => rw [← flatten_rows bytes]
  rw [bodyTokens]
  induction rows bytes with
  | nil => rfl
  | cons row rows ih =>
      rw [List.flatMap_cons, List.flatten_cons, Token.values_append, values_rowTokens, ih]

/-- A declaration is longer than the bytes that it declares. -/
theorem length_lt_length_encode_render (d : Declaration) :
    d.bytes.length < (render d).encode.length := by
  have hbody := Token.length_values_le (bodyTokens d.bytes)
  rw [values_bodyTokens, spell_bodyTokens] at hbody
  rw [Text.length_encode, render, Text.byteLength_append, Text.byteLength_append,
    byteLength_header]
  omega

/-- A declaration whose name holds no newline is rendered in the grammar of the
parser. -/
theorem isSpelling_render {d : Declaration} (h : '\n' ∉ d.name) :
    IsSpelling (render d) d.name (bodyTokens d.bytes) := by
  refine ⟨h, ?_⟩
  rw [render, spell_bodyTokens]

theorem parse_render_of_not_mem {d : Declaration} (h : '\n' ∉ d.name) :
    parse (render d) = .ok d := by
  rw [parse_eq_ok_of_isSpelling (isSpelling_render h), values_bodyTokens]

/-! ### Names that hold a newline -/

theorem bracket_not_mem_text (token : Token) : '[' ∉ token.text :=
  fun h => absurd (Token.mem_alphabet_of_mem_text h) (by decide)

theorem byteLength_headerLine (line : Text) :
    Text.byteLength (headerPrefix ++ line ++ ['\n']) =
      Text.byteLength headerPrefix + Text.byteLength line + 1 := by
  have hnewline : Text.byteLength ['\n'] = 1 := by decide
  rw [Text.byteLength_append, Text.byteLength_append, hnewline]

/-- The line that a name with a newline leaves is a header exactly when the name
closes one. -/
theorem hasHeader_of_line_iff {line : Text} (hline : '\n' ∉ line) (rest : Text) :
    HasHeader (headerPrefix ++ line ++ '\n' :: rest) ↔ headerClose <:+ line := by
  have hwhole : '\n' ∉ headerPrefix ++ line := by
    have hopen : '\n' ∉ headerPrefix := by decide
    simp [hline, hopen]
  rw [HasHeader, firstLine_append hwhole]
  constructor
  · intro h
    obtain ⟨name, hname⟩ := exists_name_of_prefix_of_suffix h.2.1 h.2.2
    rw [List.append_assoc, List.append_cancel_left_eq] at hname
    exact ⟨name, hname.symm⟩
  · intro h
    exact ⟨by simp, List.prefix_append _ _, h.trans (List.suffix_append _ _)⟩

theorem render_of_newline (line after : Text) (bytes : List UInt8) :
    render ⟨line ++ '\n' :: after, bytes⟩ =
      headerPrefix ++ line ++ '\n' :: (after ++ headerSuffix ++ body bytes ++ terminator) := by
  simp [render, header]

/-- A body that begins inside the name is stray at the bracket of the real header,
if not before. -/
theorem parse_render_of_close {line : Text} (hline : '\n' ∉ line)
    (hclose : headerClose <:+ line) (after : Text) (bytes : List UInt8) :
    ∃ offset, parse (render ⟨line ++ '\n' :: after, bytes⟩) =
        .error (.unexpectedText offset) ∧
      Text.byteLength headerPrefix + Text.byteLength line + 1 ≤ offset ∧
      offset ≤ Text.byteLength headerPrefix + Text.byteLength line + 1 +
        Text.byteLength after := by
  obtain ⟨name, rfl⟩ := hclose
  have hname : '\n' ∉ name := fun h => hline (List.mem_append_left _ h)
  -- The tokens that the rest of the name begins with are read as the body.
  obtain ⟨tokens, stuck, rfl, hstuck⟩ := Token.exists_spell_append after
  -- No token reaches across the bracket of the real header.
  have hrest : Token.IsStuck (stuck ++ headerSuffix ++ body bytes) := by
    rw [List.append_assoc]
    exact hstuck.append_cons bracket_not_mem_text _
  have hlength := byteLength_headerLine (name ++ headerClose)
  rw [← List.append_assoc, ← header_eq] at hlength
  have hparse := parse_of_isStuck hname tokens hrest
  rw [if_neg (by simp [headerSuffix_eq])] at hparse
  refine ⟨Text.byteLength (header name) + Text.byteLength (Token.spell tokens), ?_, ?_, ?_⟩
  · rw [render_of_newline, ← hparse, header_eq]
    simp
  · omega
  · have hafter := Text.byteLength_append (Token.spell tokens) stuck
    omega

theorem parse_render_of_not_close {line : Text} (hline : '\n' ∉ line)
    (hclose : ¬ headerClose <:+ line) (after : Text) (bytes : List UInt8) :
    parse (render ⟨line ++ '\n' :: after, bytes⟩) = .error .missingHeader := by
  apply parse_of_not_hasHeader
  rw [render_of_newline, hasHeader_of_line_iff hline]
  exact hclose

theorem parse_render_of_mem {name : Text} (h : '\n' ∈ name) (bytes : List UInt8) :
    ∃ e, parse (render ⟨name, bytes⟩) = .error e ∧ e ≠ .missingTerminator := by
  obtain ⟨line, after, rfl, hline⟩ := List.eq_append_cons_of_mem h
  by_cases hclose : headerClose <:+ line
  · obtain ⟨offset, hparse, -⟩ := parse_render_of_close hline hclose after bytes
    exact ⟨_, hparse, by simp⟩
  · exact ⟨_, parse_render_of_not_close hline hclose after bytes, by simp⟩

/-- A declaration is read back as it was rendered if its name holds no newline, and
never if it holds one. -/
theorem parse_render (name : Text) (bytes : List UInt8) :
    ('\n' ∉ name → parse (render ⟨name, bytes⟩) = .ok ⟨name, bytes⟩) ∧
      (∀ line after, name = line ++ '\n' :: after → '\n' ∉ line →
        (¬ headerClose <:+ line → parse (render ⟨name, bytes⟩) = .error .missingHeader) ∧
        (headerClose <:+ line → ∃ offset,
          parse (render ⟨name, bytes⟩) = .error (.unexpectedText offset) ∧
          Text.byteLength headerPrefix + Text.byteLength line + 1 ≤ offset ∧
          offset ≤ Text.byteLength headerPrefix + Text.byteLength line + 1 +
            Text.byteLength after)) ∧
      (∀ d, parse (render ⟨name, bytes⟩) = .ok d → d = ⟨name, bytes⟩) ∧
      parse (render ⟨name, bytes⟩) ≠ .error .missingTerminator := by
  refine ⟨fun h => parse_render_of_not_mem h, ?_, ?_, ?_⟩
  · intro line after hname hline
    subst hname
    constructor
    · intro hclose
      exact parse_render_of_not_close hline hclose after bytes
    · intro hclose
      exact parse_render_of_close hline hclose after bytes
  · intro d hd
    by_cases h : '\n' ∈ name
    · obtain ⟨e, herror, -⟩ := parse_render_of_mem h bytes
      rw [herror] at hd
      contradiction
    · rw [parse_render_of_not_mem h] at hd
      exact (Except.ok.inj hd).symm
  · intro hmissing
    by_cases h : '\n' ∈ name
    · obtain ⟨e, herror, hne⟩ := parse_render_of_mem h bytes
      rw [herror] at hmissing
      exact hne (Except.error.inj hmissing)
    · rw [parse_render_of_not_mem h] at hmissing
      contradiction

/-- A forged header in a name ends where the real one begins. -/
example :
    parse (render ⟨"a[] = \x7b\n\t0x01,\n\x7d;\n".toList, [2]⟩) =
      .error (.unexpectedText 30) := by
  decide +kernel

end Declaration
end ByteEmbed
