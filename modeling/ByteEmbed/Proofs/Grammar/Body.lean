import ByteEmbed.Proofs.Grammar.Token

/-!
# Reading a body token by token

The reader of a body does not go from token to token: it searches for the next
literal and judges the gap before it afterwards.  This module shows that it
stops where tokens stop all the same.

The step lemmas say what one more token at the front does to the search and to
the reader, and `readBody_stuck` what happens at a text that no token begins.
`readBody_spell_append` puts the steps together: on a sequence of tokens with a
stuck rest the reader gives the values of the tokens, or the offset of the rest.
-/

namespace ByteEmbed
namespace Declaration

theorem isLayout_iff (c : Char) : isLayout c = true ↔ ∃ s : Separator, s.char = c := by
  constructor
  · intro h
    simp only [isLayout, Bool.or_eq_true, beq_iff_eq] at h
    rcases h with (rfl | rfl) | rfl
    · exact ⟨.tab, rfl⟩
    · exact ⟨.space, rfl⟩
    · exact ⟨.newline, rfl⟩
  · rintro ⟨s, rfl⟩
    cases s <;> rfl

theorem isLayout_char (s : Separator) : isLayout s.char = true :=
  (isLayout_iff s.char).mpr ⟨s, rfl⟩

/-! ### The search for the next literal -/

/-- The search carries the characters that it has passed along and never looks
at them. -/
theorem splitAtLiteral?_go_eq (passed : List Char) (source : Text) :
    splitAtLiteral?.go passed source =
      (splitAtLiteral? source).map fun found => (passed.reverse ++ found.1, found.2) := by
  unfold splitAtLiteral?
  induction source generalizing passed with
  | nil => rfl
  | cons c source ih =>
      rw [splitAtLiteral?.go, splitAtLiteral?.go]
      cases Literal.read? (c :: source) with
      | none =>
          -- Both searches go on, each with its own characters passed.
          show splitAtLiteral?.go (c :: passed) source =
            (splitAtLiteral?.go [c] source).map _
          rw [ih (c :: passed), ih [c], Option.map_map]
          congr 1
          funext found
          simp
      | some found => simp

/-- A character at which no literal begins goes to the gap. -/
theorem splitAtLiteral?_cons {c : Char} {source : Text}
    (h : Literal.read? (c :: source) = none) :
    splitAtLiteral? (c :: source) =
      (splitAtLiteral? source).map fun found => (c :: found.1, found.2) := by
  rw [splitAtLiteral?, splitAtLiteral?.go, h]
  exact splitAtLiteral?_go_eq [c] source

/-- A literal at the front is found there. -/
theorem splitAtLiteral?_literal (high low : Fin 16) (source : Text) :
    splitAtLiteral? ((Token.literal high low).text ++ source) =
      some ([], UInt8.ofNat (16 * high.val + low.val), source) := by
  have hread := (Literal.read?_eq_some_iff _ source _).mpr ⟨high, low, rfl, rfl⟩
  rw [splitAtLiteral?]
  simp only [Token.text, List.cons_append, List.nil_append] at hread ⊢
  rw [splitAtLiteral?.go, hread]
  rfl

/-- What is found is a literal, and the gap is what precedes it. -/
theorem exists_of_splitAtLiteral? {source gap behind : Text} {value : UInt8}
    (h : splitAtLiteral? source = some (gap, value, behind)) :
    ∃ high low, source = gap ++ ((Token.literal high low).text ++ behind) ∧
      value = UInt8.ofNat (16 * high.val + low.val) := by
  induction source generalizing gap with
  | nil => contradiction
  | cons c rest ih =>
      cases hread : Literal.read? (c :: rest) with
      | none =>
          rw [splitAtLiteral?_cons hread] at h
          obtain ⟨⟨inner, found⟩, hfound, h⟩ := Option.map_eq_some_iff.mp h
          obtain ⟨rfl, rfl⟩ := Prod.mk.inj h
          obtain ⟨high, low, rfl, hvalue⟩ := ih hfound
          exact ⟨high, low, rfl, hvalue⟩
      | some found =>
          obtain ⟨high, low, hliteral, -⟩ := (Literal.read?_eq_some_iff _ _ _).mp hread
          rw [hliteral, splitAtLiteral?_literal] at h
          obtain ⟨rfl, hbehind⟩ := Prod.mk.inj (Option.some.inj h)
          obtain ⟨rfl, rfl⟩ := Prod.mk.inj hbehind
          exact ⟨high, low, hliteral, rfl⟩

/-! ### The reader by the outcome of its search -/

theorem readBody_of_split_eq_none {source : Text} (h : splitAtLiteral? source = none)
    (offset : Nat) (read : List UInt8) :
    readBody offset read source = (checkGap offset source).map fun _ => read.reverse := by
  rw [readBody]
  split
  · rfl
  · next hsome =>
      rw [h] at hsome
      contradiction

theorem readBody_of_split_eq_some {source gap rest : Text} {value : UInt8}
    (h : splitAtLiteral? source = some (gap, value, rest)) (offset : Nat)
    (read : List UInt8) :
    readBody offset read source =
      (checkGap offset gap).bind fun _ =>
        readBody (offset + Text.byteLength gap + Literal.width) (value :: read) rest := by
  rw [readBody]
  split
  · next hnone =>
      rw [h] at hnone
      contradiction
  · next hsome =>
      rw [h] at hsome
      obtain ⟨rfl, rfl, rfl⟩ : gap = _ ∧ value = _ ∧ rest = _ := by simpa using hsome
      rfl

/-! ### One more token at the front -/

/-- A separator at the front of a gap moves the gap by its own width. -/
theorem checkGap_separator (offset : Nat) (s : Separator) (gap : Text) :
    checkGap offset (s.char :: gap) = checkGap (offset + s.char.utf8Size) gap := by
  simp [checkGap, isLayout_char, Nat.add_assoc]

/-- Any other character at the front of a gap is the stray one. -/
theorem checkGap_stray (offset : Nat) {c : Char} (h : ∀ s : Separator, c ≠ s.char)
    (gap : Text) : checkGap offset (c :: gap) = .error (.unexpectedText offset) := by
  have hlayout : isLayout c = false := by
    rw [Bool.eq_false_iff]
    intro hc
    obtain ⟨s, hs⟩ := (isLayout_iff c).mp hc
    exact h s hs.symm
  simp [checkGap, hlayout]

theorem read?_separator (s : Separator) (source : Text) :
    Literal.read? (s.char :: source) = none := by
  cases s <;> rfl

/-- A separator at the front is skipped. -/
theorem readBody_separator (offset : Nat) (read : List UInt8) (s : Separator) (source : Text) :
    readBody offset read (s.char :: source) =
      readBody (offset + s.char.utf8Size) read source := by
  have hsplit := splitAtLiteral?_cons (read?_separator s source)
  cases hsource : splitAtLiteral? source with
  | none =>
      rw [hsource] at hsplit
      rw [readBody_of_split_eq_none hsplit, readBody_of_split_eq_none hsource,
        checkGap_separator]
  | some found =>
      obtain ⟨gap, value, rest⟩ := found
      rw [hsource] at hsplit
      rw [readBody_of_split_eq_some hsplit, readBody_of_split_eq_some hsource,
        checkGap_separator, Text.byteLength_cons, ← Nat.add_assoc offset]

/-- A literal at the front is read. -/
theorem readBody_literal (offset : Nat) (read : List UInt8) (high low : Fin 16)
    (source : Text) :
    readBody offset read ((Token.literal high low).text ++ source) =
      readBody (offset + Literal.width) (UInt8.ofNat (16 * high.val + low.val) :: read)
        source := by
  rw [readBody_of_split_eq_some (splitAtLiteral?_literal high low source)]
  rfl

/-- A text that goes on and begins with no token is refused at its start, be there
a later literal or not. -/
theorem readBody_stuck (offset : Nat) (read : List UInt8) {c : Char} {source : Text}
    (h : Token.IsStuck (c :: source)) :
    readBody offset read (c :: source) = .error (.unexpectedText offset) := by
  obtain ⟨hseparator, hliteral⟩ := (Token.isStuck_cons_iff c source).mp h
  have hsplit := splitAtLiteral?_cons ((Literal.read?_eq_none_iff _).mpr hliteral)
  cases hsource : splitAtLiteral? source with
  | none =>
      rw [hsource] at hsplit
      rw [readBody_of_split_eq_none hsplit, checkGap_stray offset hseparator]
      rfl
  | some found =>
      obtain ⟨gap, value, rest⟩ := found
      rw [hsource] at hsplit
      rw [readBody_of_split_eq_some hsplit, checkGap_stray offset hseparator]
      rfl

/-! ### A whole body -/

theorem byteLength_literal (high low : Fin 16) :
    Text.byteLength (Token.literal high low).text = Literal.width := by
  have hdigit : ∀ d : Fin 16, (Token.digit d).utf8Size = 1 := by decide
  simp only [Token.text, Text.byteLength_cons, hdigit]
  rfl

/-- On tokens with a stuck rest the reader gives their values, or points at the
rest if there is one. -/
theorem readBody_spell_append (offset : Nat) (read : List UInt8) (tokens : List Token)
    {rest : Text} (hrest : Token.IsStuck rest) :
    readBody offset read (Token.spell tokens ++ rest) =
      if rest = [] then .ok (read.reverse ++ Token.values tokens)
      else .error (.unexpectedText (offset + Text.byteLength (Token.spell tokens))) := by
  induction tokens generalizing offset read with
  | nil =>
      cases rest with
      | nil =>
          have hnone : splitAtLiteral? [] = none := rfl
          rw [Token.spell_nil, List.nil_append, readBody_of_split_eq_none hnone]
          simp [checkGap, Except.map]
      | cons c rest => exact readBody_stuck offset read hrest
  | cons token tokens ih =>
      cases token with
      | separator s =>
          show readBody offset read (s.char :: (Token.spell tokens ++ rest)) = _
          rw [readBody_separator, ih, Token.values_separator_cons, Token.spell_cons,
            Text.byteLength_append, ← Nat.add_assoc]
          rfl
      | literal high low =>
          rw [Token.spell_cons, List.append_assoc, readBody_literal, ih,
            Text.byteLength_append, byteLength_literal, ← Nat.add_assoc]
          simp

end Declaration
end ByteEmbed
