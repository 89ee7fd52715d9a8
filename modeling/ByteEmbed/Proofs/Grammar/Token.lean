import ByteEmbed.Declaration.Parse
import Mathlib.Data.List.Infix

/-!
# Tokens of a body

Between the two outer lines of a declaration stand tokens: single separators
and literals.  This module fixes that grammar without reference to any reader.
A literal is spelled by two digits out of a table, and a text at which no token
begins is called stuck.

Tokens are prefix-free, so every text is a sequence of tokens and a stuck rest
in exactly one way: `exists_spell_append` gives the sequence and
`spell_append_inj` its uniqueness.  `Literal.read?_eq_some_iff` ties the reader
of single literals to the table.
-/

namespace ByteEmbed

/-- The characters that separate literals. -/
inductive Separator where
  | tab
  | space
  | newline
  deriving DecidableEq, Repr

/-- A separator as a character. -/
def Separator.char : Separator → Char
  | .tab => '\t'
  | .space => ' '
  | .newline => '\n'

/-- A piece of a body: a separator, or a literal with its two digits. -/
inductive Token where
  | separator (s : Separator)
  | literal (high low : Fin 16)
  deriving DecidableEq, Repr

namespace Token

/-- The spelling of a digit. -/
def digit (d : Fin 16) : Char :=
  ['0', '1', '2', '3', '4', '5', '6', '7', '8', '9', 'A', 'B', 'C', 'D', 'E', 'F'].get d

/-- The spelling of a token. -/
def text : Token → Text
  | .separator s => [s.char]
  | .literal high low => ['0', 'x', digit high, digit low, ',']

/-- The characters of which tokens are made. -/
def alphabet : Text :=
  "\t \n0123456789ABCDEFx,".toList

/-- The byte that a token stands for, if it stands for one. -/
def value? : Token → Option UInt8
  | .separator _ => none
  | .literal high low => some (UInt8.ofNat (16 * high.val + low.val))

/-- The spelling of a sequence of tokens. -/
def spell (tokens : List Token) : Text :=
  tokens.flatMap text

/-- The bytes that a sequence of tokens stands for, in order. -/
def values (tokens : List Token) : List UInt8 :=
  tokens.filterMap value?

/-- Whether no token begins a text. -/
def IsStuck (source : Text) : Prop :=
  ∀ token : Token, ¬ token.text <+: source

@[simp]
theorem spell_nil : spell [] = [] := rfl

@[simp]
theorem spell_cons (token : Token) (tokens : List Token) :
    spell (token :: tokens) = token.text ++ spell tokens := by
  simp [spell]

@[simp]
theorem spell_append (front back : List Token) :
    spell (front ++ back) = spell front ++ spell back := by
  simp [spell]

@[simp]
theorem values_nil : values [] = [] := rfl

@[simp]
theorem values_separator_cons (s : Separator) (tokens : List Token) :
    values (.separator s :: tokens) = values tokens := rfl

@[simp]
theorem values_literal_cons (high low : Fin 16) (tokens : List Token) :
    values (.literal high low :: tokens) =
      UInt8.ofNat (16 * high.val + low.val) :: values tokens := rfl

@[simp]
theorem values_append (front back : List Token) :
    values (front ++ back) = values front ++ values back := by
  simp [values]

theorem text_ne_nil (token : Token) : token.text ≠ [] := by
  cases token with
  | separator s => simp [text]
  | literal high low => simp [text]

theorem mem_alphabet_of_mem_text {token : Token} {c : Char} (h : c ∈ token.text) :
    c ∈ alphabet := by
  have hdigit : ∀ d : Fin 16, digit d ∈ alphabet := by decide
  cases token with
  | separator s =>
      obtain rfl := List.mem_singleton.mp h
      cases s <;> decide
  | literal high low =>
      simp only [text, List.mem_cons, List.not_mem_nil, or_false] at h
      rcases h with rfl | rfl | rfl | rfl | rfl
      · decide
      · decide
      · exact hdigit high
      · exact hdigit low
      · decide

theorem digit_injective : Function.Injective digit := by
  unfold Function.Injective
  decide

/-- The table agrees with the digits that are written. -/
theorem digit_eq (d : Fin 16) : digit d = Literal.digit d.val := by
  revert d
  decide

theorem char_ne_zero (s : Separator) : s.char ≠ '0' := by
  cases s <;> decide

theorem char_injective : Function.Injective Separator.char := by
  intro s s' h
  cases s <;> cases s' <;> first | rfl | exact absurd h (by decide)

/-- The first token of a text is determined by the text. -/
theorem text_append_inj {token other : Token} {rest back : Text}
    (h : token.text ++ rest = other.text ++ back) : token = other ∧ rest = back := by
  cases token with
  | separator s =>
      cases other with
      | separator s' =>
          obtain ⟨hchar, hrest⟩ := List.cons.inj h
          exact ⟨congrArg Token.separator (char_injective hchar), hrest⟩
      | literal high low =>
          exact absurd (List.cons.inj h).1 (char_ne_zero s)
  | literal high low =>
      cases other with
      | separator s =>
          exact absurd (List.cons.inj h).1.symm (char_ne_zero s)
      | literal high' low' =>
          simp only [text, List.cons_append, List.nil_append, List.cons.injEq, true_and] at h
          obtain ⟨hhigh, hlow, hrest⟩ := h
          rw [digit_injective hhigh, digit_injective hlow]
          exact ⟨rfl, hrest⟩

theorem isStuck_nil : IsStuck [] := by
  intro token hbegins
  exact token.text_ne_nil (List.prefix_nil.mp hbegins)

/-- A text that goes on is stuck exactly when its first character is no
separator and no literal begins it. -/
theorem isStuck_cons_iff (c : Char) (rest : Text) :
    IsStuck (c :: rest) ↔
      (∀ s : Separator, c ≠ s.char) ∧
        ∀ high low, ¬ (literal high low).text <+: c :: rest := by
  constructor
  · intro h
    refine ⟨?_, fun high low => h (.literal high low)⟩
    rintro s rfl
    exact h (.separator s) ⟨rest, rfl⟩
  · rintro ⟨hseparator, hliteral⟩ token hbegins
    cases token with
    | separator s => exact hseparator s (List.cons_prefix_cons.mp hbegins).1.symm
    | literal high low => exact hliteral high low hbegins

/-- A stuck text stays stuck in front of a character that no token holds: no
token reaches across it. -/
theorem IsStuck.append_cons {source : Text} {c : Char} (h : IsStuck source)
    (hc : ∀ token : Token, c ∉ token.text) (rest : Text) : IsStuck (source ++ c :: rest) := by
  intro token hbegins
  rcases List.prefix_or_prefix_of_prefix hbegins (List.prefix_append source (c :: rest)) with
    hshort | hlong
  · exact h token hshort
  · obtain ⟨tail, htail⟩ := hlong
    rw [← htail, List.prefix_append_right_inj] at hbegins
    cases tail with
    | nil => exact h token ⟨[], by simpa using htail.symm⟩
    | cons d tail =>
        have hd : d = c := (List.cons_prefix_cons.mp hbegins).1
        apply hc token
        rw [← htail, hd]
        simp

/-- Every text is a sequence of tokens with a stuck rest. -/
theorem exists_spell_append (source : Text) :
    ∃ tokens rest, source = spell tokens ++ rest ∧ IsStuck rest := by
  -- Tokens are taken off the front for as long as one begins what is left.
  by_cases hstuck : IsStuck source
  · exact ⟨[], source, rfl, hstuck⟩
  · unfold IsStuck at hstuck
    push Not at hstuck
    obtain ⟨token, back, hsource⟩ := hstuck
    have hshorter : back.length < source.length := by
      have hlength := List.length_pos_iff.mpr token.text_ne_nil
      rw [← hsource, List.length_append]
      omega
    obtain ⟨tokens, rest, hback, hrest⟩ := exists_spell_append back
    refine ⟨token :: tokens, rest, ?_, hrest⟩
    rw [spell_cons, List.append_assoc, ← hback, hsource]
termination_by source.length

/-- A text is a sequence of tokens with a stuck rest in one way only. -/
theorem spell_append_inj {tokens others : List Token} {rest back : Text}
    (h : spell tokens ++ rest = spell others ++ back) (hrest : IsStuck rest)
    (hback : IsStuck back) : tokens = others ∧ rest = back := by
  induction tokens generalizing others with
  | nil =>
      cases others with
      | nil => exact ⟨rfl, h⟩
      | cons other others =>
          rw [spell_nil, List.nil_append, spell_cons, List.append_assoc] at h
          exact absurd ⟨spell others ++ back, h.symm⟩ (hrest other)
  | cons token tokens ih =>
      cases others with
      | nil =>
          rw [spell_nil, List.nil_append, spell_cons, List.append_assoc] at h
          exact absurd ⟨spell tokens ++ rest, h⟩ (hback token)
      | cons other others =>
          rw [spell_cons, spell_cons, List.append_assoc, List.append_assoc] at h
          obtain ⟨rfl, htail⟩ := text_append_inj h
          obtain ⟨rfl, rfl⟩ := ih htail
          exact ⟨rfl, rfl⟩

theorem spell_injective : Function.Injective spell := by
  intro tokens others h
  have hspell : spell tokens ++ [] = spell others ++ [] := by rw [h]
  exact (spell_append_inj hspell isStuck_nil isStuck_nil).1

end Token

namespace Literal

/-- What is read as a digit is the digit written for its value. -/
theorem digit_of_digitValue? {c : Char} {n : Nat} (h : digitValue? c = some n) :
    n < 16 ∧ digit n = c := by
  unfold digitValue? at h
  split at h
  · next hrange =>
      have hlow : 48 ≤ c.toNat := hrange.1
      have hhigh : c.toNat ≤ 57 := hrange.2
      have hvalue : c.toNat - 48 = n := Option.some.inj h
      refine ⟨by omega, ?_⟩
      rw [digit, if_pos (by omega)]
      show Char.ofNat (48 + n) = c
      rw [← hvalue, Nat.add_sub_cancel' hlow, Char.ofNat_toNat]
  · split at h
    · next hrange =>
        have hlow : 65 ≤ c.toNat := hrange.1
        have hhigh : c.toNat ≤ 70 := hrange.2
        have hvalue : c.toNat - 65 + 10 = n := Option.some.inj h
        refine ⟨by omega, ?_⟩
        rw [digit, if_neg (by omega)]
        show Char.ofNat (65 + (n - 10)) = c
        rw [← hvalue, Nat.add_sub_cancel, Nat.add_sub_cancel' hlow, Char.ofNat_toNat]
    · contradiction

/-- A digit is read as a number exactly when the table spells that number so. -/
theorem digitValue?_eq_some_iff (c : Char) (n : Nat) :
    digitValue? c = some n ↔ ∃ d : Fin 16, Token.digit d = c ∧ d.val = n := by
  constructor
  · intro h
    obtain ⟨hn, hdigit⟩ := digit_of_digitValue? h
    exact ⟨⟨n, hn⟩, (Token.digit_eq ⟨n, hn⟩).trans hdigit, rfl⟩
  · rintro ⟨d, rfl, rfl⟩
    rw [Token.digit_eq]
    exact digitValue?_digit d.isLt

/-- Reading a literal is finding a literal token at the front. -/
theorem read?_eq_some_iff (source rest : Text) (value : UInt8) :
    read? source = some (value, rest) ↔
      ∃ high low, source = (Token.literal high low).text ++ rest ∧
        value = UInt8.ofNat (16 * high.val + low.val) := by
  constructor
  · intro h
    unfold read? at h
    split at h
    · next high low after =>
        split at h
        · next hvalue lvalue hhigh hlow =>
            obtain ⟨d, rfl, rfl⟩ := (digitValue?_eq_some_iff high hvalue).mp hhigh
            obtain ⟨e, rfl, rfl⟩ := (digitValue?_eq_some_iff low lvalue).mp hlow
            obtain ⟨rfl, rfl⟩ := Prod.mk.inj (Option.some.inj h)
            exact ⟨d, e, rfl, rfl⟩
        · contradiction
    · contradiction
  · rintro ⟨high, low, rfl, rfl⟩
    have hhigh := (digitValue?_eq_some_iff (Token.digit high) high).mpr ⟨high, rfl, rfl⟩
    have hlow := (digitValue?_eq_some_iff (Token.digit low) low).mpr ⟨low, rfl, rfl⟩
    simp [Token.text, read?, hhigh, hlow]

theorem read?_eq_none_iff (source : Text) :
    read? source = none ↔ ∀ high low, ¬ (Token.literal high low).text <+: source := by
  rw [Option.eq_none_iff_forall_ne_some]
  constructor
  · rintro h high low ⟨rest, rfl⟩
    exact h _ ((read?_eq_some_iff _ rest _).mpr ⟨high, low, rfl, rfl⟩)
  · rintro h ⟨value, rest⟩ hread
    obtain ⟨high, low, rfl, -⟩ := (read?_eq_some_iff _ _ _).mp hread
    exact h high low (List.prefix_append _ _)

end Literal
end ByteEmbed
