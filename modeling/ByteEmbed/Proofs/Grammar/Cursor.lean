import ByteEmbed.Proofs.Grammar.Parse
import ByteEmbed.Proofs.Text.Slice

/-!
# Reading a declaration by byte offsets

`parse` takes a text apart as it goes and has no offsets that could be wrong.  The reader here
works on the whole text with offsets into it, as one would with a string and a search for the
next literal, and each of its operations can fail: a slice that is not in bounds, a difference
that would be negative, digits that spell no byte.  It also compares the length of the text with
that of its two outer lines.  Such a failure is a `Halt` that is not `refused`.

None of them happens.  The cursor of the reader is always behind a front of the body
(`Reached.isBoundary`), from which a round does what one step of `readBody` does on the rest
(`rounds_eq_readBody`), so that the two readers agree on all texts (`parseByOffset_eq`).
-/

namespace ByteEmbed

namespace Literal

/-- The value of a hexadecimal digit of either case. -/
def hexValue? (c : Char) : Option Nat :=
  if 'a' ≤ c ∧ c ≤ 'f' then some (c.toNat - 'a'.toNat + 10) else digitValue? c

/-- The byte that hexadecimal digits spell behind the value of those before them, if it is one. -/
def numeralFrom? (value : Nat) : Text → Option UInt8
  | [] => some (UInt8.ofNat value)
  | c :: rest => do
      let digit ← hexValue? c
      if 16 * value + digit < 256 then numeralFrom? (16 * value + digit) rest else none

/-- The byte that a hexadecimal numeral spells.  There may be a plus before its digits. -/
def numeral? (digits : Text) : Option UInt8 :=
  match digits with
  | [] => none
  | ['+'] => none
  | '+' :: rest => numeralFrom? 0 rest
  | digits => numeralFrom? 0 digits

theorem numeral?_digits (high low : Fin 16) :
    numeral? [Token.digit high, Token.digit low] =
      some (UInt8.ofNat (16 * high.val + low.val)) := by
  revert high low
  decide

end Literal

namespace Declaration

/-! ### The reader -/

/-- Why reading ends without a declaration: a slice is out of bounds, a difference is negative,
the digits at an offset spell no byte, the text is too short for the lines that it has, or it is
refused. -/
inductive Halt where
  | slice (start stop : Nat)
  | difference (a b : Nat)
  | numeral (offset : Nat)
  | length
  | refused (error : ParseError)
  deriving DecidableEq, Repr

/-- The offsets at which the name in a header line begins and ends, and that of the body behind
the line. -/
structure HeaderSpan where
  nameStart : Nat
  nameStop : Nat
  bodyStart : Nat
  deriving DecidableEq, Repr

/-- Finds the header line of a text. -/
def headerSpan? (source : Text) : Option HeaderSpan :=
  (readHeader? source).map fun found =>
    { nameStart := headerPrefix.byteLength
      nameStop := headerPrefix.byteLength + found.1.byteLength
      bodyStart := (header found.1).byteLength }

/-- Finds the leftmost literal that begins at an offset or behind it. -/
def literalFrom? (position : Nat) (body : Text) : Option Nat :=
  go 0 body
where
  /-- The search, of which the text that is left begins at `offset`. -/
  go (offset : Nat) : Text → Option Nat
    | [] => none
    | c :: rest =>
        if position ≤ offset ∧ (Literal.read? (c :: rest)).isSome then some offset
        else go (offset + c.utf8Size) rest

/-- The part of a text between two offsets. -/
def slice (text : Text) (start stop : Nat) : Except Halt Text :=
  (Text.slice? text start stop).elim (.error (.slice start stop)) .ok

/-- The difference of two numbers. -/
def difference (a b : Nat) : Except Halt Nat :=
  if b ≤ a then .ok (a - b) else .error (.difference a b)

/-- The byte that digits at an offset spell. -/
def readNumeral (offset : Nat) (digits : Text) : Except Halt UInt8 :=
  (Literal.numeral? digits).elim (.error (.numeral offset)) .ok

/-- Accepts the part of a body between two offsets if it is all layout. -/
def checkBetween (bodyStart : Nat) (body : Text) (start stop : Nat) : Except Halt Unit := do
  let gap ← slice body start stop
  (checkGap (bodyStart + start) gap).mapError .refused

/-- A reader part way through a body: the offset behind the last literal, and the bytes read so
far, the latest first. -/
structure Cursor where
  position : Nat := 0
  values : List UInt8 := []
  deriving DecidableEq, Repr

/-- Reads the next literal, or finds that there is none. -/
def round (bodyStart : Nat) (body : Text) (cursor : Cursor) : Except Halt (Option Cursor) :=
  match literalFrom? cursor.position body with
  | none => do
      checkBetween bodyStart body cursor.position body.byteLength
      return none
  | some found => do
      checkBetween bodyStart body cursor.position found
      let digits ← slice body (found + 2) (found + 4)
      let value ← readNumeral (bodyStart + (found + 2)) digits
      return some ⟨found + Literal.width, value :: cursor.values⟩

theorem exists_of_bind_eq_ok {α β : Type} {x : Except Halt α} {f : α → Except Halt β} {b : β}
    (h : x >>= f = .ok b) : ∃ a, x = .ok a ∧ f a = .ok b := by
  cases x with
  | error halt => cases h
  | ok a => exact ⟨a, rfl, h⟩

theorem literalFrom?.bounds_of_go {position offset found : Nat} {text : Text}
    (h : go position offset text = some found) :
    position ≤ found ∧ found + Literal.width ≤ offset + text.byteLength := by
  induction text generalizing offset with
  | nil => contradiction
  | cons c rest ih =>
      rw [go] at h
      split at h
      · next hhere =>
          obtain rfl := Option.some.inj h
          obtain ⟨⟨value, behind⟩, hread⟩ := Option.isSome_iff_exists.mp hhere.2
          obtain ⟨high, low, hliteral, -⟩ := (Literal.read?_eq_some_iff _ _ _).mp hread
          refine ⟨hhere.1, ?_⟩
          rw [hliteral, Text.byteLength_append, byteLength_literal]
          omega
      · obtain ⟨hposition, hfound⟩ := ih h
        rw [Text.byteLength_cons]
        exact ⟨hposition, by omega⟩

theorem literalFrom?_bounds {position found : Nat} {body : Text}
    (h : literalFrom? position body = some found) :
    position ≤ found ∧ found + Literal.width ≤ body.byteLength := by
  have hbounds := literalFrom?.bounds_of_go h
  rwa [Nat.zero_add] at hbounds

theorem round_eq_some {bodyStart : Nat} {body : Text} {cursor next : Cursor}
    (h : round bodyStart body cursor = .ok (some next)) :
    ∃ found value, literalFrom? cursor.position body = some found ∧
      next = ⟨found + Literal.width, value :: cursor.values⟩ := by
  unfold round at h
  split at h
  · obtain ⟨-, -, h⟩ := exists_of_bind_eq_ok h
    cases h
  · next found hfound =>
      obtain ⟨-, -, h⟩ := exists_of_bind_eq_ok h
      obtain ⟨digits, -, h⟩ := exists_of_bind_eq_ok h
      obtain ⟨value, -, h⟩ := exists_of_bind_eq_ok h
      exact ⟨found, value, hfound, (Option.some.inj (Except.ok.inj h)).symm⟩

theorem position_of_round {bodyStart : Nat} {body : Text} {cursor next : Cursor}
    (h : round bodyStart body cursor = .ok (some next)) :
    cursor.position + 5 ≤ next.position ∧ next.position ≤ body.byteLength := by
  obtain ⟨found, value, hfound, rfl⟩ := round_eq_some h
  obtain ⟨hposition, hlength⟩ := literalFrom?_bounds hfound
  exact ⟨Nat.add_le_add_right hposition 5, hlength⟩

/-- Reads the literals of a body one after the other. -/
def rounds (bodyStart : Nat) (body : Text) (cursor : Cursor) : Except Halt (List UInt8) :=
  match _h : round bodyStart body cursor with
  | .error halt => .error halt
  | .ok none => .ok cursor.values.reverse
  | .ok (some next) => rounds bodyStart body next
termination_by body.byteLength - cursor.position
decreasing_by
  have hprogress := position_of_round _h
  omega

/-- Reads the text of a declaration. -/
def parseByOffset (source : Text) : Except Halt Declaration :=
  match headerSpan? source with
  | none => .error (.refused .missingHeader)
  | some span => do
      let name ← slice source span.nameStart span.nameStop
      if ¬ terminator <:+ source then
        .error (.refused .missingTerminator)
      else if source.byteLength < span.bodyStart + terminator.byteLength then
        .error .length
      else
        let bodyStop ← difference source.byteLength terminator.byteLength
        let body ← slice source span.bodyStart bodyStop
        let bytes ← rounds span.bodyStart body {}
        return ⟨name, bytes⟩

/-! ### Slices of a text that is cut in known places -/

theorem slice_append (front middle back : Text) :
    slice (front ++ middle ++ back) front.byteLength (front.byteLength + middle.byteLength) =
      .ok middle := by
  rw [slice, Text.slice?_append]
  rfl

theorem checkBetween_append (bodyStart : Nat) (front gap back : Text) :
    checkBetween bodyStart (front ++ gap ++ back) front.byteLength
        (front.byteLength + gap.byteLength) =
      (checkGap (bodyStart + front.byteLength) gap).mapError .refused := by
  rw [checkBetween, slice_append]
  rfl

/-- The digits of a literal stand two bytes behind its beginning. -/
theorem slice?_digits (front behind : Text) (high low : Fin 16) :
    Text.slice? (front ++ ((Token.literal high low).text ++ behind)) (front.byteLength + 2)
        (front.byteLength + 4) = some [Token.digit high, Token.digit low] := by
  have hdigit : ∀ d : Fin 16, (Token.digit d).utf8Size = 1 := by decide
  have hfront : (front ++ ['0', 'x']).byteLength = front.byteLength + 2 :=
    Text.byteLength_append _ _
  have hslice := Text.slice?_append (front ++ ['0', 'x']) [Token.digit high, Token.digit low]
    (',' :: behind)
  rw [hfront] at hslice
  simpa [Token.text, hdigit] using hslice

theorem readNumeral_digits (offset : Nat) (high low : Fin 16) :
    readNumeral offset [Token.digit high, Token.digit low] =
      .ok (UInt8.ofNat (16 * high.val + low.val)) := by
  rw [readNumeral, Literal.numeral?_digits]
  rfl

/-! ### One round -/

/-- Up to the offset from which it looks, the search passes everything. -/
theorem literalFrom?.go_append {position offset : Nat} (front rest : Text)
    (h : offset + front.byteLength = position) :
    go position offset (front ++ rest) = go position position rest := by
  induction front generalizing offset with
  | nil =>
      obtain rfl : offset = position := h
      rfl
  | cons c front ih =>
      have hsize := c.utf8Size_pos
      rw [Text.byteLength_cons] at h
      rw [List.cons_append, go, if_neg (by omega), ih (by omega)]

/-- From there on it finds the leftmost literal. -/
theorem literalFrom?.go_eq {position offset : Nat} (h : position ≤ offset) (text : Text) :
    go position offset text =
      (splitAtLiteral? text).map fun found => offset + Text.byteLength found.1 := by
  induction text generalizing offset with
  | nil => rfl
  | cons c rest ih =>
      rw [go]
      cases hread : Literal.read? (c :: rest) with
      | none =>
          have hlater : position ≤ offset + c.utf8Size := by omega
          rw [if_neg (by simp), ih hlater, splitAtLiteral?_cons hread, Option.map_map]
          congr 1
          funext found
          simp [Nat.add_assoc]
      | some found =>
          obtain ⟨high, low, hliteral, -⟩ := (Literal.read?_eq_some_iff _ _ _).mp hread
          rw [if_pos ⟨h, rfl⟩, hliteral, splitAtLiteral?_literal]
          rfl

theorem literalFrom?_append (front rest : Text) :
    literalFrom? front.byteLength (front ++ rest) =
      (splitAtLiteral? rest).map fun found => front.byteLength + Text.byteLength found.1 := by
  rw [literalFrom?, literalFrom?.go_append front rest (Nat.zero_add _),
    literalFrom?.go_eq (Nat.le_refl _)]

section Round

variable (bodyStart : Nat) (front : Text) (values : List UInt8) {rest gap behind : Text}
  {value : UInt8}

/-- Where there is no literal any more, a round is the check of what is left. -/
theorem round_of_split_eq_none (h : splitAtLiteral? rest = none) :
    round bodyStart (front ++ rest) ⟨front.byteLength, values⟩ =
      ((checkGap (bodyStart + front.byteLength) rest).mapError .refused).map fun _ => none := by
  have hcheck := checkBetween_append bodyStart front rest []
  rw [List.append_nil, ← Text.byteLength_append] at hcheck
  rw [round, literalFrom?_append, h]
  dsimp only [Option.map_none]
  rw [hcheck]
  rfl

/-- Otherwise it is the check of the gap, and neither the slice of the digits nor their value
fails. -/
theorem round_of_split_eq_some (h : splitAtLiteral? rest = some (gap, value, behind)) :
    round bodyStart (front ++ rest) ⟨front.byteLength, values⟩ =
      ((checkGap (bodyStart + front.byteLength) gap).mapError .refused).map fun _ =>
        some ⟨front.byteLength + gap.byteLength + Literal.width, value :: values⟩ := by
  obtain ⟨high, low, rfl, rfl⟩ := exists_of_splitAtLiteral? h
  have hcheck := checkBetween_append bodyStart front gap ((Token.literal high low).text ++ behind)
  have hdigits := slice?_digits (front ++ gap) behind high low
  rw [List.append_assoc] at hcheck hdigits
  rw [Text.byteLength_append] at hdigits
  rw [round, literalFrom?_append, h]
  dsimp only [Option.map_some]
  rw [hcheck, slice, hdigits]
  cases checkGap (bodyStart + front.byteLength) gap with
  | error e => rfl
  | ok =>
      show (readNumeral _ _ >>= _) = _
      rw [readNumeral_digits]
      rfl

end Round

/-! ### All rounds -/

theorem rounds_eq (bodyStart : Nat) (body : Text) (cursor : Cursor) :
    rounds bodyStart body cursor =
      round bodyStart body cursor >>= fun next =>
        next.elim (.ok cursor.values.reverse) (rounds bodyStart body) := by
  conv_lhs => rw [rounds]
  split
  · next hround =>
      rw [hround]
      rfl
  · next hround =>
      rw [hround]
      rfl
  · next hround =>
      rw [hround]
      rfl

/-- From a cursor behind part of a body, the rounds read the rest as it is read without
offsets, by induction on the rest. -/
theorem rounds_eq_readBody (bodyStart : Nat) (front : Text) (values : List UInt8) (rest : Text) :
    rounds bodyStart (front ++ rest) ⟨front.byteLength, values⟩ =
      (readBody (bodyStart + front.byteLength) values rest).mapError .refused := by
  rw [rounds_eq]
  cases hsplit : splitAtLiteral? rest with
  | none =>
      rw [round_of_split_eq_none bodyStart front values hsplit, readBody_of_split_eq_none hsplit]
      cases checkGap (bodyStart + front.byteLength) rest <;> rfl
  | some found =>
      obtain ⟨gap, value, behind⟩ := found
      rw [round_of_split_eq_some bodyStart front values hsplit, readBody_of_split_eq_some hsplit]
      cases checkGap (bodyStart + front.byteLength) gap with
      | error e => rfl
      | ok =>
          -- The next cursor is behind the front, the gap and the literal.
          obtain ⟨high, low, rfl, rfl⟩ := exists_of_splitAtLiteral? hsplit
          have hshorter := length_lt_of_splitAtLiteral? hsplit
          have hrest := rounds_eq_readBody bodyStart (front ++ gap ++ (Token.literal high low).text)
            (UInt8.ofNat (16 * high.val + low.val) :: values) behind
          simp only [Text.byteLength_append, byteLength_literal, List.append_assoc,
            ← Nat.add_assoc] at hrest
          exact hrest
termination_by rest.length

/-! ### The whole text -/

theorem slice_name (name rest : Text) :
    slice (header name ++ rest) headerPrefix.byteLength
      (headerPrefix.byteLength + name.byteLength) = .ok name := by
  have hslice := slice_append headerPrefix name (headerSuffix ++ rest)
  rwa [← List.append_assoc] at hslice

/-- Between the two outer lines stands the body. -/
theorem slice_body (name body : Text) :
    slice (header name ++ body ++ terminator) (header name).byteLength
      ((header name ++ body ++ terminator).byteLength - terminator.byteLength) = .ok body := by
  have hstop : (header name ++ body ++ terminator).byteLength - terminator.byteLength =
      (header name).byteLength + body.byteLength := by
    rw [Text.byteLength_append, Text.byteLength_append, Nat.add_sub_cancel]
  rw [hstop]
  exact slice_append (header name) body terminator

theorem headerSpan?_eq_some_iff (source : Text) (span : HeaderSpan) :
    headerSpan? source = some span ↔
      ∃ name rest, '\n' ∉ name ∧ source = header name ++ rest ∧
        span = ⟨headerPrefix.byteLength, headerPrefix.byteLength + name.byteLength,
          (header name).byteLength⟩ := by
  rw [headerSpan?, Option.map_eq_some_iff]
  constructor
  · rintro ⟨⟨name, rest⟩, hread, rfl⟩
    obtain ⟨hname, rfl⟩ := (readHeader?_eq_some_iff _ _ _).mp hread
    exact ⟨name, rest, hname, rfl, rfl⟩
  · rintro ⟨name, rest, hname, rfl, rfl⟩
    exact ⟨(name, rest), (readHeader?_eq_some_iff _ _ _).mpr ⟨hname, rfl⟩, rfl⟩

theorem parseByOffset_of_not_terminated {name rest : Text} (hname : '\n' ∉ name)
    (h : ¬ terminator <:+ header name ++ rest) :
    parseByOffset (header name ++ rest) = .error (.refused .missingTerminator) := by
  have hspan := (headerSpan?_eq_some_iff (header name ++ rest) _).mpr ⟨name, rest, hname, rfl, rfl⟩
  rw [parseByOffset, hspan]
  dsimp only
  rw [slice_name]
  exact if_pos h

theorem parseByOffset_of_body {name : Text} (hname : '\n' ∉ name) (body : Text) :
    parseByOffset (header name ++ body ++ terminator) =
      (rounds (header name).byteLength body {}).map (Declaration.mk name) := by
  have hspan := (headerSpan?_eq_some_iff (header name ++ (body ++ terminator)) _).mpr
    ⟨name, body ++ terminator, hname, rfl, rfl⟩
  have hslice := slice_name name (body ++ terminator)
  rw [← List.append_assoc] at hspan hslice
  have hclose : terminator <:+ header name ++ body ++ terminator := List.suffix_append _ _
  have hlength : ¬ (header name ++ body ++ terminator).byteLength <
      (header name).byteLength + terminator.byteLength := by
    rw [Text.byteLength_append, Text.byteLength_append]
    omega
  have hdifference : difference (header name ++ body ++ terminator).byteLength
      terminator.byteLength =
        .ok ((header name ++ body ++ terminator).byteLength - terminator.byteLength) := by
    refine if_pos ?_
    rw [Text.byteLength_append]
    exact Nat.le_add_left _ _
  rw [parseByOffset, hspan]
  dsimp only [bind, Except.bind]
  rw [hslice]
  dsimp only
  rw [if_neg (not_not_intro hclose), if_neg hlength, hdifference]
  dsimp only
  rw [slice_body]
  dsimp only
  cases rounds (header name).byteLength body {} <;> rfl

/-- Read by offsets, a text is read as it is without them: nothing is out of bounds. -/
theorem parseByOffset_eq (source : Text) :
    parseByOffset source = (parse source).mapError .refused := by
  by_cases hheader : HasHeader source
  · obtain ⟨name, rest, hname, rfl⟩ := (hasHeader_iff source).mp hheader
    by_cases hclose : terminator <:+ header name ++ rest
    · obtain ⟨body, rfl⟩ := (terminator_suffix_iff name rest).mp hclose
      have hrounds := rounds_eq_readBody (header name).byteLength [] [] body
      rw [Text.byteLength_nil, List.nil_append, Nat.add_zero] at hrounds
      rw [← List.append_assoc, parse_of_body hname, parseByOffset_of_body hname, hrounds]
      cases readBody (header name).byteLength [] body <;> rfl
    · have hrest : ¬ terminator <:+ rest := by
        rw [terminator_suffix_iff] at hclose
        exact hclose
      rw [parse_of_not_terminated hname hrest, parseByOffset_of_not_terminated hname hclose]
      rfl
  · have hspan : headerSpan? source = none := by
      rw [headerSpan?, (readHeader?_eq_none_iff source).mpr hheader]
      rfl
    rw [parse_of_not_hasHeader hheader, parseByOffset, hspan]
    rfl

/-! ### The offsets of a run -/

/-- The cursors at which a round begins. -/
inductive Reached (bodyStart : Nat) (body : Text) : Cursor → Prop where
  | start : Reached bodyStart body {}
  | round {cursor next : Cursor} (h : Reached bodyStart body cursor)
      (hround : round bodyStart body cursor = .ok (some next)) : Reached bodyStart body next

/-- What a round needs of its cursor in order to fail in no other way than by a stray character,
and how far it takes the cursor. -/
structure Cursor.IsSafe (bodyStart : Nat) (body : Text) (cursor : Cursor) : Prop where
  /-- The body from the cursor on is a slice. -/
  inBounds_rest : Text.InBounds body cursor.position body.byteLength
  /-- So is the gap up to the next literal. -/
  inBounds_gap : ∀ found, literalFrom? cursor.position body = some found →
    Text.InBounds body cursor.position found
  /-- So are the digits of that literal, -/
  inBounds_digits : ∀ found, literalFrom? cursor.position body = some found →
    Text.InBounds body (found + 2) (found + 4)
  /-- and they spell a byte. -/
  exists_numeral : ∀ found, literalFrom? cursor.position body = some found →
    ∃ digits value, Text.slice? body (found + 2) (found + 4) = some digits ∧
      Literal.numeral? digits = some value
  /-- With each value the cursor goes on by at least the width of a literal. -/
  progress : ∀ next, round bodyStart body cursor = .ok (some next) →
    cursor.position + 5 ≤ next.position ∧ next.values.length = cursor.values.length + 1
  /-- There are no more values than literals fit in what has been read. -/
  five_mul_length_le : 5 * cursor.values.length ≤ cursor.position

section Reached

variable {bodyStart : Nat} {body : Text} {cursor : Cursor}

/-- A literal that is found from between two characters stands behind a front of the body and a
gap. -/
theorem exists_of_literalFrom? {position found : Nat} (hposition : Text.IsBoundary body position)
    (h : literalFrom? position body = some found) :
    ∃ front gap high low behind,
      body = front ++ gap ++ ((Token.literal high low).text ++ behind) ∧
        position = front.byteLength ∧ found = front.byteLength + gap.byteLength := by
  obtain ⟨front, ⟨rest, rfl⟩, rfl⟩ := hposition
  rw [literalFrom?_append] at h
  obtain ⟨⟨gap, value, behind⟩, hsplit, rfl⟩ := Option.map_eq_some_iff.mp h
  obtain ⟨high, low, rfl, -⟩ := exists_of_splitAtLiteral? hsplit
  exact ⟨front, gap, high, low, behind, (List.append_assoc _ _ _).symm, rfl, rfl⟩

/-- The invariant of the rounds, by induction on how the cursor was reached: a cursor is behind
the front of the body that ends with the last literal. -/
theorem Reached.isBoundary (h : Reached bodyStart body cursor) :
    Text.IsBoundary body cursor.position := by
  induction h with
  | start => exact ⟨[], List.nil_prefix, rfl⟩
  | round _ hround ih =>
      obtain ⟨found, value, hfound, rfl⟩ := round_eq_some hround
      obtain ⟨front, gap, high, low, behind, rfl, -, rfl⟩ := exists_of_literalFrom? ih hfound
      refine ⟨front ++ gap ++ (Token.literal high low).text, ⟨behind, ?_⟩, ?_⟩
      · exact List.append_assoc _ _ _
      · rw [Text.byteLength_append, Text.byteLength_append, byteLength_literal]

theorem Reached.five_mul_length_le (h : Reached bodyStart body cursor) :
    5 * cursor.values.length ≤ cursor.position := by
  induction h with
  | start => exact Nat.le_refl 0
  | round _ hround ih =>
      have hprogress := (position_of_round hround).1
      obtain ⟨found, value, -, rfl⟩ := round_eq_some hround
      rw [List.length_cons]
      omega

theorem Reached.exists_numeral {found : Nat} (h : Reached bodyStart body cursor)
    (hfound : literalFrom? cursor.position body = some found) :
    ∃ digits value, Text.slice? body (found + 2) (found + 4) = some digits ∧
      Literal.numeral? digits = some value := by
  obtain ⟨front, gap, high, low, behind, rfl, -, rfl⟩ := exists_of_literalFrom? h.isBoundary hfound
  have hdigits := slice?_digits (front ++ gap) behind high low
  rw [Text.byteLength_append] at hdigits
  exact ⟨_, _, hdigits, Literal.numeral?_digits high low⟩

theorem Reached.isSafe (h : Reached bodyStart body cursor) : cursor.IsSafe bodyStart body where
  inBounds_rest := by
    obtain ⟨front, ⟨rest, rfl⟩, hposition⟩ := h.isBoundary
    have hbounds := Text.inBounds_append front rest []
    rw [List.append_nil, ← Text.byteLength_append] at hbounds
    rwa [← hposition]
  inBounds_gap found hfound := by
    obtain ⟨front, gap, high, low, behind, rfl, hposition, rfl⟩ :=
      exists_of_literalFrom? h.isBoundary hfound
    rw [hposition]
    exact Text.inBounds_append front gap _
  inBounds_digits found hfound := by
    obtain ⟨digits, -, hdigits, -⟩ := h.exists_numeral hfound
    exact (Text.exists_slice?_iff _ _ _).mp ⟨digits, hdigits⟩
  exists_numeral _ hfound := h.exists_numeral hfound
  progress next hround := by
    refine ⟨(position_of_round hround).1, ?_⟩
    obtain ⟨found, value, -, rfl⟩ := round_eq_some hround
    rfl
  five_mul_length_le := h.five_mul_length_le

end Reached

/-- Read by offsets, a text is accepted or refused as it is without them, and what could fail
besides cannot.  Where there is a header line and the text ends with the closing line, the two do
not overlap and the body between them is a slice; and each round begins at a cursor from which it
is safe. -/
theorem parseByOffset_never_halts (source : Text) :
    parseByOffset source = (parse source).mapError .refused ∧
      ∀ span, headerSpan? source = some span → terminator <:+ source →
        terminator.byteLength ≤ source.byteLength ∧
        span.bodyStart + terminator.byteLength ≤ source.byteLength ∧
        Text.InBounds source span.bodyStart (source.byteLength - terminator.byteLength) ∧
        ∃ body,
          Text.slice? source span.bodyStart (source.byteLength - terminator.byteLength) =
              some body ∧
            ∀ cursor, Reached span.bodyStart body cursor → cursor.IsSafe span.bodyStart body := by
  refine ⟨parseByOffset_eq source, fun span hspan hclose => ?_⟩
  obtain ⟨name, rest, hname, rfl, rfl⟩ := (headerSpan?_eq_some_iff source span).mp hspan
  -- The closing line does not reach into the header line, so a body stands between them.
  obtain ⟨body, rfl⟩ := (terminator_suffix_iff name rest).mp hclose
  rw [← List.append_assoc]
  have hlength : (header name ++ body ++ terminator).byteLength =
      (header name).byteLength + Text.byteLength body + terminator.byteLength := by
    rw [Text.byteLength_append, Text.byteLength_append]
  rw [hlength, Nat.add_sub_cancel]
  dsimp only
  refine ⟨Nat.le_add_left _ _, by omega, Text.inBounds_append (header name) body terminator, body,
    Text.slice?_append (header name) body terminator, ?_⟩
  exact fun cursor hcursor => hcursor.isSafe

/-- A name and a stray character of more than one byte, with a literal on each side of the latter:
from behind the first literal, the gap up to the second is in bounds. -/
theorem parseByOffset_never_halts_stray_euro :
    let source : Text := "static uint8_t é[] = \x7b\n\t0x4F, €0x0A,\n\x7d;\n".toList
    let span : HeaderSpan := ⟨15, 17, 24⟩
    let body : Text := "\t0x4F, €0x0A,\n".toList
    let cursor : Cursor := ⟨6, [0x4F]⟩
    (headerSpan? source = some span ∧ terminator <:+ source ∧
        Text.slice? source span.bodyStart (source.byteLength - terminator.byteLength) =
          some body ∧
        Reached span.bodyStart body cursor ∧ literalFrom? cursor.position body = some 10) ∧
      parseByOffset source = .error (.refused (.unexpectedText 31)) ∧
      Text.InBounds body cursor.position 10 := by
  intro source span body cursor
  obtain ⟨hparse, hoffsets⟩ := parseByOffset_never_halts source
  have hspan : headerSpan? source = some span := by decide +kernel
  have hclose : terminator <:+ source := by decide +kernel
  have hbody : Text.slice? source span.bodyStart (source.byteLength - terminator.byteLength) =
      some body := by
    decide +kernel
  have hreached : Reached span.bodyStart body cursor :=
    .round .start (by decide +kernel)
  have hfound : literalFrom? cursor.position body = some 10 := by decide +kernel
  obtain ⟨-, -, -, inner, hinner, hsafe⟩ := hoffsets span hspan hclose
  obtain rfl : body = inner := Option.some.inj (hbody.symm.trans hinner)
  refine ⟨⟨hspan, hclose, hbody, hreached, hfound⟩, ?_, ?_⟩
  · rw [hparse]
    decide +kernel
  · exact (hsafe cursor hreached).inBounds_gap 10 hfound

end Declaration
end ByteEmbed
