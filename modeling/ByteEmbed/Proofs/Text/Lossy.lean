import ByteEmbed.Path
import ByteEmbed.Proofs.Text.Character

/-!
# How bytes are shown

Bytes that are no text are shown all the same: `ShownAs` cuts them into characters and malformed
pieces and puts one replacement for each piece.  A piece is as much of a character as there is
before a byte that does not go on with it, or a single byte that begins none.  Nothing in this
refers to the reader, which goes from byte to byte and looks no byte ahead; `shownAs_iff` says
that it shows bytes in this way and that there is no other.

A character that follows other bytes is never taken for a part of them, so what is shown of an
append is what is shown of its two parts wherever the second begins with a character:
`ShownAs.append`.  In particular the suffix of a default output, `display_defaultOutput`, is shown
as it is behind any input.
-/

namespace ByteEmbed
namespace Text

/-- Whether bytes begin a character that is cut short: they are no whole one, and with the byte
behind them, if there is one, they begin none. -/
structure IsCutShort (piece rest : List UInt8) : Prop where
  ne_nil : piece ≠ []
  begins : BeginsCharacter piece
  not_whole : ∀ c, piece ≠ String.utf8EncodeChar c
  ends : ∀ b ∈ rest.head?, ¬ BeginsCharacter (piece ++ [b])

/-- How bytes are shown as text: characters as they are, and one replacement for each character
that is cut short and for each byte that begins none. -/
inductive ShownAs : List UInt8 → Text → Prop where
  | nil : ShownAs [] []
  | character (c : Char) {rest : List UInt8} {text : Text} (h : ShownAs rest text) :
      ShownAs (String.utf8EncodeChar c ++ rest) (c :: text)
  | cutShort {piece rest : List UInt8} {text : Text} (hpiece : IsCutShort piece rest)
      (h : ShownAs rest text) : ShownAs (piece ++ rest) (replacement :: text)
  | stray {b : UInt8} {rest : List UInt8} {text : Text} (hb : ¬ BeginsCharacter [b])
      (h : ShownAs rest text) : ShownAs (b :: rest) (replacement :: text)

/-! ### All bytes are shown -/

/-- What has begun is a character in the end or is cut short, by induction on what follows it. -/
theorem exists_whole_or_cutShort {front : List UInt8} (hne : front ≠ [])
    (hbegins : BeginsCharacter front) (rest : List UInt8) :
    ∃ tail back, rest = tail ++ back ∧
      ((∃ c, front ++ tail = String.utf8EncodeChar c) ∨ IsCutShort (front ++ tail) back) := by
  induction rest generalizing front with
  | nil =>
      by_cases hwhole : ∃ c, front = String.utf8EncodeChar c
      · exact ⟨[], [], rfl, .inl (by simpa using hwhole)⟩
      · push Not at hwhole
        exact ⟨[], [], rfl, .inr (by simpa using ⟨hne, hbegins, hwhole, by simp⟩)⟩
  | cons b rest ih =>
      by_cases hwhole : ∃ c, front = String.utf8EncodeChar c
      · exact ⟨[], b :: rest, rfl, .inl (by simpa using hwhole)⟩
      push Not at hwhole
      by_cases hnext : BeginsCharacter (front ++ [b])
      · obtain ⟨tail, back, rfl, hend⟩ := ih (by simp) hnext
        exact ⟨b :: tail, back, rfl, by simpa using hend⟩
      · exact ⟨[], b :: rest, rfl,
          .inr (by simpa using ⟨hne, hbegins, hwhole, by simpa using hnext⟩)⟩

theorem exists_shownAs (bytes : List UInt8) : ∃ text, ShownAs bytes text := by
  cases bytes with
  | nil => exact ⟨[], .nil⟩
  | cons b rest =>
      by_cases hb : BeginsCharacter [b]
      · obtain ⟨tail, back, hrest, hend⟩ := exists_whole_or_cutShort (List.cons_ne_nil b []) hb rest
        have hshorter : back.length < (b :: rest).length := by
          rw [hrest, List.length_cons, List.length_append]
          omega
        obtain ⟨text, hback⟩ := exists_shownAs back
        have hbytes : b :: rest = [b] ++ tail ++ back := by simp [hrest]
        rw [hbytes]
        rcases hend with ⟨c, hc⟩ | hcut
        · exact ⟨c :: text, hc ▸ .character c hback⟩
        · exact ⟨replacement :: text, .cutShort hcut hback⟩
      · obtain ⟨text, hrest⟩ := exists_shownAs rest
        exact ⟨replacement :: text, .stray hb hrest⟩
termination_by bytes.length

/-! ### The lossy reader -/

namespace Decoder

/-- What has been read is carried along and never looked at. -/
theorem feed_eq (out : List Char) (pending : Option Pending) (b : UInt8) :
    feed ⟨out, pending⟩ b =
      ⟨(feed ⟨[], pending⟩ b).out ++ out, (feed ⟨[], pending⟩ b).pending⟩ := by
  have hstart : ∀ front : List Char, start (front ++ out) b =
      ⟨(start front b).out ++ out, (start front b).pending⟩ := by
    intro front
    rw [start, start]
    cases lead b <;> rfl
  cases pending with
  | none => exact hstart []
  | some pending =>
      rw [feed, feed]
      dsimp only
      cases pending.next b with
      | complete c => rfl
      | more next => rfl
      | malformed => exact hstart [replacement]

theorem foldl_feed_eq (out : List Char) (pending : Option Pending) (bytes : List UInt8) :
    bytes.foldl feed ⟨out, pending⟩ =
      ⟨(bytes.foldl feed ⟨[], pending⟩).out ++ out, (bytes.foldl feed ⟨[], pending⟩).pending⟩ := by
  induction bytes generalizing out pending with
  | nil => rfl
  | cons b bytes ih =>
      rw [List.foldl_cons, List.foldl_cons, feed_eq out, ih, ih (feed ⟨[], pending⟩ b).out,
        List.append_assoc]

theorem finish_foldl_feed (out : List Char) (bytes : List UInt8) :
    (bytes.foldl feed ⟨out, none⟩).finish = out.reverse ++ decodeLossy bytes := by
  rw [foldl_feed_eq, decodeLossy]
  generalize bytes.foldl feed ⟨[], none⟩ = d
  unfold finish
  cases d.pending <;> simp

end Decoder

theorem decodeLossy_encodeChar_append (c : Char) (rest : List UInt8) :
    decodeLossy (String.utf8EncodeChar c ++ rest) = c :: decodeLossy rest := by
  rw [decodeLossy, List.foldl_append, Decoder.foldl_feed_encodeChar, Decoder.finish_foldl_feed]
  rfl

theorem decodeLossy_of_stray {b : UInt8} (hb : ¬ BeginsCharacter [b]) (rest : List UInt8) :
    decodeLossy (b :: rest) = replacement :: decodeLossy rest := by
  have hlead : lead b = .malformed := (reading_eq_malformed_iff b []).mpr hb
  have hfeed : Decoder.feed ⟨[], none⟩ b = ⟨[replacement], none⟩ := by
    rw [Decoder.feed]
    dsimp only
    rw [Decoder.start, hlead]
  rw [decodeLossy, List.foldl_cons, hfeed, Decoder.finish_foldl_feed]
  rfl

theorem decodeLossy_of_isCutShort {piece rest : List UInt8} (h : IsCutShort piece rest) :
    decodeLossy (piece ++ rest) = replacement :: decodeLossy rest := by
  obtain ⟨first, tail, rfl⟩ := List.exists_cons_of_ne_nil h.ne_nil
  obtain ⟨pending, hpending⟩ := (exists_reading_eq_more_iff first tail).mpr ⟨h.begins, h.not_whole⟩
  rw [decodeLossy, List.foldl_append, Decoder.foldl_feed_of_more hpending]
  cases rest with
  | nil => rfl
  | cons b rest =>
      -- The byte is read as if the character before it had never begun.
      have hnext : pending.next b = .malformed := by
        have hreading := (reading_eq_malformed_iff first (tail ++ [b])).mpr (h.ends b rfl)
        rwa [reading_append_singleton, hpending] at hreading
      have hfeed : Decoder.feed ⟨[], some pending⟩ b = Decoder.feed ⟨[replacement], none⟩ b := by
        rw [Decoder.feed]
        dsimp only
        rw [hnext]
        rfl
      rw [List.foldl_cons, hfeed, ← List.foldl_cons, Decoder.finish_foldl_feed]
      rfl

/-- The lossy reader shows bytes the way they are to be shown, and there is no other way. -/
theorem shownAs_iff (bytes : List UInt8) (text : Text) :
    ShownAs bytes text ↔ decodeLossy bytes = text := by
  have hread : ∀ shown, ShownAs bytes shown → decodeLossy bytes = shown := by
    intro shown h
    induction h with
    | nil => rfl
    | character c _ ih => rw [decodeLossy_encodeChar_append, ih]
    | cutShort hpiece _ ih => rw [decodeLossy_of_isCutShort hpiece, ih]
    | stray hb _ ih => rw [decodeLossy_of_stray hb, ih]
  constructor
  · exact hread text
  · rintro rfl
    obtain ⟨shown, h⟩ := exists_shownAs bytes
    rwa [hread shown h]

/-! ### Texts behind other bytes -/

/-- Where a character begins, what precedes it is shown as if nothing followed. -/
theorem ShownAs.append {front back : List UInt8} {text more : Text} (h : ShownAs front text)
    (hback : ShownAs back more) (hseam : ∀ b ∈ back.head?, BeginsCharacter [b]) :
    ShownAs (front ++ back) (text ++ more) := by
  induction h with
  | nil => exact hback
  | character c _ ih =>
      rw [List.append_assoc]
      exact .character c ih
  | @cutShort piece rest _ hpiece _ ih =>
      rw [List.append_assoc]
      refine .cutShort ⟨hpiece.ne_nil, hpiece.begins, hpiece.not_whole, ?_⟩ ih
      intro b hb
      cases rest with
      | nil => exact not_beginsCharacter_append hpiece.ne_nil (hseam b hb)
      | cons => exact hpiece.ends b hb
  | stray hb _ ih => exact .stray hb ih

theorem shownAs_encode (text : Text) : ShownAs (encode text) text := by
  induction text with
  | nil => exact .nil
  | cons c text ih =>
      rw [encode_cons]
      exact .character c ih

theorem head?_encode_begins (text : Text) : ∀ b ∈ (encode text).head?, BeginsCharacter [b] := by
  intro b hb
  cases text with
  | nil => contradiction
  | cons c text =>
      obtain ⟨first, rest, hbytes, -⟩ := exists_reading_encodeChar c
      rw [encode_cons, hbytes] at hb
      obtain rfl : first = b := Option.some.inj hb
      exact ⟨c, rest, hbytes.symm⟩

/-- Bytes that are shown without a replacement are the encoding of what they are shown as. -/
theorem ShownAs.eq_encode_or_mem {bytes : List UInt8} {text : Text} (h : ShownAs bytes text) :
    bytes = encode text ∨ replacement ∈ text := by
  induction h with
  | nil => exact .inl rfl
  | character c _ ih =>
      rcases ih with rfl | hmem
      · exact .inl (encode_cons c _).symm
      · exact .inr (List.mem_cons_of_mem c hmem)
  | cutShort => exact .inr List.mem_cons_self
  | stray => exact .inr List.mem_cons_self

/-- A text behind other bytes is shown as it is, whatever they end in. -/
theorem decodeLossy_append_encode (bytes : List UInt8) (text : Text) :
    decodeLossy (bytes ++ encode text) = decodeLossy bytes ++ text := by
  have hbytes : ShownAs bytes (decodeLossy bytes) := (shownAs_iff _ _).mpr rfl
  exact (shownAs_iff _ _).mp
    (hbytes.append (shownAs_encode text) (head?_encode_begins text))

/-- A character that is cut short by the end of the bytes is shown as one replacement. -/
theorem decodeLossy_append_of_isCutShort (front : List UInt8) {piece : List UInt8}
    (h : IsCutShort piece []) :
    decodeLossy (front ++ piece) = decodeLossy front ++ [replacement] := by
  have hfront : ShownAs front (decodeLossy front) := (shownAs_iff _ _).mpr rfl
  have hpiece : ShownAs piece [replacement] := by
    rw [← List.append_nil piece]
    exact .cutShort h .nil
  refine (shownAs_iff _ _).mp (hfront.append hpiece ?_)
  intro b hb
  obtain ⟨tail, rfl⟩ := List.head?_eq_some_iff.mp hb
  exact h.begins.of_prefix ⟨tail, rfl⟩

end Text

namespace Path

/-- The default output is spelled like its input with a suffix behind it, and so it is shown: the
suffix stays what it is behind any bytes.  An input that is the encoding of a text is shown as
that text, one that is not has a replacement in it, and a character that the end of the input
cuts short is one replacement before the suffix. -/
theorem display_defaultOutput (input : Path) :
    input.defaultOutput.bytes = input.bytes ++ Text.encode ".c".toList ∧
      (∀ text, Text.ShownAs input.bytes text ↔ input.display = text) ∧
      (∀ text, Text.ShownAs input.defaultOutput.bytes text ↔
        input.defaultOutput.display = text) ∧
      input.defaultOutput.display = input.display ++ ".c".toList ∧
      (∀ text, input.bytes = Text.encode text →
        input.defaultOutput.display = text ++ ".c".toList) ∧
      ((∀ text, input.bytes ≠ Text.encode text) →
        Text.replacement ∈ input.defaultOutput.display) ∧
      ∀ front piece, input.bytes = front ++ piece → Text.IsCutShort piece [] →
        input.defaultOutput.display =
          Text.decodeLossy front ++ Text.replacement :: ".c".toList := by
  have hdisplay : input.defaultOutput.display = input.display ++ ".c".toList :=
    Text.decodeLossy_append_encode input.bytes ".c".toList
  refine ⟨rfl, Text.shownAs_iff _, Text.shownAs_iff _, hdisplay, ?_, ?_, ?_⟩
  · intro text htext
    rw [hdisplay, display, htext, Text.decodeLossy_encode]
  · intro hinvalid
    have hshown : Text.ShownAs input.bytes input.display := (Text.shownAs_iff _ _).mpr rfl
    rw [hdisplay]
    exact List.mem_append_left _ (hshown.eq_encode_or_mem.resolve_left (hinvalid _))
  · intro front piece hbytes hpiece
    rw [hdisplay, display, hbytes, Text.decodeLossy_append_of_isCutShort front hpiece]
    simp

/-- An accented letter before the suffix, and two of the three bytes of a euro sign. -/
theorem display_defaultOutput_euro_cut :
    let letter : Path := ⟨Text.encode ['é']⟩
    let cut : Path := ⟨[0x61] ++ [0xE2, 0x82]⟩
    (letter.bytes = Text.encode ['é'] ∧ letter.defaultOutput.display = "é.c".toList) ∧
      ((∀ text, cut.bytes ≠ Text.encode text) ∧
        Text.replacement ∈ cut.defaultOutput.display) ∧
      Text.IsCutShort [0xE2, 0x82] [] ∧ cut.defaultOutput.display = "a\uFFFD.c".toList := by
  intro letter cut
  have hpiece : Text.IsCutShort [0xE2, 0x82] [] := by
    obtain ⟨hbegins, hwhole⟩ := (Text.exists_reading_eq_more_iff 0xE2 [0x82]).mp ⟨_, rfl⟩
    exact ⟨List.cons_ne_nil _ _, hbegins, hwhole, by simp⟩
  have hinvalid : ∀ text, cut.bytes ≠ Text.encode text := by
    intro text htext
    have hdecode := Text.decode?_encode text
    rw [← htext] at hdecode
    have hnone : Text.decode? cut.bytes = none := by decide
    rw [hnone] at hdecode
    contradiction
  obtain ⟨-, -, -, -, hvalid, -, -⟩ := display_defaultOutput letter
  obtain ⟨-, -, -, -, -, hreplaced, hcut⟩ := display_defaultOutput cut
  refine ⟨⟨rfl, hvalid ['é'] rfl⟩, ⟨hinvalid, hreplaced hinvalid⟩, hpiece, ?_⟩
  rw [hcut [0x61] [0xE2, 0x82] rfl hpiece]
  decide

end Path
end ByteEmbed
