import ByteEmbed.Proofs.Grammar.Prefix
import ByteEmbed.Proofs.Sink.Offer

/-!
# What the text of a sink says

A sink without a limit takes every declaration, so in the end it holds their texts in a row.
As long as no name holds a newline, each of them says where it ends: its header ends with
its line, and the first brace behind that is the one of its closing line.  So the
declarations can be told from the text (`text_afterAll_eq_iff`).

A name with a newline can hold the end of one declaration and the beginning of another, and
then two declarations read like one (`afterAll_pair`).
-/

namespace ByteEmbed

namespace Declaration

theorem render_ne_nil (d : Declaration) : render d ≠ [] := by
  simp [render, terminator_eq]

/-- Declarations are determined by their renderings in a row. -/
theorem flatMap_render_inj {ds es : List Declaration} (hds : ∀ d ∈ ds, '\n' ∉ d.name)
    (hes : ∀ e ∈ es, '\n' ∉ e.name) (h : ds.flatMap render = es.flatMap render) : ds = es := by
  induction ds generalizing es with
  | nil =>
      cases es with
      | nil => rfl
      | cons e es =>
          rw [List.flatMap_cons] at h
          exact absurd (List.append_eq_nil_iff.mp h.symm).1 (render_ne_nil e)
  | cons d ds ih =>
      cases es with
      | nil =>
          rw [List.flatMap_cons] at h
          exact absurd (List.append_eq_nil_iff.mp h).1 (render_ne_nil d)
      | cons e es =>
          rw [List.forall_mem_cons] at hds hes
          rw [List.flatMap_cons, List.flatMap_cons] at h
          obtain ⟨rfl, hrest⟩ := render_append_inj hds.1 hes.1 h
          rw [ih hds.2 hes.2 hrest]

end Declaration

namespace Sink

variable {sink : Sink}

/-- The sink after all of some declarations have been offered to it. -/
def afterAll (sink : Sink) (ds : List Declaration) : Sink :=
  ((sink.offer ds).getLast?.map Receipt.sink).getD sink

theorem afterAll_cons (sink : Sink) (d : Declaration) (rest : List Declaration) :
    sink.afterAll (d :: rest) = (sink.writeDeclaration d).sink.afterAll rest := by
  rw [afterAll, afterAll, offer_cons, List.getLast?_cons]
  cases (Sink.offer (sink.writeDeclaration d).sink rest).getLast? with
  | none => rfl
  | some last => rfl

theorem writeDeclaration_of_unlimited (h : sink.limit = none) (d : Declaration) :
    sink.writeDeclaration d = ⟨true, { sink with text := sink.text ++ d.render }⟩ := by
  apply writeDeclaration_of_fits
  rw [Fits, h]
  exact nofun

theorem afterAll_of_unlimited (h : sink.limit = none) (ds : List Declaration) :
    sink.afterAll ds = { sink with text := sink.text ++ ds.flatMap Declaration.render } := by
  induction ds generalizing sink with
  | nil => simp [afterAll, offer]
  | cons d rest ih =>
      have hafter : (sink.writeDeclaration d).sink.limit = none := by
        rw [limit_writeDeclaration, h]
      rw [afterAll_cons, ih hafter, writeDeclaration_of_unlimited h, List.append_assoc,
        List.flatMap_cons]

/-- Declarations that are written one after the other, without a limit, can be told from the
text, each with its name, its bytes and its position, unless a name holds a newline. -/
theorem text_afterAll_eq_iff {ds es : List Declaration} (hlimit : sink.limit = none)
    (hds : ∀ d ∈ ds, '\n' ∉ d.name) (hes : ∀ e ∈ es, '\n' ∉ e.name) :
    (sink.afterAll ds).text = (sink.afterAll es).text ↔ ds = es := by
  constructor
  · intro h
    rw [afterAll_of_unlimited hlimit, afterAll_of_unlimited hlimit] at h
    exact Declaration.flatMap_render_inj hds hes (List.append_cancel_left h)
  · rintro rfl
    rfl

/-- The names imitate the end of one declaration and the beginning of another. -/
theorem text_afterAll_eq_iff_imitation :
    let first : Declaration := ⟨"a[] = \x7b\t0x01,\x7d;static uint8_t b".toList, [2]⟩
    let second : Declaration := ⟨"a".toList, [1]⟩
    let third : Declaration := ⟨"b".toList, [2]⟩
    (({} : Sink).afterAll [first]).text ≠ (({} : Sink).afterAll [second, third]).text ∧
      (({} : Sink).afterAll [second, third]).text ≠
        (({} : Sink).afterAll [third, second]).text := by
  intro first second third
  constructor
  · rw [Ne, text_afterAll_eq_iff rfl (by decide) (by decide)]
    decide
  · rw [Ne, text_afterAll_eq_iff rfl (by decide) (by decide)]
    decide

/-- Two declarations leave the text of a single one, the name of which holds a newline. -/
theorem afterAll_pair (h : sink.limit = none) (d e : Declaration) :
    sink.afterAll [d, e] = sink.afterAll
      [⟨d.name ++ Declaration.headerSuffix ++ Declaration.body d.bytes ++ Declaration.terminator ++
        Declaration.headerPrefix ++ e.name, e.bytes⟩] := by
  simp [afterAll_of_unlimited h, Declaration.render, Declaration.header]

end Sink
end ByteEmbed
