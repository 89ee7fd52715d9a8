import ByteEmbed.Sink

/-!
# What a sink collects

`offer` hands declarations to a sink one after the other, and `writeDeclaration` is one step of
it.  A step is a single write, so it leaves the whole text of a declaration behind or nothing,
and after every step the sink holds its first text and behind it the texts of the declarations
taken so far (`textAfter`).  `CollectsWhole` says this together with what decides whether a
declaration is taken, and `offer_collectsWhole` is that every run of a sink is like this.

A declaration that is refused leaves no trace: without it all others fare as they did.
-/

namespace ByteEmbed
namespace Sink

variable {sink : Sink} {d : Declaration}

/-- The declarations that were taken, going by the receipts for the first of them. -/
def taken (ds : List Declaration) (receipts : List Receipt) : List Declaration :=
  ((ds.zip receipts).filter fun offered => offered.2.taken).map Prod.fst

/-- The text of a sink that has been offered the first of some declarations: the text of the
start, and behind it that of every declaration taken, in their order. -/
def textAfter (sink : Sink) (ds : List Declaration) (count : Nat) : Text :=
  sink.text ++ (taken ds ((sink.offer ds).take count)).flatMap Declaration.render

/-- What offering declarations to a sink comes to. -/
structure CollectsWhole (sink : Sink) (ds : List Declaration) : Prop where
  -- Every declaration has a receipt.
  receipts : (sink.offer ds).length = ds.length
  -- After each of them the sink holds whole declarations, those taken so far, behind the text
  -- of the start, and has the limit of the start.
  collected : ∀ n receipt, (sink.offer ds)[n]? = some receipt →
    receipt.sink = { sink with text := sink.textAfter ds (n + 1) }
  -- A declaration is taken exactly if all of it fits behind the text before it.
  taken_iff : ∀ n d receipt, ds[n]? = some d → (sink.offer ds)[n]? = some receipt →
    (receipt.taken = true ↔ ∀ limit ∈ sink.limit,
      Text.byteLength (sink.textAfter ds n) + Text.byteLength d.render ≤ limit)
  -- The text is over the limit only if it was so at the start.
  within : ∀ receipt ∈ sink.offer ds, ∀ limit ∈ sink.limit,
    limit < Text.byteLength receipt.sink.text → limit < Text.byteLength sink.text
  -- Without a declaration that was refused, the others have the receipts that they had.
  refused : ∀ n receipt, (sink.offer ds)[n]? = some receipt → receipt.taken = false →
    sink.offer (ds.eraseIdx n) = (sink.offer ds).eraseIdx n

/-! ### One declaration -/

theorem writeDeclaration_of_fits (h : sink.Fits d.render) :
    sink.writeDeclaration d = ⟨true, { sink with text := sink.text ++ d.render }⟩ := by
  rw [writeDeclaration, write, if_pos h]

theorem writeDeclaration_of_not_fits (h : ¬ sink.Fits d.render) :
    sink.writeDeclaration d = ⟨false, sink⟩ := by
  rw [writeDeclaration, write, if_neg h]

theorem taken_writeDeclaration_iff :
    (sink.writeDeclaration d).taken = true ↔ sink.Fits d.render := by
  by_cases h : sink.Fits d.render
  · simp [writeDeclaration_of_fits h, h]
  · simp [writeDeclaration_of_not_fits h, h]

@[simp]
theorem limit_writeDeclaration (sink : Sink) (d : Declaration) :
    (sink.writeDeclaration d).sink.limit = sink.limit := by
  by_cases h : sink.Fits d.render
  · rw [writeDeclaration_of_fits h]
  · rw [writeDeclaration_of_not_fits h]

theorem sink_of_refused (h : (sink.writeDeclaration d).taken = false) :
    (sink.writeDeclaration d).sink = sink := by
  have hfits : ¬ sink.Fits d.render := by
    rw [← taken_writeDeclaration_iff, h]
    exact nofun
  rw [writeDeclaration_of_not_fits hfits]

/-- One step brings no text over the limit. -/
theorem lt_byteLength_of_writeDeclaration {limit : Nat} (hlimit : limit ∈ sink.limit)
    (h : limit < Text.byteLength (sink.writeDeclaration d).sink.text) :
    limit < Text.byteLength sink.text := by
  by_cases hfits : sink.Fits d.render
  · have hle := hfits limit hlimit
    rw [writeDeclaration_of_fits hfits, Text.byteLength_append] at h
    omega
  · rwa [writeDeclaration_of_not_fits hfits] at h

/-! ### Declarations in a row -/

theorem offer_cons (sink : Sink) (d : Declaration) (rest : List Declaration) :
    sink.offer (d :: rest) =
      sink.writeDeclaration d :: (sink.writeDeclaration d).sink.offer rest :=
  rfl

theorem textAfter_zero (sink : Sink) (ds : List Declaration) :
    sink.textAfter ds 0 = sink.text := by
  simp [textAfter, taken]

/-- The text after one declaration and then others is that which the sink of the first
comes to with the others. -/
theorem textAfter_cons_succ (sink : Sink) (d : Declaration) (rest : List Declaration) (n : Nat) :
    sink.textAfter (d :: rest) (n + 1) = (sink.writeDeclaration d).sink.textAfter rest n := by
  rw [textAfter, textAfter, offer_cons, List.take_succ_cons]
  by_cases h : sink.Fits d.render
  · simp [taken, writeDeclaration_of_fits h]
  · simp [taken, writeDeclaration_of_not_fits h]

theorem length_offer (sink : Sink) (ds : List Declaration) :
    (sink.offer ds).length = ds.length := by
  induction ds generalizing sink with
  | nil => rfl
  | cons d rest ih => rw [offer_cons, List.length_cons, List.length_cons, ih]

theorem sink_of_offer {ds : List Declaration} {n : Nat} {receipt : Receipt}
    (h : (sink.offer ds)[n]? = some receipt) :
    receipt.sink = { sink with text := sink.textAfter ds (n + 1) } := by
  induction ds generalizing sink n with
  | nil => simp [offer] at h
  | cons d rest ih =>
      rw [offer_cons] at h
      rw [textAfter_cons_succ]
      cases n with
      | zero =>
          obtain rfl := Option.some.inj h
          rw [textAfter_zero, ← limit_writeDeclaration sink d]
      | succ n =>
          rw [ih h, limit_writeDeclaration]

theorem taken_iff_of_offer {ds : List Declaration} {n : Nat} {receipt : Receipt}
    (hd : ds[n]? = some d) (h : (sink.offer ds)[n]? = some receipt) :
    receipt.taken = true ↔ ∀ limit ∈ sink.limit,
      Text.byteLength (sink.textAfter ds n) + Text.byteLength d.render ≤ limit := by
  induction ds generalizing sink n with
  | nil => cases hd
  | cons first rest ih =>
      rw [offer_cons] at h
      cases n with
      | zero =>
          obtain rfl := Option.some.inj hd
          obtain rfl := Option.some.inj h
          rw [textAfter_zero]
          exact taken_writeDeclaration_iff
      | succ n =>
          rw [textAfter_cons_succ, ← limit_writeDeclaration sink first]
          exact ih hd h

theorem lt_byteLength_of_offer {ds : List Declaration} {receipt : Receipt} {limit : Nat}
    (hreceipt : receipt ∈ sink.offer ds) (hlimit : limit ∈ sink.limit)
    (h : limit < Text.byteLength receipt.sink.text) : limit < Text.byteLength sink.text := by
  induction ds generalizing sink with
  | nil => cases hreceipt
  | cons d rest ih =>
      rw [offer_cons] at hreceipt
      apply lt_byteLength_of_writeDeclaration (d := d) hlimit
      rcases List.mem_cons.mp hreceipt with rfl | hrest
      · exact h
      · exact ih hrest (by rwa [limit_writeDeclaration])

/-- A declaration that is refused leaves the sink to the next one as it found it. -/
theorem offer_eraseIdx {ds : List Declaration} {n : Nat} {receipt : Receipt}
    (h : (sink.offer ds)[n]? = some receipt) (hrefused : receipt.taken = false) :
    sink.offer (ds.eraseIdx n) = (sink.offer ds).eraseIdx n := by
  induction ds generalizing sink n with
  | nil => simp [offer] at h
  | cons d rest ih =>
      rw [offer_cons] at h ⊢
      cases n with
      | zero =>
          obtain rfl := Option.some.inj h
          rw [List.eraseIdx_cons_zero, List.eraseIdx_cons_zero, sink_of_refused hrefused]
      | succ n =>
          rw [List.eraseIdx_cons_succ, List.eraseIdx_cons_succ, offer_cons, ih h]

/-- Every run of a sink collects declarations whole or not at all. -/
theorem offer_collectsWhole (sink : Sink) (ds : List Declaration) : CollectsWhole sink ds where
  receipts := length_offer sink ds
  collected _ _ := sink_of_offer
  taken_iff _ _ _ := taken_iff_of_offer
  within _ hreceipt _ := lt_byteLength_of_offer hreceipt
  refused _ _ := offer_eraseIdx

/-- A declaration that does not fit is passed over, and a smaller one behind it is taken. -/
example :
    (({ limit := some 60 } : Sink).offer [⟨['a'], [1]⟩, ⟨['b'], [2]⟩, ⟨['c'], []⟩]).map
        Receipt.taken =
      [true, false, true] := by
  decide +kernel

/-- In two pieces, a declaration could leave the first of them behind. -/
example :
    let d : Declaration := ⟨['a'], [1]⟩
    let sink : Sink := { limit := some 30 }
    let first := sink.write (Declaration.header d.name)
    let second := first.sink.write (Declaration.body d.bytes ++ Declaration.terminator)
    second.taken = false ∧ second.sink.text = Declaration.header d.name ∧
      (sink.writeDeclaration d).sink.text = [] := by
  decide +kernel

end Sink
end ByteEmbed
