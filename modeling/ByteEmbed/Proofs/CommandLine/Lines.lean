import ByteEmbed.Proofs.CommandLine.Outcome
import ByteEmbed.Proofs.CommandLine.Spelling

/-!
# The lines that the command accepts

Arguments come to a request exactly if they are a line whose values are those of the
request: one input, an output and a name at most once, and only the name empty.

The reader settles a value when it meets the next argument, so between two items it may hold
a value back.  `Takes` is the judgment that carries the proof in one direction: the settled
values and the one held back are all that has been given.  Reading an item keeps it, or
stops because the values given by then are not admissible.  In the other direction `ReadsTo`
says what arguments have been read if reading has come this far, one case for each state in
which the reader can be.
-/

namespace ByteEmbed
namespace CommandLine

/-! ### Values and requests -/

/-- The values that are given for a role, in order. -/
def valuesFor (role : Role) (given : List Given) : List Text :=
  (given.filter fun one => one.role = role).map Given.value

/-- Whether a request is what values come to. -/
structure Request.IsGivenBy (request : Request) (given : List Given) : Prop where
  input : valuesFor .input given = [request.input]
  output : valuesFor .output given = request.output.toList
  name : valuesFor .name given = request.name.toList
  input_ne_nil : request.input ≠ []
  output_ne_nil : request.output ≠ some []

/-- Whether nothing is given twice, and nothing but the name is empty. -/
structure Admissible (given : List Given) : Prop where
  once : ∀ role, (valuesFor role given).length ≤ 1
  ne_nil : ∀ role, role ≠ .name → [] ∉ valuesFor role given

@[simp]
theorem valuesFor_append (role : Role) (front back : List Given) :
    valuesFor role (front ++ back) = valuesFor role front ++ valuesFor role back := by
  simp [valuesFor]

theorem valuesFor_singleton (role : Role) (one : Given) :
    valuesFor role [one] = if one.role = role then [one.value] else [] := by
  rw [valuesFor, List.filter_singleton]
  by_cases h : one.role = role <;> simp [h]

theorem Admissible.of_prefix {front given : List Given} (h : Admissible given)
    (hfront : front <+: given) : Admissible front := by
  obtain ⟨back, rfl⟩ := hfront
  constructor
  · intro role
    have hlength := h.once role
    rw [valuesFor_append, List.length_append] at hlength
    omega
  · intro role hrole hmem
    apply h.ne_nil role hrole
    simp [hmem]

theorem Request.IsGivenBy.admissible {request : Request} {given : List Given}
    (h : request.IsGivenBy given) : Admissible given where
  once role := by
    cases role with
    | input => simp [h.input]
    | output =>
        rw [h.output]
        exact Option.length_toList_le
    | name =>
        rw [h.name]
        exact Option.length_toList_le
  ne_nil role hrole hmem := by
    cases role with
    | input =>
        rw [h.input, List.mem_singleton] at hmem
        exact h.input_ne_nil hmem.symm
    | output =>
        rw [h.output, Option.mem_toList] at hmem
        exact h.output_ne_nil hmem
    | name => exact hrole rfl

/-! ### What has been taken -/

variable {scan next : Scan} {role : Role} {given : List Given}

/-- Whether the settled values are those given, and nothing is held back. -/
structure Stores (scan : Scan) (given : List Given) : Prop where
  held : scan.held = none
  values : ∀ role, (scan.get? role).toList = valuesFor role given
  ne_nil : ∀ role, role ≠ .name → [] ∉ valuesFor role given

theorem Stores.admissible (h : Stores scan given) : Admissible given where
  once role := by
    rw [← h.values role]
    exact Option.length_toList_le
  ne_nil := h.ne_nil

/-- Whether the settled values and the one held back are those given. -/
inductive Takes : Scan → List Given → Prop where
  | settled {scan : Scan} {given : List Given} (h : Stores scan given) : Takes scan given
  | held {scan : Scan} {given : List Given} {role : Role} {value : Text}
      (hheld : scan.held = some ⟨role, some value⟩)
      (h : Stores { scan with held := none } given) : Takes scan (given ++ [⟨role, value⟩])

/-- Whether reading has come to a scan as described, or has stopped though the values given
leave no other choice. -/
def ComesTo (given : List Given) (described : Scan → Prop) : Except Stop Scan → Prop
  | .ok scan => described scan
  | .error _ => ¬ Admissible given

theorem ComesTo.bind {front : List Given} {first second : Scan → Prop}
    {result : Except Stop Scan} {rest : Scan → Except Stop Scan} (hfront : front <+: given)
    (h : ComesTo front first result)
    (hrest : ∀ scan, first scan → ComesTo given second (rest scan)) :
    ComesTo given second (result.bind rest) := by
  cases result with
  | error stop => exact fun hadmissible => h (hadmissible.of_prefix hfront)
  | ok scan => exact hrest scan h

theorem ComesTo.mono {front : List Given} {first second : Scan → Prop}
    {result : Except Stop Scan} (hfront : front <+: given) (h : ComesTo front first result)
    (himp : ∀ scan, first scan → second scan) : ComesTo given second result := by
  cases result with
  | error stop => exact fun hadmissible => h (hadmissible.of_prefix hfront)
  | ok scan => exact himp scan h

theorem get?_put (scan : Scan) (role other : Role) (value : Text) :
    (scan.put role value).get? other = if role = other then some value else scan.get? other := by
  cases role <;> cases other <;> rfl

theorem held_put (scan : Scan) (role : Role) (value : Text) :
    (scan.put role value).held = scan.held := by
  cases role <;> rfl

theorem flagsEnded_put (scan : Scan) (role : Role) (value : Text) :
    (scan.put role value).flagsEnded = scan.flagsEnded := by
  cases role <;> rfl

theorem comesTo_store (h : Stores scan given) (role : Role) (value : Text) :
    ComesTo (given ++ [⟨role, value⟩])
      (fun next => Stores next (given ++ [⟨role, value⟩]) ∧ next.flagsEnded = scan.flagsEnded)
      (scan.store role value) := by
  rw [Scan.store]
  by_cases hold : (scan.get? role).isSome = true
  · rw [if_pos hold]
    intro hadmissible
    obtain ⟨old, hget⟩ := Option.isSome_iff_exists.mp hold
    have honce := hadmissible.once role
    rw [valuesFor_append, ← h.values role, hget, valuesFor_singleton, if_pos rfl] at honce
    simp at honce
  · rw [if_neg hold]
    by_cases hempty : role ≠ .name ∧ value = []
    · rw [if_pos hempty]
      intro hadmissible
      apply hadmissible.ne_nil role hempty.1
      simp [valuesFor_singleton, hempty.2]
    · rw [if_neg hempty]
      have hnone : scan.get? role = none := by simpa using hold
      refine ⟨⟨?_, ?_, ?_⟩, flagsEnded_put scan role value⟩
      · rw [held_put, h.held]
      · intro other
        rw [get?_put, valuesFor_append, ← h.values other, valuesFor_singleton]
        by_cases hother : role = other
        · subst hother
          simp [hnone]
        · simp [hother]
      · intro other hother hmem
        rw [valuesFor_append, valuesFor_singleton] at hmem
        rcases List.mem_append.mp hmem with hmem | hmem
        · exact h.ne_nil other hother hmem
        · by_cases hrole : role = other
          · subst hrole
            rw [if_pos rfl, List.mem_singleton] at hmem
            exact hempty ⟨hother, hmem.symm⟩
          · rw [if_neg hrole] at hmem
            cases hmem

theorem comesTo_settle (h : Takes scan given) :
    ComesTo given (fun next => Stores next given ∧ next.flagsEnded = scan.flagsEnded)
      scan.settle := by
  rw [Scan.settle]
  cases h with
  | settled h =>
      rw [h.held]
      exact ⟨h, rfl⟩
  | held hheld h =>
      rw [hheld]
      exact comesTo_store h _ _

/-! ### Reading a line -/

theorem comesTo_hold (h : Takes scan given) (role : Role) (value : Option Text) :
    ComesTo given
      (fun next => next.held = some ⟨role, value⟩ ∧ Stores { next with held := none } given ∧
        next.flagsEnded = scan.flagsEnded)
      (scan.hold role value) := by
  refine (comesTo_settle h).bind List.prefix_rfl ?_
  rintro settled ⟨hstores, hflags⟩
  refine ⟨rfl, ?_, hflags⟩
  obtain ⟨hheld, hvalues, hne⟩ := hstores
  exact ⟨rfl, hvalues, hne⟩

theorem comesTo_settle_store (h : Takes scan given) (role : Role) (value : Text) :
    ComesTo (given ++ [⟨role, value⟩])
      (fun next => Takes next (given ++ [⟨role, value⟩]) ∧ next.flagsEnded = scan.flagsEnded)
      (scan.settle.bind fun settled => settled.store role value) := by
  refine (comesTo_settle h).bind (List.prefix_append _ _) ?_
  rintro settled ⟨hstores, hsettled⟩
  refine (comesTo_store hstores role value).mono List.prefix_rfl ?_
  rintro next ⟨hnext, hflags⟩
  exact ⟨.settled hnext, hflags.trans hsettled⟩

theorem Stores.valuesFor_input_ne_nil (h : Stores scan given)
    (hinput : scan.input.isSome = true) : valuesFor .input given ≠ [] := by
  obtain ⟨value, hvalue⟩ := Option.isSome_iff_exists.mp hinput
  rw [← h.values, Scan.get?, hvalue]
  exact List.cons_ne_nil _ _

/-- If there has been an input, then it is among the values taken. -/
theorem Takes.valuesFor_input_ne_nil (h : Takes scan given) (hinput : scan.hasInput = true) :
    valuesFor .input given ≠ [] := by
  rw [Scan.hasInput, Bool.or_eq_true] at hinput
  cases h with
  | settled h =>
      rcases hinput with hinput | hheld
      · exact h.valuesFor_input_ne_nil hinput
      · simp [h.held] at hheld
  | held hheld h =>
      rw [valuesFor_append, ne_eq, List.append_eq_nil_iff]
      rintro ⟨hfront, hlast⟩
      rcases hinput with hinput | hrole
      · exact h.valuesFor_input_ne_nil hinput hfront
      · rw [hheld] at hrole
        simp [valuesFor_singleton] at hlast hrole
        exact hlast hrole

/-- A second input is refused at once, and that there is one is known from the values. -/
theorem comesTo_readInput (h : Takes scan given) (value : Text) :
    ComesTo (given ++ [⟨.input, value⟩])
      (fun next => Takes next (given ++ [⟨.input, value⟩]) ∧ next.flagsEnded = scan.flagsEnded)
      (scan.readInput value) := by
  rw [Scan.readInput]
  by_cases hinput : scan.hasInput = true
  · rw [if_pos hinput]
    intro hadmissible
    have honce := hadmissible.once .input
    have hpos := List.length_pos_iff.mpr (h.valuesFor_input_ne_nil hinput)
    rw [valuesFor_append, List.length_append, valuesFor_singleton, if_pos rfl,
      List.length_singleton] at honce
    omega
  · rw [if_neg hinput]
    refine (comesTo_hold h .input (some value)).mono (List.prefix_append _ _) ?_
    rintro next ⟨hheld, hstores, hflags⟩
    exact ⟨.held hheld hstores, hflags⟩

/-- A value without a flag is an input unless a flag waits for it. -/
theorem Takes.readPlain_eq (h : Takes scan given) (value : Text) :
    scan.readPlain value = scan.readInput value := by
  rw [Scan.readPlain]
  cases h with
  | settled h => rw [h.held]
  | held hheld h => rw [hheld]

theorem comesTo_item {item : List Text} {one : Given} (h : Takes scan given)
    (hflags : scan.flagsEnded = false) (hitem : Item item one) :
    ComesTo (given ++ [one])
      (fun next => Takes next (given ++ [one]) ∧ next.flagsEnded = false)
      (item.foldlM Scan.read scan) := by
  rw [← hflags]
  cases hitem with
  | input hvalue =>
      rw [List.foldlM_cons, read_value hflags hvalue, h.readPlain_eq]
      exact (comesTo_readInput h _).bind List.prefix_rfl fun next hnext => hnext
  | separate hflag hvalue =>
      rw [List.foldlM_cons, read_flag hflags hflag]
      refine (comesTo_hold h _ none).bind (List.prefix_append _ _) ?_
      rintro next ⟨hheld, hstores, hnext⟩
      rw [List.foldlM_cons, read_value (hnext.trans hflags) hvalue, Scan.readPlain, hheld]
      exact ⟨.held rfl hstores, hnext⟩
  | joined hflag value =>
      rw [List.foldlM_cons, read_joined hflags hflag]
      exact (comesTo_settle_store h _ _).bind List.prefix_rfl fun next hnext => hnext
  | attached hflag hne hhead =>
      rw [List.foldlM_cons, read_attached hflags hflag hne hhead]
      exact (comesTo_settle_store h _ _).bind List.prefix_rfl fun next hnext => hnext

variable {args other : List Text} {others : List Given}

/-- Reading items takes their values, by induction on the items: one that is refused has made
the values given by then inadmissible, and no more values make them admissible again. -/
theorem comesTo_items (h : Items args given) :
    ComesTo given (fun next => Takes next given ∧ next.flagsEnded = false)
      (args.foldlM Scan.read {}) := by
  induction h with
  | nil =>
      refine ⟨.settled ⟨rfl, ?_, fun _ _ => List.not_mem_nil⟩, rfl⟩
      intro role
      cases role <;> rfl
  | snoc _ hlast ih =>
      rw [List.foldlM_append]
      exact ih.bind (List.prefix_append _ _) fun scan hscan => comesTo_item hscan.1 hscan.2 hlast

theorem Takes.of_flagsEnded (h : Takes scan given) (flagsEnded : Bool) :
    Takes { scan with flagsEnded } given := by
  cases h with
  | settled h => exact .settled ⟨h.held, h.values, h.ne_nil⟩
  | held hheld h => exact .held hheld ⟨h.held, h.values, h.ne_nil⟩

theorem comesTo_line (h : Line args given) :
    ComesTo given (fun next => Takes next given) (args.foldlM Scan.read {}) := by
  cases h with
  | items h => exact (comesTo_items h).mono List.prefix_rfl fun next hnext => hnext.1
  | ended h =>
      rw [List.foldlM_append]
      refine (comesTo_items h).bind List.prefix_rfl fun scan hscan => ?_
      rw [List.foldlM_cons, read_flagsEnd hscan.2]
      exact hscan.1.of_flagsEnded true
  | endedInput h value =>
      rw [List.foldlM_append]
      refine (comesTo_items h).bind (List.prefix_append _ _) fun scan hscan => ?_
      rw [List.foldlM_cons, read_flagsEnd hscan.2]
      change ComesTo _ _ (List.foldlM Scan.read { scan with flagsEnded := true } [value])
      rw [List.foldlM_cons, read_of_flagsEnded rfl]
      exact (comesTo_readInput (hscan.1.of_flagsEnded true) value).bind List.prefix_rfl
        fun next hnext => hnext.1

/-! ### The request of a line -/

theorem eq_of_toList_eq {first second : Option Text} (h : first.toList = second.toList) :
    first = second := by
  ext value
  rw [← Option.mem_toList, h, Option.mem_toList]

/-- The request of a scan whose values are settled. -/
theorem Stores.request_iff (h : Stores scan given) (asked : Request) :
    (scan.input = some asked.input ∧ scan.output = asked.output ∧ scan.name = asked.name) ↔
      asked.IsGivenBy given := by
  have hinput := h.values .input
  have houtput := h.values .output
  have hname := h.values .name
  dsimp only [Scan.get?] at hinput houtput hname
  constructor
  · rintro ⟨hi, ho, hn⟩
    rw [hi] at hinput
    rw [ho] at houtput
    rw [hn] at hname
    refine ⟨hinput.symm, houtput.symm, hname.symm, ?_, ?_⟩
    · intro hnil
      apply h.ne_nil .input nofun
      rw [← hinput, hnil]
      exact List.mem_singleton_self _
    · intro hnil
      apply h.ne_nil .output nofun
      rw [← houtput, hnil]
      exact List.mem_singleton_self _
  · intro hgiven
    rw [hgiven.input] at hinput
    rw [hgiven.output] at houtput
    rw [hgiven.name] at hname
    exact ⟨Option.toList_eq_singleton_iff.mp hinput, eq_of_toList_eq houtput,
      eq_of_toList_eq hname⟩

theorem request_eq_ok_iff_of_line (h : Line args given) (asked : Request) :
    request args = .ok asked ↔ asked.IsGivenBy given := by
  have hline := comesTo_line h
  rw [request]
  generalize args.foldlM Scan.read {} = result at hline
  cases result with
  | error stop =>
      refine iff_of_false ?_ fun hgiven => hline hgiven.admissible
      intro hok
      cases hok
  | ok scan =>
      have hsettle := comesTo_settle hline
      change (scan.settle >>= _) = _ ↔ _
      generalize scan.settle = result at hsettle
      cases result with
      | error stop =>
          refine iff_of_false ?_ fun hgiven => hsettle hgiven.admissible
          intro hok
          cases hok
      | ok settled =>
          rw [← hsettle.1.request_iff asked]
          obtain ⟨input, output, name, held, flagsEnded⟩ := settled
          obtain ⟨askedInput, askedOutput, askedName⟩ := asked
          cases input with
          | none =>
              constructor
              · intro hok
                cases hok
              · rintro ⟨hinput, -⟩
                cases hinput
          | some input =>
              change Except.ok _ = Except.ok _ ↔ _
              simp

/-! ### What has been read -/

/-- Whether the last argument read is a flag whose value is still to come. -/
def Scan.Waits (scan : Scan) : Prop :=
  ∃ role, scan.held = some ⟨role, none⟩

theorem not_waits_of_held (hheld : scan.held = none) : ¬ scan.Waits := by
  rintro ⟨role, hwaits⟩
  rw [hheld] at hwaits
  cases hwaits

theorem not_waits_of_held_value (hheld : scan.held = some ⟨role, some value⟩) :
    ¬ scan.Waits := by
  rintro ⟨waiting, hwaits⟩
  rw [hheld] at hwaits
  cases hwaits

/-- A value without a flag is an input if no flag waits for it. -/
theorem readPlain_of_not_waits (h : ¬ scan.Waits) (value : Text) :
    scan.readPlain value = scan.readInput value := by
  unfold Scan.readPlain
  split
  · next role hheld => exact absurd ⟨role, hheld⟩ h
  · rfl

theorem store_eq_ok (h : scan.store role value = .ok next) : next = scan.put role value := by
  unfold Scan.store at h
  split at h
  · cases h
  · split at h
    · cases h
    · exact (Except.ok.inj h).symm

/-- Reading goes on behind a value only if it has come. -/
theorem settle_eq_ok (h : scan.settle = .ok next) :
    ¬ scan.Waits ∧ next.held = none ∧ next.flagsEnded = scan.flagsEnded := by
  unfold Scan.settle at h
  split at h
  · next hheld =>
      cases h
      exact ⟨not_waits_of_held hheld, hheld, rfl⟩
  · cases h
  · next role value hheld =>
      refine ⟨not_waits_of_held_value hheld, ?_, ?_⟩
      · rw [store_eq_ok h, held_put]
      · rw [store_eq_ok h, flagsEnded_put]

theorem settle_store_eq_ok
    (h : (scan.settle.bind fun settled => settled.store role value) = .ok next) :
    ¬ scan.Waits ∧ next.held = none ∧ next.flagsEnded = scan.flagsEnded := by
  rcases hsettle : scan.settle with stop | settled
  · rw [hsettle] at h
    cases h
  · rw [hsettle] at h
    obtain ⟨hwaits, hheld, hflags⟩ := settle_eq_ok hsettle
    rw [store_eq_ok h, held_put, flagsEnded_put]
    exact ⟨hwaits, hheld, hflags⟩

theorem hold_eq_ok {value : Option Text} (h : scan.hold role value = .ok next) :
    ¬ scan.Waits ∧ next.held = some ⟨role, value⟩ ∧ next.flagsEnded = scan.flagsEnded := by
  rw [Scan.hold] at h
  rcases hsettle : scan.settle with stop | settled
  · rw [hsettle] at h
    cases h
  · rw [hsettle] at h
    obtain ⟨hwaits, -, hflags⟩ := settle_eq_ok hsettle
    cases h
    exact ⟨hwaits, rfl, hflags⟩

theorem readInput_eq_ok (h : scan.readInput value = .ok next) :
    scan.hasInput = false ∧ ¬ scan.Waits ∧ next.held = some ⟨.input, some value⟩ ∧
      next.flagsEnded = scan.flagsEnded := by
  rw [Scan.readInput] at h
  by_cases hinput : scan.hasInput = true
  · rw [if_pos hinput] at h
    cases h
  · rw [if_neg hinput] at h
    exact ⟨Bool.eq_false_iff.mpr hinput, hold_eq_ok h⟩

/-- What arguments have been read when reading has come to a scan: items, and perhaps a flag
behind them, or the end of the flags, or that and an input.  No line begins with a flag
whose value is missing when the flags end. -/
inductive ReadsTo : List Text → Scan → Prop where
  | items {args : List Text} {given : List Given} {scan : Scan} (h : Items args given)
      (hflags : scan.flagsEnded = false) (hwaits : ¬ scan.Waits) : ReadsTo args scan
  | flag {args : List Text} {given : List Given} {scan : Scan} {role : Role} {flag : Text}
      (h : Items args given) (hflag : IsFlag role flag) (hflags : scan.flagsEnded = false)
      (hheld : scan.held = some ⟨role, none⟩) : ReadsTo (args ++ [flag]) scan
  | ended {args : List Text} {given : List Given} {scan : Scan} (h : Items args given)
      (hflags : scan.flagsEnded = true) (hwaits : ¬ scan.Waits) : ReadsTo (args ++ [flagsEnd]) scan
  | endedInput {args : List Text} {given : List Given} {scan : Scan} (h : Items args given)
      (value : Text) (hflags : scan.flagsEnded = true) (hwaits : ¬ scan.Waits)
      (hinput : scan.hasInput = true) : ReadsTo (args ++ [flagsEnd, value]) scan
  | stuck {args : List Text} {scan : Scan} (hflags : scan.flagsEnded = true)
      (hwaits : scan.Waits) : ReadsTo args scan

theorem ReadsTo.read {arg : Text} (h : ReadsTo args scan) (hread : scan.read arg = .ok next) :
    ReadsTo (args ++ [arg]) next := by
  cases h with
  | items h hflags hwaits =>
      rcases read_eq_ok_cases hflags hread with
        ⟨rfl, rfl⟩ | ⟨hvalue, hplain⟩ | ⟨role, ⟨hflag, hhold⟩ | ⟨value, hitem, hstore⟩⟩
      · exact .ended h rfl hwaits
      · rw [readPlain_of_not_waits hwaits] at hplain
        obtain ⟨-, -, hheld, hnext⟩ := readInput_eq_ok hplain
        exact .items (h.snoc (.input hvalue)) (hnext.trans hflags) (not_waits_of_held_value hheld)
      · obtain ⟨-, hheld, hnext⟩ := hold_eq_ok hhold
        exact .flag h hflag (hnext.trans hflags) hheld
      · obtain ⟨-, hheld, hnext⟩ := settle_store_eq_ok hstore
        exact .items (h.snoc hitem) (hnext.trans hflags) (not_waits_of_held hheld)
  | flag h hflag hflags hheld =>
      -- Any argument but the value itself, or the end of the flags, settles what is held back.
      rcases read_eq_ok_cases hflags hread with
        ⟨rfl, rfl⟩ | ⟨hvalue, hplain⟩ | ⟨role, ⟨-, hhold⟩ | ⟨value, -, hstore⟩⟩
      · exact .stuck rfl ⟨_, hheld⟩
      · rw [Scan.readPlain, hheld] at hplain
        cases hplain
        rw [List.append_assoc]
        exact .items (h.snoc (.separate hflag hvalue)) hflags (not_waits_of_held_value rfl)
      · exact absurd ⟨_, hheld⟩ (hold_eq_ok hhold).1
      · exact absurd ⟨_, hheld⟩ (settle_store_eq_ok hstore).1
  | ended h hflags hwaits =>
      rw [read_of_flagsEnded hflags] at hread
      obtain ⟨-, -, hheld, hnext⟩ := readInput_eq_ok hread
      rw [List.append_assoc]
      refine .endedInput h arg (hnext.trans hflags) (not_waits_of_held_value hheld) ?_
      rw [Scan.hasInput, hheld]
      exact Bool.or_true _
  | endedInput h value hflags hwaits hinput =>
      rw [read_of_flagsEnded hflags] at hread
      rw [(readInput_eq_ok hread).1] at hinput
      cases hinput
  | stuck hflags hwaits =>
      rw [read_of_flagsEnded hflags] at hread
      exact absurd hwaits (readInput_eq_ok hread).2.1

theorem ReadsTo.foldlM {rest : List Text} (h : ReadsTo args scan)
    (hread : rest.foldlM Scan.read scan = .ok next) : ReadsTo (args ++ rest) next := by
  induction rest generalizing args scan with
  | nil =>
      cases hread
      rwa [List.append_nil]
  | cons arg rest ih =>
      rw [List.foldlM_cons] at hread
      rcases hscan : scan.read arg with stop | reached
      · rw [hscan] at hread
        cases hread
      · rw [hscan] at hread
        rw [List.append_cons]
        exact ih (h.read hscan) hread

theorem exists_line_of_request {asked : Request} (h : request args = .ok asked) :
    ∃ given, Line args given := by
  rw [request] at h
  rcases hscan : args.foldlM Scan.read {} with stop | scan
  · rw [hscan] at h
    cases h
  have hreads : ReadsTo args scan :=
    ReadsTo.foldlM (.items .nil rfl (not_waits_of_held rfl)) hscan
  rw [hscan] at h
  change (scan.settle >>= _) = _ at h
  rcases hsettle : scan.settle with stop | settled
  · rw [hsettle] at h
    cases h
  have hwaits := (settle_eq_ok hsettle).1
  cases hreads with
  | items h _ _ => exact ⟨_, .items h⟩
  | flag _ _ _ hheld => exact absurd ⟨_, hheld⟩ hwaits
  | ended h _ _ => exact ⟨_, .ended h⟩
  | endedInput h value _ _ _ => exact ⟨_, .endedInput h value⟩
  | stuck _ hstuck => exact absurd hstuck hwaits

/-! ### The accepted lines -/

/-- The arguments that come to a request are the lines of its values. -/
theorem request_eq_ok_iff (args : List Text) (asked : Request) :
    request args = .ok asked ↔ ∃ given, Line args given ∧ asked.IsGivenBy given := by
  constructor
  · intro h
    obtain ⟨given, hline⟩ := exists_line_of_request h
    exact ⟨given, hline, (request_eq_ok_iff_of_line hline asked).mp h⟩
  · rintro ⟨given, hline, hgiven⟩
    exact (request_eq_ok_iff_of_line hline asked).mpr hgiven

theorem eq_toList_of_perm {values : List Text} {value : Option Text}
    (h : values.Perm value.toList) : values = value.toList := by
  cases value with
  | none => exact List.perm_nil.mp h
  | some value => exact List.perm_singleton.mp h

/-- Values come to the same request in any order. -/
theorem Request.IsGivenBy.of_perm {asked : Request} (hgiven : asked.IsGivenBy given)
    (h : given.Perm others) : asked.IsGivenBy others := by
  have hperm : ∀ role, (valuesFor role others).Perm (valuesFor role given) := fun role =>
    (h.symm.filter _).map _
  obtain ⟨hinput, houtput, hname, hinputNe, houtputNe⟩ := hgiven
  refine ⟨?_, ?_, ?_, hinputNe, houtputNe⟩
  · exact List.perm_singleton.mp (hinput ▸ hperm .input)
  · exact eq_toList_of_perm (houtput ▸ hperm .output)
  · exact eq_toList_of_perm (hname ▸ hperm .name)

end CommandLine
end ByteEmbed
