import ByteEmbed.Proofs.CommandLine.Lines

/-!
# Arguments that settle a run

Reading goes from left to right, so a stop that is met is met whatever follows.  Other stops
come up only at the end of the arguments, when what is held back is settled, and there more
arguments might help.  They do if no input has been given, and if a flag still waits for its
value.  In all other cases what is held back stays wrong: `Scan.IsDoomed` is the judgment,
an argument more keeps it or ends the reading with a usage error, and so do any number.

`run_append_of_stop` says this of whole runs: the outcome of a decided front is that of the
run, and a front that is rejected is never the beginning of a job.
-/

namespace ByteEmbed
namespace CommandLine

/-- Whether a stop ends the reading where it is met: an inquiry, an argument that is not
expected, and a value for an inquiry. -/
inductive Stop.IsImmediate : Stop → Prop where
  | inquiry (asked : Inquiry) : IsImmediate (.inquiry asked)
  | unexpectedArgument (arg : Text) : IsImmediate (.usage (.unexpectedArgument arg))
  | unexpectedValue (asked : Inquiry) (value : Text) :
      IsImmediate (.usage (.unexpectedValue asked value))

/-- Whether arguments end in a flag that waits for its value: items whose values are
admissible, and the flag behind them. -/
inductive AwaitsValue : List Text → Prop where
  | flag {args : List Text} {given : List Given} {role : Role} {flag : Text}
      (h : Items args given) (hgiven : Admissible given) (hflag : IsFlag role flag) :
      AwaitsValue (args ++ [flag])

variable {scan next : Scan} {role : Role} {given : List Given} {args front : List Text}
  {stop : Stop} {wrong : UsageError}

theorem IsFlag.ne_flagsEnd {flag : Text} (h : IsFlag role flag) : flag ≠ flagsEnd := by
  cases h with
  | short h => cases h <;> decide
  | longName => decide
  | longOutput => decide

/-- No flag waits behind the end of the flags. -/
theorem not_awaitsValue_flagsEnd (args : List Text) : ¬ AwaitsValue (args ++ [flagsEnd]) := by
  intro h
  generalize hwhole : args ++ [flagsEnd] = whole at h
  cases h with
  | flag _ _ hflag => exact hflag.ne_flagsEnd (List.append_singleton_inj.mp hwhole).2.symm

/-! ### Stops -/

/-- Whether an error is noticed when a value is settled. -/
inductive UsageError.IsLate : UsageError → Prop where
  | valueRequired (role : Role) : IsLate (.valueRequired role)
  | repeated (role : Role) : IsLate (.repeated role)

theorem store_eq_error {value : Text} (h : scan.store role value = .error stop) :
    ∃ wrong : UsageError, wrong.IsLate ∧ stop = .usage wrong := by
  unfold Scan.store at h
  split at h
  · cases h
    exact ⟨_, .repeated role, rfl⟩
  · split at h
    · cases h
      exact ⟨_, .valueRequired role, rfl⟩
    · cases h

theorem settle_eq_error (h : scan.settle = .error stop) :
    ∃ wrong : UsageError, wrong.IsLate ∧ stop = .usage wrong := by
  unfold Scan.settle at h
  split at h
  · cases h
  · cases h
    exact ⟨_, .valueRequired _, rfl⟩
  · exact store_eq_error h

/-- Reading stops, or what is held back at the end cannot be settled, or there is no input. -/
theorem parse_eq_error_cases (h : parse args = .error stop) :
    args.foldlM Scan.read {} = .error stop ∨
      (∃ scan, args.foldlM Scan.read {} = .ok scan ∧ scan.settle = .error stop) ∨
      stop = .usage .missingInput := by
  rw [parse] at h
  rcases hread : args.foldlM Scan.read {} with early | scan
  · rw [hread] at h
    cases h
    exact .inl rfl
  · rw [hread] at h
    change scan.finish = _ at h
    rw [Scan.finish] at h
    rcases hsettle : scan.settle with late | settled
    · rw [hsettle] at h
      cases h
      exact .inr (.inl ⟨scan, rfl, hsettle⟩)
    · rw [hsettle] at h
      obtain ⟨input, output, name, held, flagsEnded⟩ := settled
      cases input with
      | none =>
          cases h
          exact .inr (.inr rfl)
      | some input => cases h

theorem parse_append_of_read_error (h : front.foldlM Scan.read {} = .error stop)
    (rest : List Text) : parse (front ++ rest) = .error stop := by
  rw [parse, List.foldlM_append, h]
  rfl

/-- An immediate stop has ended the reading. -/
theorem read_of_isImmediate (h : parse args = .error stop) (hstop : stop.IsImmediate) :
    args.foldlM Scan.read {} = .error stop := by
  rcases parse_eq_error_cases h with hread | ⟨scan, -, hsettle⟩ | rfl
  · exact hread
  · obtain ⟨wrong, hlate, rfl⟩ := settle_eq_error hsettle
    cases hlate <;> cases hstop
  · cases hstop

/-! ### Scans that nothing can mend -/

/-- Whether what is held back cannot be settled, and no value can be given for it any more. -/
structure Scan.IsDoomed (scan : Scan) : Prop where
  settle : ∃ wrong, scan.settle = .error (.usage wrong)
  flagsEnded : scan.Waits → scan.flagsEnded = true

theorem hold_of_settle_error (h : scan.settle = .error stop) (role : Role) (value : Option Text) :
    scan.hold role value = .error stop := by
  rw [Scan.hold, h]
  rfl

theorem readFlag_of_settle_error (h : scan.settle = .error stop) (attached : Option Text)
    (known : Flag) : scan.readFlag attached known = .error stop := by
  unfold Scan.readFlag
  cases known with
  | value role =>
      cases attached with
      | none => exact hold_of_settle_error h role none
      | some value =>
          dsimp only
          rw [h]
          rfl
  | inquiry asked =>
      dsimp only
      rw [h]
      rfl

theorem readInput_of_settle_error (h : scan.settle = .error (.usage wrong)) (value : Text) :
    ∃ other, scan.readInput value = .error (.usage other) := by
  rw [Scan.readInput]
  split
  · exact ⟨_, rfl⟩
  · exact ⟨wrong, hold_of_settle_error h .input (some value)⟩

theorem readLong_of_settle_error (h : scan.settle = .error (.usage wrong)) (flag : Text)
    (attached : Option Text) : ∃ other, scan.readLong flag attached = .error (.usage other) := by
  unfold Scan.readLong
  split
  · exact ⟨_, rfl⟩
  · exact ⟨_, rfl⟩
  · exact ⟨wrong, readFlag_of_settle_error h _ _⟩

theorem readShort_of_settle_error (h : scan.settle = .error (.usage wrong)) (flag : Char)
    (attached : Text) : ∃ other, scan.readShort flag attached = .error (.usage other) := by
  unfold Scan.readShort
  split
  · exact ⟨_, rfl⟩
  · exact ⟨wrong, readFlag_of_settle_error h _ _⟩

/-- Whether a value can be settled depends on what has been settled for its role. -/
theorem store_error_congr {value : Text} (h : scan.store role value = .error stop)
    (hget : next.get? role = scan.get? role) : next.store role value = .error stop := by
  rw [Scan.store] at h ⊢
  rw [hget]
  split at h
  · next hrepeated =>
      rw [if_pos hrepeated]
      exact h
  · next hfirst =>
      rw [if_neg hfirst]
      split at h
      · next hempty =>
          rw [if_pos hempty]
          exact h
      · cases h

/-- The end of the flags does not help what is held back. -/
theorem settle_flagsEnded_of_error (h : scan.settle = .error stop) :
    { scan with flagsEnded := true }.settle = .error stop := by
  obtain ⟨input, output, name, held, flagsEnded⟩ := scan
  rcases held with _ | ⟨role, _ | value⟩
  · cases h
  · exact h
  · exact store_error_congr h (by cases role <;> rfl)

theorem Scan.IsDoomed.read (h : scan.IsDoomed) (arg : Text) :
    (∃ wrong, scan.read arg = .error (.usage wrong)) ∨
      ∃ next, scan.read arg = .ok next ∧ next.IsDoomed := by
  obtain ⟨⟨wrong, hsettle⟩, hflags⟩ := h
  rw [Scan.read]
  split
  · exact .inl (readInput_of_settle_error hsettle arg)
  · next hended =>
      split
      · exact .inr ⟨_, rfl, ⟨wrong, settle_flagsEnded_of_error hsettle⟩, fun _ => rfl⟩
      · exact .inl (readLong_of_settle_error hsettle _ _)
      · exact .inl (readShort_of_settle_error hsettle _ _)
      · next value _ =>
          rw [readPlain_of_not_waits fun hwaits => hended (hflags hwaits)]
          exact .inl (readInput_of_settle_error hsettle value)

/-- Whatever follows a doomed scan ends in a usage error, by induction on what follows. -/
theorem Scan.IsDoomed.finish (h : scan.IsDoomed) (rest : List Text) :
    ∃ wrong, (rest.foldlM Scan.read scan).bind Scan.finish = .error (.usage wrong) := by
  induction rest generalizing scan with
  | nil =>
      obtain ⟨wrong, hsettle⟩ := h.settle
      refine ⟨wrong, ?_⟩
      change scan.finish = _
      rw [Scan.finish, hsettle]
      rfl
  | cons arg rest ih =>
      rw [List.foldlM_cons]
      rcases h.read arg with ⟨wrong, hread⟩ | ⟨next, hread, hnext⟩
      · rw [hread]
        exact ⟨wrong, rfl⟩
      · rw [hread]
        exact ih hnext

/-! ### Fronts that are rejected -/

/-- A flag that is read after items finds their values settled. -/
theorem admissible_of_read_flag {flag : Text} (h : Items args given) (hflag : IsFlag role flag)
    (hread : (args ++ [flag]).foldlM Scan.read {} = .ok next) : Admissible given := by
  have hitems := comesTo_items h
  rw [List.foldlM_append] at hread
  rcases hfront : args.foldlM Scan.read {} with stop | before
  · rw [hfront] at hread
    cases hread
  · rw [hfront] at hread hitems
    obtain ⟨htakes, hflags⟩ := hitems
    change List.foldlM Scan.read before [flag] = .ok next at hread
    rw [List.foldlM_cons, read_flag hflags hflag] at hread
    have hhold := comesTo_hold htakes role none
    rcases hscan : before.hold role none with stop | after
    · rw [hscan] at hread
      cases hread
    · rw [hscan] at hhold
      exact hhold.2.1.admissible

theorem isDoomed_of_not_awaitsValue (hread : front.foldlM Scan.read {} = .ok scan)
    (hsettle : scan.settle = .error stop) (h : ¬ AwaitsValue front) : scan.IsDoomed := by
  obtain ⟨wrong, -, rfl⟩ := settle_eq_error hsettle
  refine ⟨⟨wrong, hsettle⟩, fun hwaits => ?_⟩
  have hreads : ReadsTo front scan :=
    ReadsTo.foldlM (.items .nil rfl (not_waits_of_held rfl)) hread
  cases hreads with
  | items _ _ hnot => exact absurd hwaits hnot
  | flag hitems hflag _ _ =>
      exact absurd (.flag hitems (admissible_of_read_flag hitems hflag hread) hflag) h
  | ended _ _ hnot => exact absurd hwaits hnot
  | endedInput _ _ _ hnot _ => exact absurd hwaits hnot
  | stuck hflags _ => exact hflags

/-- A front with a usage error is the beginning of usage errors alone, unless it lacks an input
or ends in a flag that waits. -/
theorem exists_parse_append_eq_error (h : parse front = .error (.usage wrong))
    (hinput : wrong ≠ .missingInput) (hwaits : ¬ AwaitsValue front) (rest : List Text) :
    ∃ other, parse (front ++ rest) = .error (.usage other) := by
  rcases parse_eq_error_cases h with hread | ⟨scan, hread, hsettle⟩ | hmissing
  · exact ⟨wrong, parse_append_of_read_error hread rest⟩
  · obtain ⟨other, hother⟩ := (isDoomed_of_not_awaitsValue hread hsettle hwaits).finish rest
    refine ⟨other, ?_⟩
    rw [parse, List.foldlM_append, hread]
    exact hother
  · cases hmissing
    contradiction

theorem run_of_parse_error (tree : FileTree) (workDir : Place) (h : parse args = .error stop) :
    (run (FileTree.files workDir) args).run tree = (stop.outcome, tree) := by
  rw [run, h]
  rfl

/-- A front that ends in an inquiry, an unexpected argument or an unexpected value decides the
run.  Any other usage error of a front, if it is not that the input is missing, makes the run
end in a usage error, unless the front ends in a flag that waits for its value.  In both cases
the tree stays as it is. -/
theorem run_append_of_stop (tree : FileTree) (workDir : Place) (front rest : List Text) :
    (∀ stop : Stop, parse front = .error stop → stop.IsImmediate →
      (run (FileTree.files workDir) front).run tree = (stop.outcome, tree) ∧
        (run (FileTree.files workDir) (front ++ rest)).run tree = (stop.outcome, tree)) ∧
      ∀ wrong : UsageError, parse front = .error (.usage wrong) → wrong ≠ .missingInput →
        ¬ AwaitsValue front → ∃ other : UsageError,
          (run (FileTree.files workDir) (front ++ rest)).run tree =
            ({ status := 2, output := [], diagnostics := Text.firstLine other.message }, tree) := by
  constructor
  · intro stop h hstop
    have happend := parse_append_of_read_error (read_of_isImmediate h hstop) rest
    exact ⟨run_of_parse_error tree workDir h, run_of_parse_error tree workDir happend⟩
  · intro wrong h hinput hwaits
    obtain ⟨other, hother⟩ := exists_parse_append_eq_error h hinput hwaits rest
    exact ⟨other, run_of_parse_error tree workDir hother⟩

/-- An inquiry wins over what is wrong behind it, and an empty output behind which the flags
have ended over an inquiry. -/
theorem run_append_of_stop_empty_output :
    let asks : List Text := ["--version".toList]
    let lacks : List Text := ["in".toList, "-o".toList, []] ++ [flagsEnd]
    (parse asks = .error (.inquiry .version) ∧
        (run (FileTree.files []) (asks ++ lacks)).run ∅ =
          ({ status := 0, output := "ctab 0.1.0\n".toList }, ∅)) ∧
      parse lacks = .error (.usage (.valueRequired .output)) ∧ ¬ AwaitsValue lacks ∧
      ∃ other : UsageError, (run (FileTree.files []) (lacks ++ asks)).run ∅ =
        ({ status := 2, output := [], diagnostics := Text.firstLine other.message }, ∅) := by
  intro asks lacks
  have hasks : parse asks = .error (.inquiry .version) := by decide
  have hlacks : parse lacks = .error (.usage (.valueRequired .output)) := by decide
  have hwaits : ¬ AwaitsValue lacks := not_awaitsValue_flagsEnd _
  obtain ⟨hdecided, -⟩ := run_append_of_stop ∅ [] asks lacks
  obtain ⟨-, hrejected⟩ := run_append_of_stop ∅ [] lacks asks
  refine ⟨⟨hasks, ?_⟩, hlacks, hwaits, hrejected _ hlacks (by decide) hwaits⟩
  exact (hdecided _ hasks (.inquiry .version)).2

end CommandLine
end ByteEmbed
