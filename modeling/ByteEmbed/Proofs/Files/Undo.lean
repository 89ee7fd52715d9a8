import ByteEmbed.Faults

/-!
# Failed jobs on any file system

A file system with a state takes the steps of a job one after the other, and each of them
may fail.  `Undoes` says what the steps must make of the state if a failed job is to leave
nothing behind: before there is a draft they leave the state alone, and from then on it
differs from the state before by the draft only, until the draft is published or discarded.
What it is to differ by a draft is up to the file system.

`Undoes.ends_replace` is that this is enough, wherever the job fails, and `Undoes.withFaults`
that it stays true if steps fail for reasons of their own.
-/

namespace ByteEmbed

/-! ### Steps with a state -/

section Steps

variable {σ ε α β : Type}

/-- What comes behind a step is taken from the state that the step has left, if it is done. -/
theorem run_run_bind (step : ExceptT ε (StateM σ) α) (next : α → ExceptT ε (StateM σ) β)
    (s : σ) :
    (step >>= next).run.run s =
      match step.run.run s with
      | (.ok a, after) => (next a).run.run after
      | (.error e, after) => (.error e, after) := by
  rw [ExceptT.run_bind, StateT.run_bind]
  rcases step.run.run s with ⟨e | a, after⟩
  · rfl
  · rfl

/-- The handler of a step is taken from the state that the step has left, if it fails. -/
theorem run_run_tryCatch (step : ExceptT ε (StateM σ) α)
    (handler : ε → ExceptT ε (StateM σ) α) (s : σ) :
    (tryCatch step handler).run.run s =
      match step.run.run s with
      | (.ok a, after) => (.ok a, after)
      | (.error e, after) => (handler e).run.run after := by
  rw [ExceptT.run_tryCatch, StateT.run_bind]
  rcases step.run.run s with ⟨e | a, after⟩
  · rfl
  · rfl

theorem run_run_adapt {ε' : Type} (step : ExceptT ε (StateM σ) α) (f : ε → ε') (s : σ) :
    (step.adapt f).run.run s =
      match step.run.run s with
      | (.ok a, after) => (.ok a, after)
      | (.error e, after) => (.error (f e), after) := by
  rw [ExceptT.run_adapt, StateT.run_map]
  rcases step.run.run s with ⟨e | a, after⟩
  · rfl
  · rfl

/-- How a step ends that is taken from a state: done, with something true of its result and
of the state after it, or failed, with something true of its error and of that state. -/
def Ends (step : ExceptT ε (StateM σ) α) (s : σ) (done : α → σ → Prop)
    (failed : ε → σ → Prop) : Prop :=
  match step.run.run s with
  | (.ok a, after) => done a after
  | (.error e, after) => failed e after

/-- A step keeps a property of the state, whether it is done or fails. -/
def Keeps (step : ExceptT ε (StateM σ) α) (property : σ → Prop) : Prop :=
  ∀ s, property s → Ends step s (fun _ => property) fun _ => property

variable {step : ExceptT ε (StateM σ) α} {s : σ} {done : α → σ → Prop}
  {failed : ε → σ → Prop} {property : σ → Prop}

theorem Ends.bind {next : α → ExceptT ε (StateM σ) β} {nextDone : β → σ → Prop}
    (h : Ends step s done failed)
    (hnext : ∀ a after, done a after → Ends (next a) after nextDone failed) :
    Ends (step >>= next) s nextDone failed := by
  rw [Ends] at h
  rw [Ends, run_run_bind]
  revert h
  rcases step.run.run s with ⟨e | a, after⟩
  · exact id
  · exact hnext a after

theorem Ends.tryCatch {handler : ε → ExceptT ε (StateM σ) α} {caught : ε → σ → Prop}
    (h : Ends step s done failed)
    (hcatch : ∀ e after, failed e after → Ends (handler e) after done caught) :
    Ends (tryCatch step handler) s done caught := by
  rw [Ends] at h
  rw [Ends, run_run_tryCatch]
  revert h
  rcases step.run.run s with ⟨e | a, after⟩
  · exact hcatch e after
  · exact id

/-- A step that only looks at the state keeps all that is true of it. -/
theorem keeps_of_run_run_eq {look : σ → Except ε α} (h : ∀ s, step.run.run s = (look s, s)) :
    Keeps step property := by
  intro s hs
  rw [Ends, h]
  rcases look s with e | a
  · exact hs
  · exact hs

theorem keeps_pure (a : α) : Keeps (pure a : ExceptT ε (StateM σ) α) property :=
  fun _ h => h

theorem keeps_throw (e : ε) : Keeps (throw e : ExceptT ε (StateM σ) α) property :=
  fun _ h => h

theorem Keeps.bind {next : α → ExceptT ε (StateM σ) β} (h : Keeps step property)
    (hnext : ∀ a, Keeps (next a) property) : Keeps (step >>= next) property :=
  fun s hs => (h s hs).bind fun a after hafter => hnext a after hafter

theorem Keeps.tryCatch {handler : ε → ExceptT ε (StateM σ) α} (h : Keeps step property)
    (hcatch : ∀ e, Keeps (handler e) property) : Keeps (tryCatch step handler) property :=
  fun s hs => (h s hs).tryCatch fun e after hafter => hcatch e after hafter

theorem Keeps.run_run_eq (h : Keeps step (· = s)) :
    step.run.run s = ((step.run.run s).1, s) := by
  have hs := h s rfl
  rw [Ends] at hs
  revert hs
  rcases step.run.run s with ⟨e | a, after⟩
  · rintro rfl
    rfl
  · rintro rfl
    rfl

end Steps

/-! ### Undoing -/

namespace Files

variable {σ Status Found Draft : Type} {files : Files (StateM σ) Status Found Draft}
  {Drafted : σ → Draft → σ → Prop}

/-- Whether a file system can undo what a job has begun.  `Drafted before draft after` is
that a state differs from the one before by a draft only. -/
structure Undoes (files : Files (StateM σ) Status Found Draft)
    (Drafted : σ → Draft → σ → Prop) : Prop where
  -- Looking at files changes nothing.
  read : ∀ path before, Keeps (files.read path) (· = before)
  stat : ∀ path before, Keeps (files.stat path) (· = before)
  locate : ∀ path before, Keeps (files.locate path) (· = before)
  -- A draft is made, or else nothing is.
  create : ∀ output found before,
    Ends (files.create output found) before (Drafted before) fun _ after => after = before
  -- Work on a draft, be it done or not, changes nothing but the draft.
  copyMode : ∀ status draft before, Keeps (files.copyMode status draft) (Drafted before draft)
  fill : ∀ draft contents before, Keeps (files.fill draft contents) (Drafted before draft)
  sync : ∀ draft before, Keeps (files.sync draft) (Drafted before draft)
  publish : ∀ draft output found before s, Drafted before draft s →
    Ends (files.publish draft output found) s (fun _ _ => True) fun _ => Drafted before draft
  -- A draft that is discarded leaves the state before it.
  discard : ∀ draft before s, Drafted before draft s → ((files.discard draft).run s).2 = before

namespace Undoes

theorem keeps_existing? (h : files.Undoes Drafted) (output : Path) (before : σ) :
    Keeps (files.existing? output) (· = before) := by
  have hstat : Keeps (tryCatch (some <$> files.stat output) fun _ => pure none) (· = before) := by
    rw [map_eq_pure_bind]
    apply Keeps.tryCatch
    · exact (h.stat output before).bind fun status => keeps_pure (some status)
    · exact fun _ => keeps_pure none
  apply hstat.bind
  intro status?
  cases status? with
  | none => exact keeps_pure none
  | some status =>
      apply (h.locate output before).bind
      exact fun found => keeps_pure (some (Existing.mk status found))

/-- Finishing a draft fails at once with a step that fails, and the draft is all there is. -/
theorem ends_finish (h : files.Undoes Drafted) {draft : Draft} {before s : σ}
    (hdraft : Drafted before draft s) (output : Path)
    (existing : Option (Existing Status Found)) (contents : List UInt8) :
    Ends (files.finish draft output existing contents) s (fun _ _ => True)
      fun _ => Drafted before draft := by
  have hwrite : ∀ s, Drafted before draft s →
      Ends (do
        files.fill draft contents
        files.sync draft
        files.publish draft output (existing.map Existing.found)) s (fun _ _ => True)
          fun _ => Drafted before draft := by
    intro s hs
    apply (h.fill draft contents before s hs).bind
    intro _ s hs
    apply (h.sync draft before s hs).bind
    intro _ s hs
    exact h.publish draft output _ before s hs
  rw [finish.eq_def]
  cases existing with
  | none => exact hwrite s hdraft
  | some old =>
      apply (h.copyMode old.status draft before s hdraft).bind
      exact fun _ s hs => hwrite s hs

/-- An output that cannot be replaced leaves the state as it was, wherever that has failed. -/
theorem ends_replace (h : files.Undoes Drafted) (output : Path) (contents : List UInt8)
    (before : σ) :
    Ends (files.replace output contents) before (fun _ _ => True)
      fun _ after => after = before := by
  apply (h.keeps_existing? output before before rfl).bind
  rintro existing _ rfl
  apply (h.create output _ _).bind
  intro draft s hs
  apply (h.ends_finish hs output existing contents).tryCatch
  intro e after hafter
  exact h.discard draft _ after hafter

end Undoes

/-! ### Steps that fail -/

theorem keeps_orFault {α : Type} {step : ExceptT FileError (StateM σ) α} {property : σ → Prop}
    (fault : Option FileError) (h : Keeps step property) :
    Keeps (orFault fault step) property := by
  cases fault with
  | none => exact h
  | some e => exact keeps_throw e

theorem ends_orFault {α : Type} {step : ExceptT FileError (StateM σ) α} {s : σ}
    {done : α → σ → Prop} {failed : FileError → σ → Prop} (fault : Option FileError)
    (h : Ends step s done failed) (hfailed : ∀ e, failed e s) :
    Ends (orFault fault step) s done failed := by
  cases fault with
  | none => exact h
  | some e => exact hfailed e

/-- What a file system can undo, it can still undo if some of its steps fail. -/
theorem Undoes.withFaults (h : files.Undoes Drafted) (faults : Faults) :
    (files.withFaults faults).Undoes Drafted where
  read path before := keeps_orFault _ (h.read path before)
  stat path before := keeps_orFault _ (h.stat path before)
  locate path before := keeps_orFault _ (h.locate path before)
  create output found before := ends_orFault _ (h.create output found before) fun _ => rfl
  copyMode status draft before := keeps_orFault _ (h.copyMode status draft before)
  fill draft contents before := by
    change Keeps (files.fillUntil faults.fill draft contents) _
    rcases faults.fill with _ | ⟨count, e⟩
    · exact h.fill draft contents before
    · exact (h.fill draft (contents.take count) before).bind fun _ => keeps_throw e
  sync draft before := keeps_orFault _ (h.sync draft before)
  publish draft output found before s hs :=
    ends_orFault _ (h.publish draft output found before s hs) fun _ => hs
  discard := h.discard

/-! ### Failed jobs -/

/-- How a job ends: with the result of its last step, and the path to blame if that has
failed. -/
theorem run_embed (files : Files (StateM σ) Status Found Draft) (job : Job) (s : σ) :
    (files.embed job).run s =
      match (files.read job.input).run.run s with
      | (.error e, after) => (.error (.readInput job.input e), after)
      | (.ok bytes, after) =>
          match (files.replace job.output (Declaration.render ⟨job.name, bytes⟩).encode).run.run
            after with
          | (.error e, last) => (.error (.writeOutput job.output e), last)
          | (.ok (), last) => (.ok bytes.length, last) := by
  rw [embed, run_run_bind, run_run_adapt]
  rcases (files.read job.input).run.run s with ⟨e | bytes, after⟩
  · rfl
  · dsimp only
    rw [run_run_bind, run_run_adapt]
    rcases (files.replace job.output _).run.run after with ⟨e | ⟨⟩, last⟩
    · rfl
    · rfl

/-- The input is blamed, as the job spells it, exactly if it cannot be read. -/
theorem embed_eq_readInput_iff (files : Files (StateM σ) Status Found Draft) (job : Job)
    (s : σ) (path : Path) (cause : FileError) :
    ((files.embed job).run s).1 = .error (.readInput path cause) ↔
      path = job.input ∧ ((files.read job.input).run.run s).1 = .error cause := by
  rw [run_embed]
  rcases (files.read job.input).run.run s with ⟨e | bytes, after⟩
  · simp [eq_comm]
  · dsimp only
    rcases (files.replace job.output _).run.run after with ⟨e | ⟨⟩, last⟩
    · simp
    · simp

/-- The output is blamed, as the job spells it, exactly if the input has been read and the
output cannot be replaced by its declaration. -/
theorem Undoes.embed_eq_writeOutput_iff (h : files.Undoes Drafted) (job : Job) (before : σ)
    (path : Path) (cause : FileError) :
    ((files.embed job).run before).1 = .error (.writeOutput path cause) ↔
      path = job.output ∧ ∃ bytes, ((files.read job.input).run.run before).1 = .ok bytes ∧
        ((files.replace job.output
          (Declaration.render ⟨job.name, bytes⟩).encode).run.run before).1 = .error cause := by
  rw [run_embed, (h.read job.input before).run_run_eq]
  rcases ((files.read job.input).run.run before).1 with e | bytes
  · simp
  · dsimp only
    rcases hwritten : (files.replace job.output
      (Declaration.render ⟨job.name, bytes⟩).encode).run.run before with ⟨e | ⟨⟩, after⟩
    · simp [hwritten, eq_comm]
    · simp [hwritten]

/-- A job that fails leaves the state as it was. -/
theorem Undoes.embed_of_error (h : files.Undoes Drafted) (job : Job) (before : σ)
    {e : EmbedError} (herror : ((files.embed job).run before).1 = .error e) :
    ((files.embed job).run before).2 = before := by
  revert herror
  rw [run_embed, (h.read job.input before).run_run_eq]
  rcases ((files.read job.input).run.run before).1 with wrong | bytes
  · exact fun _ => rfl
  · have hreplace := h.ends_replace job.output (Declaration.render ⟨job.name, bytes⟩).encode before
    rw [Ends] at hreplace
    dsimp only
    revert hreplace
    rcases (files.replace job.output _).run.run before with ⟨wrong | ⟨⟩, after⟩
    · exact fun hafter _ => hafter
    · rintro - ⟨⟩

/-- What a job that fails comes to, on a file system in some state: that state, and an error
that blames the input, as the job spells it, exactly if that cannot be read, and otherwise
the output. -/
structure FailsCleanly (files : Files (StateM σ) Status Found Draft) (job : Job)
    (before : σ) : Prop where
  undone : ∀ e, ((files.embed job).run before).1 = .error e →
    ((files.embed job).run before).2 = before
  readInput : ∀ path cause,
    ((files.embed job).run before).1 = .error (.readInput path cause) ↔
      path = job.input ∧ ((files.read job.input).run.run before).1 = .error cause
  writeOutput : ∀ path cause,
    ((files.embed job).run before).1 = .error (.writeOutput path cause) ↔
      path = job.output ∧ ∃ bytes, ((files.read job.input).run.run before).1 = .ok bytes ∧
        ((files.replace job.output
          (Declaration.render ⟨job.name, bytes⟩).encode).run.run before).1 = .error cause

/-- A file system that can undo what a job has begun leaves nothing of a job that fails. -/
theorem Undoes.failsCleanly (h : files.Undoes Drafted) (job : Job) (before : σ) :
    files.FailsCleanly job before where
  undone _ := h.embed_of_error job before
  readInput := embed_eq_readInput_iff files job before
  writeOutput := h.embed_eq_writeOutput_iff job before

end Files
end ByteEmbed
