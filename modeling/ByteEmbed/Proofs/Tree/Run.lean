import ByteEmbed.Proofs.Tree.Target

/-!
# Runs of jobs

`embedAll` does jobs one after the other, whatever becomes of each, and `calls` lists them
with the tree that each one finds.  Every job may change where later paths lead: it may put
a file where a link led nowhere, or read what an earlier one wrote.

What does not change is how an entry comes by what it holds.  After a run an entry is as it
was at the start if no call has replaced it, and otherwise holds the whole declaration of
the last call that did, with the mode that the entry had at the start or that of a new file
(`untouched_or_written`).  `RunInvariant` says this of all kinds of entries, and
`run_keeps_invariant` is that every run keeps it.
-/

namespace ByteEmbed
namespace FileTree

variable {tree : FileTree}

/-- A job, with the tree that it finds. -/
structure Call where
  before : FileTree
  job : Job

/-- Does jobs one after the other. -/
def embedAll (tree : FileTree) (workDir : Place) (jobs : List Job) : FileTree :=
  jobs.foldl (fun tree job => (tree.embed workDir job).2) tree

/-- The calls that doing jobs one after the other comes to. -/
def calls (tree : FileTree) (workDir : Place) : List Job → List Call
  | [] => []
  | job :: rest => ⟨tree, job⟩ :: (tree.embed workDir job).2.calls workDir rest

/-- Whether a call is done and its output goes to an entry. -/
def Call.Replaces (call : Call) (workDir : Place) (place : Place) : Prop :=
  call.before.Replaces workDir call.job place

/-- Whether a call is the last of some calls to replace an entry. -/
def LastReplaces (calls : List Call) (workDir : Place) (call : Call) (place : Place) : Prop :=
  ∃ earlier later, calls = earlier ++ call :: later ∧ call.Replaces workDir place ∧
    ∀ other ∈ later, ¬ other.Replaces workDir place

theorem embedAll_cons (tree : FileTree) (workDir : Place) (job : Job) (rest : List Job) :
    tree.embedAll workDir (job :: rest) = (tree.embed workDir job).2.embedAll workDir rest :=
  rfl

/-- What a run of jobs keeps, and how it changes what it does not keep. -/
structure RunInvariant (start final : FileTree) (workDir : Place) (calls : List Call) :
    Prop where
  -- Every call that is done has replaced an entry.
  done : ∀ call ∈ calls, ∀ n, (call.before.embed workDir call.job).1 = .ok n →
    ∃ place, call.Replaces workDir place
  -- The directories and their modes are those of the start.
  directories : ∀ place mode,
    final.get? place = some (.directory mode) ↔ start.get? place = some (.directory mode)
  -- No entry has disappeared.
  kept : ∀ place, start.get? place ≠ none → final.get? place ≠ none
  -- A new entry is where the output of a call has gone.
  created : ∀ place, start.get? place = none → final.get? place ≠ none →
    ∃ call ∈ calls, call.Replaces workDir place
  -- Nothing stands where a call had its draft, in whatever folder, unless that is where
  -- the output of a later call has gone.
  drafts : ∀ earlier call later, calls = earlier ++ call :: later → ∀ folder,
    final.get? (folder ++ [call.before.draftName call.job.output]) = none ∨
    ∃ other ∈ later, other.Replaces workDir
      (folder ++ [call.before.draftName call.job.output])
  -- A file is the one of the start, or holds all of what the last call wrote there.
  files : ∀ place file, final.get? place = some (.file file) →
    ((∀ call ∈ calls, ¬ call.Replaces workDir place) ∧ start.get? place = some (.file file)) ∨
    ∃ call bytes, LastReplaces calls workDir call place ∧
      call.before.read workDir call.job.input = .ok bytes ∧
      file.contents = (Declaration.render ⟨call.job.name, bytes⟩).encode
  -- A file of the start still has its mode.
  modes : ∀ place old, start.get? place = some (.file old) →
    ∃ new, final.get? place = some (.file new) ∧ new.mode = old.mode
  -- What a call has replaced is a file, with the mode of a new one if it was none before.
  targets : ∀ call ∈ calls, ∀ place, call.Replaces workDir place →
    (∀ old, start.get? place ≠ some (.file old)) →
    ∃ new, final.get? place = some (.file new) ∧ new.mode = .newFile
  -- A link is still there, unless the output of a call led nowhere and named it.
  links : ∀ place target, start.get? place = some (.link target) →
    final.get? place = some (.link target) ∨
    ∃ call ∈ calls, call.Replaces workDir place ∧
      (∃ e, call.before.resolve workDir call.job.output = .error e) ∧
      call.before.namedPlace workDir call.job.output = .ok place

/-! ### One call -/

/-- A job makes and removes no directory. -/
theorem get?_embed_eq_directory_iff {workDir place : Place} {job : Job} {mode : Mode} :
    (tree.embed workDir job).2.get? place = some (.directory mode) ↔
      tree.get? place = some (.directory mode) := by
  by_cases h : tree.Replaces workDir job place
  · obtain ⟨bytes, -, hafter⟩ := get?_embed_of_replaces h
    rw [hafter]
    constructor
    · exact nofun
    · intro hdirectory
      exact absurd hdirectory (get?_ne_directory_of_replaces h mode)
  · rw [get?_embed_of_not_replaces h]

/-- A job that replaces a link led nowhere and named it. -/
theorem namedPlace_of_replaces_link {workDir place : Place} {job : Job} {target : Path}
    (h : tree.Replaces workDir job place) (hlink : tree.get? place = some (.link target)) :
    (∃ e, tree.resolve workDir job.output = .error e) ∧
      tree.namedPlace workDir job.output = .ok place := by
  obtain ⟨bytes, slot, -, hslot, rfl⟩ := replaces_iff.mp h
  rcases target_of_outputSlot hslot with ⟨-, old, hold, -⟩ | ⟨herror, hplace, -⟩
  · rw [hlink] at hold
    cases hold
  · exact ⟨herror, hplace⟩

/-- The draft of a job is gone when the job has ended. -/
theorem get?_embed_draft (tree : FileTree) (workDir : Place) (job : Job) (folder : Place) :
    (tree.embed workDir job).2.get? (folder ++ [tree.draftName job.output]) = none := by
  rw [get?_embed_of_not_replaces]
  · exact get?_draft folder job.output
  · intro h
    obtain ⟨bytes, slot, -, hslot, hplace⟩ := replaces_iff.mp h
    rcases target_of_outputSlot hslot with ⟨hresolve, -⟩ | ⟨-, hnamed, -⟩
    · exact resolve_ne_draft hresolve folder hplace
    · exact namedPlace_ne_draft hnamed folder hplace

/-! ### Runs -/

theorem LastReplaces.cons {calls : List Call} {workDir place : Place} {call : Call}
    (h : LastReplaces calls workDir call place) (first : Call) :
    LastReplaces (first :: calls) workDir call place := by
  obtain ⟨earlier, later, rfl, hcall, hlater⟩ := h
  exact ⟨first :: earlier, later, rfl, hcall, hlater⟩

theorem LastReplaces.exists_mem {calls : List Call} {workDir place : Place} {call : Call}
    (h : LastReplaces calls workDir call place) :
    ∃ other ∈ calls, other.Replaces workDir place := by
  obtain ⟨earlier, later, rfl, hcall, -⟩ := h
  exact ⟨call, List.mem_append_right _ List.mem_cons_self, hcall⟩

/-- No call of a run replaces an entry, which then is as it was, or the last one that does
has left its declaration there. -/
theorem untouched_or_written (tree : FileTree) (workDir : Place) (jobs : List Job)
    (place : Place) :
    ((∀ call ∈ tree.calls workDir jobs, ¬ call.Replaces workDir place) ∧
      (tree.embedAll workDir jobs).get? place = tree.get? place) ∨
    ∃ call bytes id, LastReplaces (tree.calls workDir jobs) workDir call place ∧
      call.before.read workDir call.job.input = .ok bytes ∧
      (tree.embedAll workDir jobs).get? place =
        some (.file ⟨id, tree.modeAt place,
          (Declaration.render ⟨call.job.name, bytes⟩).encode⟩) := by
  induction jobs generalizing tree with
  | nil => exact .inl ⟨fun _ hcall => absurd hcall List.not_mem_nil, rfl⟩
  | cons job rest ih =>
      rw [embedAll_cons, calls]
      rcases ih (tree.embed workDir job).2 with
        ⟨hlater, hrest⟩ | ⟨call, bytes, id, hlast, hread, hrest⟩
      · rw [hrest]
        by_cases h : tree.Replaces workDir job place
        · obtain ⟨bytes, hread, hafter⟩ := get?_embed_of_replaces h
          exact .inr ⟨⟨tree, job⟩, bytes, _, ⟨[], _, rfl, h, hlater⟩, hread, hafter⟩
        · refine .inl ⟨?_, get?_embed_of_not_replaces h⟩
          intro call hcall
          rcases List.mem_cons.mp hcall with rfl | hcall
          · exact h
          · exact hlater call hcall
      · -- The mode that the later calls find is still that of the start.
        rw [modeAt_embed] at hrest
        exact .inr ⟨call, bytes, id, hlast.cons _, hread, hrest⟩

theorem get?_embedAll_eq_directory_iff {workDir place : Place} {jobs : List Job} {mode : Mode} :
    (tree.embedAll workDir jobs).get? place = some (.directory mode) ↔
      tree.get? place = some (.directory mode) := by
  induction jobs generalizing tree with
  | nil => rfl
  | cons job rest ih => rw [embedAll_cons, ih, get?_embed_eq_directory_iff]

/-- The draft of a call is gone at the end of a run, and what stands in its place was put
there as the output of a later call. -/
theorem get?_embedAll_draft {workDir : Place} {jobs : List Job} {earlier later : List Call}
    {call : Call} (h : tree.calls workDir jobs = earlier ++ call :: later) (folder : Place) :
    (tree.embedAll workDir jobs).get?
        (folder ++ [call.before.draftName call.job.output]) = none ∨
      ∃ other ∈ later, other.Replaces workDir
        (folder ++ [call.before.draftName call.job.output]) := by
  induction jobs generalizing tree earlier with
  | nil => simp [calls] at h
  | cons job rest ih =>
      rw [calls] at h
      rw [embedAll_cons]
      cases earlier with
      | nil =>
          obtain ⟨rfl, rfl⟩ := List.cons.inj h
          rcases untouched_or_written (tree.embed workDir job).2 workDir rest
              (folder ++ [tree.draftName job.output]) with
            ⟨-, hsame⟩ | ⟨last, bytes, id, hlast, -, -⟩
          · exact .inl (hsame.trans (get?_embed_draft tree workDir job folder))
          · exact .inr hlast.exists_mem
      | cons first earlier => exact ih (List.cons.inj h).2

/-- If a link is replaced in a run, then by a call whose output led nowhere and named it. -/
theorem exists_call_of_link {workDir place : Place} {jobs : List Job} {target : Path}
    (hlink : tree.get? place = some (.link target))
    (h : ∃ call ∈ tree.calls workDir jobs, call.Replaces workDir place) :
    ∃ call ∈ tree.calls workDir jobs, call.Replaces workDir place ∧
      (∃ e, call.before.resolve workDir call.job.output = .error e) ∧
      call.before.namedPlace workDir call.job.output = .ok place := by
  induction jobs generalizing tree with
  | nil =>
      obtain ⟨call, hcall, -⟩ := h
      cases hcall
  | cons job rest ih =>
      rw [calls] at h ⊢
      by_cases hfirst : tree.Replaces workDir job place
      · exact ⟨⟨tree, job⟩, List.mem_cons_self, hfirst,
          namedPlace_of_replaces_link hfirst hlink⟩
      · -- The first call leaves the link alone, so a later one replaces it.
        obtain ⟨call, hcall, hreplaces⟩ := h
        rcases List.mem_cons.mp hcall with rfl | hcall
        · exact absurd hreplaces hfirst
        · have hafter : (tree.embed workDir job).2.get? place = some (.link target) := by
            rw [get?_embed_of_not_replaces hfirst, hlink]
          obtain ⟨later, hlater, hnamed⟩ := ih hafter ⟨call, hcall, hreplaces⟩
          exact ⟨later, List.mem_cons_of_mem _ hlater, hnamed⟩

/-- Every run of jobs, those that fail included, keeps the invariant. -/
theorem run_keeps_invariant (tree : FileTree) (workDir : Place) (jobs : List Job) :
    RunInvariant tree (tree.embedAll workDir jobs) workDir (tree.calls workDir jobs) where
  done call _ n hdone := exists_replaces_of_embed hdone
  directories place mode := get?_embedAll_eq_directory_iff
  kept place hstart := by
    rcases untouched_or_written tree workDir jobs place with
      ⟨-, hsame⟩ | ⟨call, bytes, id, -, -, hwritten⟩
    · rwa [hsame]
    · rw [hwritten]
      exact nofun
  created place hstart hfinal := by
    rcases untouched_or_written tree workDir jobs place with
      ⟨-, hsame⟩ | ⟨call, bytes, id, hlast, -, -⟩
    · rw [hsame] at hfinal
      exact absurd hstart hfinal
    · exact hlast.exists_mem
  drafts earlier call later hcalls folder := get?_embedAll_draft hcalls folder
  files place file hfinal := by
    rcases untouched_or_written tree workDir jobs place with
      ⟨hnone, hsame⟩ | ⟨call, bytes, id, hlast, hread, hwritten⟩
    · exact .inl ⟨hnone, hsame ▸ hfinal⟩
    · rw [hwritten] at hfinal
      cases hfinal
      exact .inr ⟨call, bytes, hlast, hread, rfl⟩
  modes place old hstart := by
    rcases untouched_or_written tree workDir jobs place with
      ⟨-, hsame⟩ | ⟨call, bytes, id, -, -, hwritten⟩
    · exact ⟨old, hsame.trans hstart, rfl⟩
    · refine ⟨_, hwritten, ?_⟩
      rw [modeAt, hstart]
  targets call hcall place hreplaces hstart := by
    rcases untouched_or_written tree workDir jobs place with
      ⟨hnone, -⟩ | ⟨last, bytes, id, -, -, hwritten⟩
    · exact absurd hreplaces (hnone call hcall)
    · refine ⟨_, hwritten, ?_⟩
      -- The entry is a file at the end, so it was no directory at the start.
      have hdirectory : ∀ mode, tree.get? place ≠ some (.directory mode) := by
        intro mode hmode
        rw [get?_embedAll_eq_directory_iff.mpr hmode] at hwritten
        cases hwritten
      rw [modeAt]
      split
      · next old hold => exact absurd hold (hstart old)
      · next mode hmode => exact absurd hmode (hdirectory mode)
      · rfl
  links place target hstart := by
    rcases untouched_or_written tree workDir jobs place with
      ⟨-, hsame⟩ | ⟨call, bytes, id, hlast, -, -⟩
    · exact .inl (hsame.trans hstart)
    · exact .inr (exists_call_of_link hstart hlast.exists_mem)

/-- Two jobs for one output with one between that fails: what the last of them wrote is
there, with the mode of the file that it has replaced twice. -/
example :
    let missing : Job := { linkedJob with input := ⟨[0x78]⟩ }
    let again : Job := { linkedJob with input := ⟨[0x6C]⟩ }
    (linkedTree.embedAll [] [linkedJob, missing, again]).get? [[0x6B]] =
      some (.file ⟨3, 0o600, (Declaration.render ⟨['x'], []⟩).encode⟩) := by
  decide +kernel

end FileTree
end ByteEmbed
