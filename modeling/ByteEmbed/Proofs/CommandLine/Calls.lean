import ByteEmbed.Proofs.CommandLine.Lines

/-!
# Which job a run does

A run that does a job is the call for it, on every file system, and a report of how the call
went: `Calls` says so without a word about how arguments are read.  As all file systems are
meant, one may be chosen that breaks off and tells what it has been asked, so a run calls for
one job at most, and for none if its arguments come to no request.

What is left is to say which arguments call for which job.  They are the lines of the
grammar, and the job is that of the values given, in any order and any spelling.
-/

namespace ByteEmbed
namespace CommandLine

variable {args : List Text} {job other : Job}

/-- Whether a run is the call for a job, with a report of how it went. -/
def Calls (args : List Text) (job : Job) : Prop :=
  ∀ (m : Type → Type) [Monad m] (Status Found Draft : Type)
    (files : Files m Status Found Draft),
    run files args = do
      let result ← files.embed job
      return jobOutcome job result

/-- Files that are all empty, none of them an output, and that may break off when they are
read, looked for or filled. -/
def breakingFiles {α : Type} (read find : Path → Except α Unit)
    (fill : List UInt8 → Except α Unit) : Files (Except α) Unit Unit Unit where
  read path := .mk do
    read path
    return .ok []
  stat path := .mk do
    find path
    return .error .notFound
  locate _ := throw .notFound
  create _ _ := return ()
  copyMode _ _ := return ()
  fill _ contents := .mk do
    fill contents
    return .ok ()
  sync _ := return ()
  publish _ _ _ := return ()
  discard _ := return ()

theorem calls_of_parse (h : parse args = .ok job) : Calls args job := by
  intro m _ Status Found Draft files
  rw [run, h]

/-- A run that calls for a job has read arguments for one. -/
theorem Calls.exists_parse (h : Calls args job) : ∃ other, parse args = .ok other := by
  rcases hparse : parse args with stop | other
  · have hread := h _ _ _ _ (breakingFiles .error (fun _ => .ok ()) fun _ => .ok ())
    rw [run, hparse] at hread
    cases hread
  · exact ⟨other, rfl⟩

theorem render_nil_injective {name other : Text}
    (h : (Declaration.render ⟨name, []⟩).encode = (Declaration.render ⟨other, []⟩).encode) :
    name = other := by
  have hrender := congrArg Text.decodeLossy h
  rw [Text.decodeLossy_encode, Text.decodeLossy_encode, Declaration.render, Declaration.render,
    Declaration.header, Declaration.header] at hrender
  simpa using hrender

/-- A run calls for one job at most: the path read, the path looked for and the contents
filled in tell it. -/
theorem Calls.unique (h : Calls args job) (hother : Calls args other) : job = other := by
  have hcalls : ∀ {α : Type} (files : Files (Except α) Unit Unit Unit),
      (do let result ← files.embed job; return jobOutcome job result) =
        (do let result ← files.embed other; return jobOutcome other result) :=
    fun files => (h _ _ _ _ files).symm.trans (hother _ _ _ _ files)
  have hread := hcalls (breakingFiles .error (fun _ => .ok ()) fun _ => .ok ())
  have hfind := hcalls (breakingFiles (fun _ => .ok ()) .error fun _ => .ok ())
  have hfill := hcalls (breakingFiles (fun _ => .ok ()) (fun _ => .ok ()) .error)
  obtain ⟨input, output, name⟩ := job
  obtain ⟨otherInput, otherOutput, otherName⟩ := other
  have hinput : input = otherInput := Except.error.inj hread
  have houtput : output = otherOutput := Except.error.inj hfind
  have hname : name = otherName := render_nil_injective (Except.error.inj hfill)
  rw [hinput, houtput, hname]

/-- Arguments call for the job of the request that they come to. -/
theorem calls_iff_request :
    Calls args job ↔ ∃ asked, request args = .ok asked ∧ asked.job = job := by
  constructor
  · intro h
    obtain ⟨other, hparse⟩ := h.exists_parse
    obtain rfl := h.unique (calls_of_parse hparse)
    rw [parse_eq_map_request] at hparse
    rcases hrequest : request args with stop | asked
    · rw [hrequest] at hparse
      cases hparse
    · rw [hrequest] at hparse
      exact ⟨asked, rfl, Except.ok.inj hparse⟩
  · rintro ⟨asked, hrequest, rfl⟩
    apply calls_of_parse
    rw [parse_eq_map_request, hrequest]
    rfl

theorem calls_iff_line :
    Calls args job ↔
      ∃ (given : List Given) (asked : Request),
        Line args given ∧ asked.IsGivenBy given ∧ asked.job = job := by
  rw [calls_iff_request]
  constructor
  · rintro ⟨asked, hrequest, hjob⟩
    obtain ⟨given, hline, hgiven⟩ := (request_eq_ok_iff args asked).mp hrequest
    exact ⟨given, asked, hline, hgiven, hjob⟩
  · rintro ⟨given, asked, hline, hgiven, hjob⟩
    exact ⟨asked, (request_eq_ok_iff args asked).mpr ⟨given, hline, hgiven⟩, hjob⟩

theorem exists_stop_of_not_calls (h : ∀ job, ¬ Calls args job) :
    ∃ stop : Stop, ∀ (m : Type → Type) [Monad m] (Status Found Draft : Type)
      (files : Files m Status Found Draft), run files args = return stop.outcome := by
  rcases hparse : parse args with stop | job
  · refine ⟨stop, fun m _ Status Found Draft files => ?_⟩
    rw [run, hparse]
  · exact absurd (calls_of_parse hparse) (h job)

/-- Neither the order of the values nor their spelling matters to the job. -/
theorem Calls.of_perm {given others : List Given} {rest : List Text} (hcalls : Calls args job)
    (hline : Line args given) (hrest : Line rest others) (h : given.Perm others) :
    Calls rest job := by
  rw [calls_iff_request] at hcalls ⊢
  obtain ⟨asked, hrequest, hjob⟩ := hcalls
  have hgiven := (request_eq_ok_iff_of_line hline asked).mp hrequest
  exact ⟨asked, (request_eq_ok_iff_of_line hrest asked).mpr (hgiven.of_perm h), hjob⟩

/-- The arguments in which flags are joined to their values and the input stands behind the
end of the flags. -/
def joinedArgs (input output name : Text) : List Text :=
  ["--output=".toList ++ output, "--name=".toList ++ name, flagsEnd, input]

/-- Joined to its flag, a value may begin with a dash, and so may an input behind the end of
the flags. -/
theorem calls_joinedArgs {input output : Text} (hinput : input ≠ []) (houtput : output ≠ [])
    (name : Text) :
    Calls (joinedArgs input output name) ⟨.ofText input, .ofText output, name⟩ := by
  rw [calls_iff_line]
  have hitems : Items ["--output=".toList ++ output, "--name=".toList ++ name]
      [⟨.output, output⟩, ⟨.name, name⟩] :=
    (Items.nil.snoc (.joined .longOutput output)).snoc (.joined .longName name)
  refine ⟨_, ⟨input, some output, some name⟩, .endedInput hitems input, ?_, rfl⟩
  refine ⟨rfl, rfl, rfl, hinput, ?_⟩
  simpa using houtput

/-- A run calls for a job exactly if its arguments are a line of values that come to a
request for that job: a row of items in any order, then perhaps the end of the flags, and
perhaps one input behind it.  Any other run touches no file.  Lines of the same values call
for the same job, and every input, output and name can be given, the first two not empty. -/
theorem calls_exactly_lines (args : List Text) :
    (∀ job, Calls args job ↔
      ∃ (given : List Given) (asked : Request),
        Line args given ∧ asked.IsGivenBy given ∧ asked.job = job) ∧
      ((∀ job, ¬ Calls args job) →
        ∃ stop : Stop, ∀ (m : Type → Type) [Monad m] (Status Found Draft : Type)
          (files : Files m Status Found Draft), run files args = return stop.outcome) ∧
      (∀ (rest : List Text) (given others : List Given), Line args given → Line rest others →
        given.Perm others → ∀ job, Calls args job ↔ Calls rest job) ∧
      ∀ (input output name : Text), input ≠ [] → output ≠ [] →
        Calls (joinedArgs input output name) ⟨.ofText input, .ofText output, name⟩ := by
  refine ⟨fun job => calls_iff_line, exists_stop_of_not_calls, ?_, ?_⟩
  · intro rest given others hline hrest h job
    constructor
    · exact fun hcalls => hcalls.of_perm hline hrest h
    · exact fun hcalls => hcalls.of_perm hrest hline h.symm
  · intro input output name hinput houtput
    exact calls_joinedArgs hinput houtput name

end CommandLine
end ByteEmbed
