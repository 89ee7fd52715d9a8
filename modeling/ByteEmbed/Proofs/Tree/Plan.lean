import ByteEmbed.Proofs.Tree.Target

/-!
# What a job is going to do

A job settles what it puts where before it changes anything, and a tree after a job is the
tree before it with that put in place (`embed_eq_plan`).  It settles this from what it looks
up: the places on the ways to its input, to its output and to the folder of its output.
Trees that hold the same entries at these places give the same plan (`plan_congr`), whatever
they hold elsewhere.
-/

namespace ByteEmbed
namespace FileTree

variable {tree other : FileTree}

/-! ### Plans -/

/-- What a job does to a tree: the number of bytes it embeds, the slot of its output, and
what it puts there. -/
structure Plan where
  count : Nat
  slot : Slot
  contents : List UInt8

/-- What a job is going to do, or why it is going to fail. -/
def plan (tree : FileTree) (workDir : Place) (job : Job) : Except EmbedError Plan :=
  match tree.read workDir job.input with
  | .error e => .error (.readInput job.input e)
  | .ok bytes =>
      match tree.outputSlot workDir job.output with
      | .error e => .error (.writeOutput job.output e)
      | .ok slot => .ok ⟨bytes.length, slot, (Declaration.render ⟨job.name, bytes⟩).encode⟩

/-- Puts a new file where a plan says. -/
def put (tree : FileTree) (plan : Plan) : FileTree :=
  tree.set plan.slot.place (.file ⟨tree.freshId, plan.slot.mode, plan.contents⟩)

/-- A job does what it has planned. -/
theorem embed_eq_plan (tree : FileTree) (workDir : Place) (job : Job) :
    tree.embed workDir job =
      match tree.plan workDir job with
      | .error e => (.error e, tree)
      | .ok plan => (.ok plan.count, tree.put plan) := by
  rw [embed_eq, plan]
  rcases tree.read workDir job.input with e | bytes
  · rfl
  · rcases tree.outputSlot workDir job.output with e | slot
    · rfl
    · rfl

theorem get?_put_self (tree : FileTree) (plan : Plan) :
    (tree.put plan).get? plan.slot.place =
      some (.file ⟨tree.freshId, plan.slot.mode, plan.contents⟩) :=
  get?_set_self _ _ _

theorem get?_put_of_ne (tree : FileTree) {plan : Plan} {place : Place}
    (h : place ≠ plan.slot.place) : (tree.put plan).get? place = tree.get? place :=
  get?_set_of_ne _ _ h

theorem plan_eq_ok_iff {workDir : Place} {job : Job} {plan : Plan} :
    tree.plan workDir job = .ok plan ↔
      ∃ bytes slot, tree.read workDir job.input = .ok bytes ∧
        tree.outputSlot workDir job.output = .ok slot ∧
        plan = ⟨bytes.length, slot, (Declaration.render ⟨job.name, bytes⟩).encode⟩ := by
  rw [FileTree.plan]
  constructor
  · intro h
    split at h
    · cases h
    · next bytes hread =>
        split at h
        · cases h
        · next slot hslot => exact ⟨bytes, slot, hread, hslot, (Except.ok.inj h).symm⟩
  · rintro ⟨bytes, slot, hread, hslot, rfl⟩
    rw [hread, hslot]

theorem replaces_of_plan {workDir : Place} {job : Job} {plan : Plan}
    (h : tree.plan workDir job = .ok plan) : tree.Replaces workDir job plan.slot.place := by
  obtain ⟨bytes, slot, hread, hslot, rfl⟩ := plan_eq_ok_iff.mp h
  exact replaces_iff.mpr ⟨bytes, slot, hread, hslot, rfl⟩

/-- The places that a job looks up. -/
def jobLookups (tree : FileTree) (workDir : Place) (job : Job) : List Place :=
  tree.lookups workDir job.input ++ tree.lookups workDir job.output ++
    tree.lookups workDir job.output.folder

theorem mem_jobLookups_iff {workDir place : Place} {job : Job} :
    place ∈ tree.jobLookups workDir job ↔
      place ∈ tree.lookups workDir job.input ∨ place ∈ tree.lookups workDir job.output ∨
        place ∈ tree.lookups workDir job.output.folder := by
  rw [jobLookups, List.mem_append, List.mem_append, or_assoc]

/-- A job looks up the entry that it replaces. -/
theorem mem_jobLookups_of_plan {workDir : Place} {job : Job} {plan : Plan}
    (h : tree.plan workDir job = .ok plan) :
    plan.slot.place ∈ tree.jobLookups workDir job := by
  obtain ⟨bytes, slot, -, hslot, hplace⟩ := replaces_iff.mp (replaces_of_plan h)
  rw [← hplace]
  exact mem_jobLookups_iff.mpr (.inr (.inl (mem_lookups_of_outputSlot hslot)))

/-! ### Trees that agree on what a job looks up -/

theorem shapeAt_congr {place : Place} (h : other.get? place = tree.get? place) :
    other.shapeAt place = tree.shapeAt place := by
  rw [shapeAt, shapeAt, h]

theorem read_congr {workDir : Place} {path : Path}
    (h : ∀ place ∈ tree.lookups workDir path, other.get? place = tree.get? place) :
    other.read workDir path = tree.read workDir path := by
  have hresolve := resolve_congr fun place hplace => shapeAt_congr (h place hplace)
  rw [read, read, hresolve]
  cases hplace : tree.resolve workDir path with
  | error e => rfl
  | ok place =>
      dsimp only
      rw [h place (mem_lookups_of_resolve hplace)]

theorem destination_congr {workDir : Place} {output : Path}
    (houtput : ∀ place ∈ tree.lookups workDir output, other.get? place = tree.get? place)
    (hfolder : ∀ place ∈ tree.lookups workDir output.folder,
      other.get? place = tree.get? place) :
    other.destination workDir output none = tree.destination workDir output none := by
  have hnamed : other.namedPlace workDir output = tree.namedPlace workDir output := by
    apply namedPlace_congr
    intro place hplace
    apply shapeAt_congr
    rw [namedLookups] at hplace
    split at hplace
    · exact hfolder place hplace
    · exact houtput place hplace
  rw [destination, destination, hnamed]

theorem outputSlot_congr {workDir : Place} {output : Path}
    (houtput : ∀ place ∈ tree.lookups workDir output, other.get? place = tree.get? place)
    (hfolder : ∀ place ∈ tree.lookups workDir output.folder,
      other.get? place = tree.get? place) :
    other.outputSlot workDir output = tree.outputSlot workDir output := by
  have hresolve := resolve_congr fun place hplace => shapeAt_congr (houtput place hplace)
  have hparent := resolve_congr fun place hplace => shapeAt_congr (hfolder place hplace)
  rw [outputSlot, outputSlot, hresolve, hparent, destination_congr houtput hfolder]
  cases hfound : tree.resolve workDir output with
  | ok found =>
      dsimp only
      rw [houtput found (mem_lookups_of_resolve hfound)]
  | error e =>
      dsimp only
      split
      · rfl
      · split
        · rfl
        · next place hplace =>
            obtain ⟨hwalk, hend, hnamed⟩ := destination_none_eq_ok_iff.mp hplace
            rw [houtput place (mem_lookups_of_namedPlace hwalk hend hnamed)]

/-- What a job plans depends on what it looks up. -/
theorem plan_congr {workDir : Place} {job : Job}
    (h : ∀ place ∈ tree.jobLookups workDir job, other.get? place = tree.get? place) :
    other.plan workDir job = tree.plan workDir job := by
  have hread : other.read workDir job.input = tree.read workDir job.input :=
    read_congr fun place hplace => h place (mem_jobLookups_iff.mpr (.inl hplace))
  have hslot : other.outputSlot workDir job.output = tree.outputSlot workDir job.output :=
    outputSlot_congr
      (fun place hplace => h place (mem_jobLookups_iff.mpr (.inr (.inl hplace))))
      (fun place hplace => h place (mem_jobLookups_iff.mpr (.inr (.inr hplace))))
  rw [plan, plan, hread, hslot]

end FileTree
end ByteEmbed
