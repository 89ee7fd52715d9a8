import ByteEmbed.Proofs.Grammar.RoundTrip
import ByteEmbed.Proofs.Tree.Plan
import ByteEmbed.Proofs.Tree.Success

/-!
# What becomes of the input

A job replaces one entry, and its input is read through the entries that resolving it looks
up.  If the entry replaced is not among these, the input reads as before; if it is the one
to which the input leads, the input reads as the declaration; and if it is a link on the way,
the input leads to the declaration or no longer leads anywhere.  The declaration is longer
than what it declares, so the input reads as before in the first case only.

Whether the entry is looked up for the input can be told from the two paths alone.  Either
both lead to one place, or the entry is a link that the input follows and at which the output
has run out of links (`mem_lookups_input_iff`).
-/

namespace ByteEmbed
namespace FileTree

variable {tree : FileTree} {workDir place : Place} {path : Path} {job : Job}

/-- Whether two paths lead to one place. -/
def SamePlace (tree : FileTree) (workDir : Place) (path other : Path) : Prop :=
  ∃ place, tree.resolve workDir path = .ok place ∧ tree.resolve workDir other = .ok place

/-- Whether the output of a job names a link that resolving the input follows, but leads
nowhere itself, as it has no link left to follow. -/
structure CutsOffInput (tree : FileTree) (workDir : Place) (job : Job) : Prop where
  loop : tree.resolve workDir job.output = .error .linkLoop
  link : ∃ place target, tree.namedPlace workDir job.output = .ok place ∧
    tree.get? place = some (.link target) ∧ place ∈ tree.lookups workDir job.input

/-! ### Reading a path in a tree with a new file -/

theorem read_set_of_not_mem (h : place ∉ tree.lookups workDir path) (entry : Entry) :
    (tree.set place entry).read workDir path = tree.read workDir path := by
  apply read_congr
  intro here hhere
  apply get?_set_of_ne
  rintro rfl
  exact h hhere

theorem read_set_of_resolve {old : File} (h : tree.resolve workDir path = .ok place)
    (hold : tree.get? place = some (.file old)) (new : File) :
    (tree.set place (.file new)).read workDir path = .ok new.contents := by
  apply read_of_resolve _ (get?_set_self tree place _)
  rw [← h]
  exact resolve_congr fun here _ => shapeAt_set_file hold new here

/-- A path that reads as before, and not as a new file, has been clear of it all along. -/
theorem not_mem_lookups_of_read_set {new : File} {bytes : List UInt8}
    (h : (tree.set place (.file new)).read workDir path = .ok bytes)
    (hne : new.contents ≠ bytes) : place ∉ tree.lookups workDir path := by
  obtain ⟨found, file, hresolve, hfile⟩ := read_isOk_iff.mp ⟨bytes, h⟩
  have hafter : place ∉ (tree.set place (.file new)).lookups workDir path := by
    intro hmem
    obtain rfl := eq_of_mem_lookups_of_file hresolve hmem (get?_set_self _ _ _)
    rw [read_of_resolve hresolve (get?_set_self _ _ _)] at h
    exact hne (Except.ok.inj h)
  -- The walk in the tree with the file sees nothing of it, so it is the walk in the other tree.
  have hsame : tree.lookups workDir path = (tree.set place (.file new)).lookups workDir path := by
    apply lookups_congr
    intro here hhere
    rw [shapeAt_set_of_ne]
    rintro rfl
    exact hafter hhere
  rwa [hsame]

/-! ### The input of a job that is done -/

theorem embed_eq_set_of_replaces (h : tree.Replaces workDir job place) :
    ∃ bytes, tree.read workDir job.input = .ok bytes ∧
      (tree.embed workDir job).2 = tree.set place (.file ⟨tree.freshId, tree.modeAt place,
        (Declaration.render ⟨job.name, bytes⟩).encode⟩) := by
  obtain ⟨bytes, hread, hplace⟩ := get?_embed_of_replaces h
  refine ⟨bytes, hread, ?_⟩
  ext here : 1
  by_cases hhere : here = place
  · rw [hhere, hplace, get?_set_self]
  · rw [get?_set_of_ne _ _ hhere]
    apply get?_embed_of_not_replaces
    rintro ⟨-, htarget⟩
    rw [h.2] at htarget
    exact hhere (Except.ok.inj htarget).symm

theorem encode_render_ne (name : Text) (bytes : List UInt8) :
    (Declaration.render ⟨name, bytes⟩).encode ≠ bytes := by
  intro h
  have hlength := Declaration.length_lt_length_encode_render ⟨name, bytes⟩
  rw [h] at hlength
  exact Nat.lt_irrefl _ hlength

/-- The input of a job leads past an entry that its output replaces if both lead to it, or
if the output runs out of links there. -/
theorem mem_lookups_input_iff (h : tree.Replaces workDir job place) :
    place ∈ tree.lookups workDir job.input ↔
      tree.SamePlace workDir job.input job.output ∨ tree.CutsOffInput workDir job := by
  obtain ⟨bytes, slot, hread, hslot, rfl⟩ := replaces_iff.mp h
  obtain ⟨found, file, hfound, hfile⟩ := read_isOk_iff.mp ⟨bytes, hread⟩
  constructor
  · intro hmem
    rcases outputSlot_eq_ok_iff.mp hslot with ⟨hresolve, old, hold, -⟩ | ⟨⟨e, herror⟩, hplace, -⟩
    · rw [← eq_of_mem_lookups_of_file hfound hmem hold] at hresolve
      exact .inl ⟨found, hfound, hresolve⟩
    · obtain ⟨hwalk, hend, hnamed⟩ := destination_none_eq_ok_iff.mp hplace
      rcases get?_of_destination hplace herror with hnone | ⟨target, hlink⟩
      · obtain ⟨entry, hentry⟩ := exists_get?_of_mem_lookups hfound hmem
        rw [hnone] at hentry
        cases hentry
      · obtain rfl := eq_linkLoop_of_mem_lookups hwalk hend hnamed herror hlink hfound hmem
        exact .inr ⟨herror, slot.place, target, hnamed, hlink, hmem⟩
  · have htarget := h.2
    rw [target] at htarget
    rintro (⟨same, hinput, houtput⟩ | ⟨hloop, named, target, hnamed, -, hmem⟩)
    · rw [houtput] at htarget
      rw [← Except.ok.inj htarget]
      exact mem_lookups_of_resolve hinput
    · rw [hloop] at htarget
      dsimp only at htarget
      rw [hnamed] at htarget
      rwa [← Except.ok.inj htarget]

/-- What a job leaves of its input.  A job that fails leaves it as it was, and so does a job
that replaces an entry which resolving the input does not look up.  If the input leads to the
entry that is replaced, it then reads as the declaration of what it held, which is not what
it held.  So the input reads otherwise after a job that is done exactly if input and output
lead to one place, or if the output leads nowhere for want of links and names a link that
the input follows. -/
theorem read_input_of_embed (tree : FileTree) (workDir : Place) (job : Job) :
    (∀ e, (tree.embed workDir job).1 = .error e →
        (tree.embed workDir job).2.read workDir job.input = tree.read workDir job.input) ∧
      (∀ place, tree.Replaces workDir job place → place ∉ tree.lookups workDir job.input →
        (tree.embed workDir job).2.read workDir job.input = tree.read workDir job.input) ∧
      (∀ place, tree.Replaces workDir job place →
        tree.resolve workDir job.input = .ok place →
        ∃ bytes, tree.read workDir job.input = .ok bytes ∧
          (tree.embed workDir job).2.read workDir job.input =
            .ok (Declaration.render ⟨job.name, bytes⟩).encode ∧
          (Declaration.render ⟨job.name, bytes⟩).encode ≠ bytes) ∧
      ((tree.embed workDir job).2.read workDir job.input ≠ tree.read workDir job.input ↔
        (∃ n, (tree.embed workDir job).1 = .ok n) ∧
          (tree.SamePlace workDir job.input job.output ∨ tree.CutsOffInput workDir job)) := by
  refine ⟨?_, ?_, ?_, ?_⟩
  · intro e herror
    rw [embed_of_error herror]
  · intro place hplace hclear
    obtain ⟨bytes, -, hafter⟩ := embed_eq_set_of_replaces hplace
    rw [hafter]
    exact read_set_of_not_mem hclear _
  · intro place hplace hresolve
    obtain ⟨bytes, hread, hafter⟩ := embed_eq_set_of_replaces hplace
    obtain ⟨found, old, hfound, hold⟩ := read_isOk_iff.mp ⟨bytes, hread⟩
    rw [hresolve] at hfound
    obtain rfl := Except.ok.inj hfound
    refine ⟨bytes, hread, ?_, encode_render_ne job.name bytes⟩
    rw [hafter]
    exact read_set_of_resolve hresolve hold _
  · rcases hdone : (tree.embed workDir job).1 with e | n
    · rw [embed_of_error hdone]
      exact ⟨fun hne => absurd rfl hne, fun h => nomatch h.1⟩
    · -- The input reads otherwise exactly if the entry that is replaced is looked up for it.
      obtain ⟨place, hplace⟩ := exists_replaces_of_embed hdone
      obtain ⟨bytes, hread, hafter⟩ := embed_eq_set_of_replaces hplace
      rw [← mem_lookups_input_iff hplace, hafter]
      constructor
      · intro hne
        refine ⟨⟨n, rfl⟩, ?_⟩
        by_contra hclear
        exact hne (read_set_of_not_mem hclear _)
      · rintro ⟨-, hmem⟩ hsame
        rw [hread] at hsame
        exact not_mem_lookups_of_read_set hsame (encode_render_ne job.name bytes) hmem

/-- A tree in which `p` is a link to the file `k`, and `o` one to its own folder. -/
def cutOffTree : FileTree :=
  ((((∅ : FileTree).set [] (.directory .newDirectory)).set [[0x6B]] (.file ⟨0, 0o600, [42]⟩)).set
    [[0x6F]] (.link ⟨[dot]⟩)).set [[0x70]] (.link ⟨[0x6B]⟩)

/-- The job of embedding `p` in place of `p`, which the output spells with as many links in
front of it as may be followed. -/
def cutOffJob : Job :=
  ⟨⟨[0x70]⟩, .ofPieces (List.replicate maxLinks [0x6F] ++ [[0x70]]), ['x']⟩

/-- An input may read otherwise after a job though its output leads nowhere: the link that the
input follows is replaced, as the output has no link left to follow. -/
theorem read_input_of_embed_cutOffTree :
    (cutOffTree.embed [] cutOffJob).1 = .ok 1 ∧
      cutOffTree.resolve [] cutOffJob.input = .ok [[0x6B]] ∧
      cutOffTree.resolve [] cutOffJob.output = .error .linkLoop ∧
      (cutOffTree.embed [] cutOffJob).2.read [] cutOffJob.input =
        .ok (Declaration.render ⟨['x'], [42]⟩).encode ∧
      ¬ ((cutOffTree.embed [] cutOffJob).2.read [] cutOffJob.input ≠
          cutOffTree.read [] cutOffJob.input ↔
        cutOffTree.SamePlace [] cutOffJob.input cutOffJob.output) := by
  have hdone : (cutOffTree.embed [] cutOffJob).1 = .ok 1 := by
    decide +kernel
  have hinput : cutOffTree.resolve [] cutOffJob.input = .ok [[0x6B]] := by
    decide +kernel
  have hloop : cutOffTree.resolve [] cutOffJob.output = .error .linkLoop := by
    decide +kernel
  have hread : cutOffTree.read [] cutOffJob.input = .ok [42] := by
    decide +kernel
  have hafter : (cutOffTree.embed [] cutOffJob).2.read [] cutOffJob.input =
      .ok (Declaration.render ⟨['x'], [42]⟩).encode := by
    decide +kernel
  refine ⟨hdone, hinput, hloop, hafter, ?_⟩
  intro hiff
  have hne : (cutOffTree.embed [] cutOffJob).2.read [] cutOffJob.input ≠
      cutOffTree.read [] cutOffJob.input := by
    rw [hafter, hread]
    exact fun hsame => encode_render_ne ['x'] [42] (Except.ok.inj hsame)
  obtain ⟨place, -, houtput⟩ := hiff.mp hne
  rw [hloop] at houtput
  cases houtput

end FileTree
end ByteEmbed
