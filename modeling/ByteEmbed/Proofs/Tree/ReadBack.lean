import ByteEmbed.Proofs.Grammar.RoundTrip
import ByteEmbed.Proofs.Text.Utf8
import ByteEmbed.Proofs.Tree.Embed
import ByteEmbed.Proofs.Tree.Walk

/-!
# Reading an output back

After a job that is done its output leads to the file that the job wrote.  If the
output led to a file before, a file has taken the place of a file, and every walk is
as it was.  If it led nowhere, its last name had no entry or was a link; then the walk to
its folder is as it was, unless it passes through that link, and the last name is now
that of a file.

A walk to the folder that passes through the link shows that the link leads to a
directory.  So the output can have led nowhere only for want of links: that is the
one case which `read_output_of_embed` leaves out.
-/

namespace ByteEmbed
namespace FileTree

variable {tree : FileTree}

/-- Where the walk to its folder does not depend on the entry that an output names, the
output leads to a file that is put there. -/
theorem resolve_set_named {workDir place : Place} {output : Path}
    (hwalk : output.IsWalkable) (hend : output.endsInSlash = false)
    (hplace : tree.namedPlace workDir output = .ok place)
    (hclear : place ∉ tree.lookups workDir output.folder) (file : File) :
    (tree.set place (.file file)).resolve workDir output = .ok place := by
  obtain ⟨name, folder, hlast, hlength, hfolder, rfl⟩ := namedPlace_eq_ok_iff.mp hplace
  have hsame : (tree.set (folder ++ [name]) (.file file)).resolve workDir output.folder =
      .ok folder := by
    rw [← hfolder]
    apply resolve_congr
    intro here hhere
    apply shapeAt_set_of_ne
    rintro rfl
    exact hclear hhere
  obtain ⟨links, mode, hmode, hresolve⟩ := resolve_eq_follow_into hwalk hlast hend hsame
  rw [hresolve]
  exact follow_into_of_not_link hmode hlength (get?_set_self _ _ _) (fun _ => nofun) links

/-- The output leads to the file that is put into its slot. -/
theorem resolve_set_slot {workDir : Place} {output : Path} {slot : Slot}
    (hslot : tree.outputSlot workDir output = .ok slot)
    (hclear : tree.resolve workDir output = .error .linkLoop →
      slot.place ∉ tree.lookups workDir output.folder) (file : File) :
    (tree.set slot.place (.file file)).resolve workDir output = .ok slot.place := by
  rcases target_of_outputSlot hslot with ⟨hresolve, old, hold, -⟩ | ⟨⟨e, herror⟩, hplace, -⟩
  · rw [resolve_congr fun here _ => shapeAt_set_file hold file here, hresolve]
  · obtain ⟨hdestination, hdirectory⟩ := destination_of_outputSlot hslot herror
    obtain ⟨hwalk, hend, -⟩ := destination_none_eq_ok_iff.mp hdestination
    apply resolve_set_named hwalk hend hplace
    by_cases hloop : e = .linkLoop
    · exact hclear (hloop ▸ herror)
    · exact not_mem_lookups_folder hwalk hend hplace herror hloop hdirectory

/-- The output of a job that is done reads as the declaration of the bytes that the input
held before the job, and that declaration is read back if its name has no newline.
The walk to the folder of the output may not pass through the entry that is replaced;
this says something only where links run out. -/
theorem read_output_of_embed {workDir : Place} {job : Job} {n : Nat}
    (h : (tree.embed workDir job).1 = .ok n)
    (hclear : tree.resolve workDir job.output = .error .linkLoop →
      ∀ place, tree.namedPlace workDir job.output = .ok place →
        place ∉ tree.lookups workDir job.output.folder) :
    ∃ bytes text, tree.read workDir job.input = .ok bytes ∧ n = bytes.length ∧
      text = Declaration.render ⟨job.name, bytes⟩ ∧
      (tree.embed workDir job).2.read workDir job.output = .ok (Text.encode text) ∧
      Text.decode? (Text.encode text) = some text ∧
      ('\n' ∉ job.name → Declaration.parse text = .ok ⟨job.name, bytes⟩) ∧
      ('\n' ∈ job.name → ∃ e, Declaration.parse text = .error e) := by
  obtain ⟨bytes, slot, hread, hslot, hn, hafter⟩ := exists_slot_of_embed h
  refine ⟨bytes, _, hread, hn, rfl, ?_, Text.decode?_encode _, ?_, ?_⟩
  · rw [hafter]
    apply read_of_resolve (resolve_set_slot hslot ?_ _) (get?_set_self _ _ _)
    intro hloop
    apply hclear hloop
    rcases target_of_outputSlot hslot with ⟨hresolve, -⟩ | ⟨-, hplace, -⟩
    · rw [hloop] at hresolve
      cases hresolve
    · exact hplace
  · intro hname
    exact Declaration.parse_render_of_not_mem hname
  · intro hname
    obtain ⟨e, herror, -⟩ := Declaration.parse_render_of_mem hname bytes
    exact ⟨e, herror⟩

/-- A tree in which the path `o` is a link to itself. -/
def loopTree : FileTree :=
  (((∅ : FileTree).set [] (.directory .newDirectory)).set [[0x69]] (.file ⟨0, 0o400, [42]⟩)).set
    [[0x6F]] (.link ⟨[0x6F]⟩)

theorem read_output_of_embed_loopTree :
    (loopTree.embed [] linkedJob).1 = .ok 1 ∧
      loopTree.resolve [] linkedJob.output = .error .linkLoop ∧
      loopTree.namedPlace [] linkedJob.output = .ok [[0x6F]] ∧
      [[0x6F]] ∉ loopTree.lookups [] linkedJob.output.folder ∧
      ∃ bytes text, loopTree.read [] linkedJob.input = .ok bytes ∧ 1 = bytes.length ∧
        text = Declaration.render ⟨linkedJob.name, bytes⟩ ∧
        (loopTree.embed [] linkedJob).2.read [] linkedJob.output = .ok (Text.encode text) ∧
        Text.decode? (Text.encode text) = some text ∧
        ('\n' ∉ linkedJob.name → Declaration.parse text = .ok ⟨linkedJob.name, bytes⟩) ∧
        ('\n' ∈ linkedJob.name → ∃ e, Declaration.parse text = .error e) := by
  have hdone : (loopTree.embed [] linkedJob).1 = .ok 1 := by
    decide +kernel
  have hloop : loopTree.resolve [] linkedJob.output = .error .linkLoop := by
    decide +kernel
  have hnamed : loopTree.namedPlace [] linkedJob.output = .ok [[0x6F]] := by
    decide +kernel
  have hclear : [[0x6F]] ∉ loopTree.lookups [] linkedJob.output.folder := by
    decide +kernel
  refine ⟨hdone, hloop, hnamed, hclear, read_output_of_embed hdone ?_⟩
  intro _ place hplace
  rw [hnamed] at hplace
  cases hplace
  exact hclear

/-- Without links to spare an output may pass through the entry that it replaces, and
then it leads nowhere: here `o` leads to its own folder forty times, and not once more. -/
example :
    let tree := (((∅ : FileTree).set [] (.directory .newDirectory)).set [[0x69]]
      (.file ⟨0, 0o400, [42]⟩)).set [[0x6F]] (.link ⟨[dot]⟩)
    let job : Job := { linkedJob with output := .ofPieces (List.replicate 41 [0x6F]) }
    (tree.embed [] job).1 = .ok 1 ∧
      (tree.embed [] job).2.read [] job.output = .error .notADirectory := by
  decide +kernel

end FileTree
end ByteEmbed
