import ByteEmbed.Proofs.Tree.Commute

/-!
# Jobs with the same output

The second of two jobs with one output finds the file of the first where the output led to
another file, or to none.  No path leads past a file, so a path that leads anywhere now
leads there or where it led before (`resolve_of_set_file`), and the second job replaces what
the first one has put in place.  Nothing is left of that: the second job comes to what it
would have come to alone (`last_embed_wins`).

The first job may have replaced a link through which the walk to the folder of the output
passed.  Then the second job fails, because that walk now comes to a file.
-/

namespace ByteEmbed
namespace FileTree

variable {tree : FileTree}

/-! ### The slot of the second job -/

/-- A path that leads anywhere in a tree with a new file leads to that file or where it led
before. -/
theorem resolve_of_set_file {workDir place found : Place} {path : Path} {file : File}
    (h : (tree.set place (.file file)).resolve workDir path = .ok found) :
    found = place ∨ tree.resolve workDir path = .ok found := by
  by_cases hplace : place ∈ (tree.set place (.file file)).lookups workDir path
  · exact .inl (eq_of_mem_lookups_of_file h hplace (get?_set_self _ _ _))
  · right
    rw [← h]
    apply resolve_congr
    intro here hhere
    rw [shapeAt_set_of_ne]
    rintro rfl
    exact hplace hhere

/-- A new file is no folder, so the entry that a path names is the one that it named before. -/
theorem namedPlace_of_set_file {workDir place named : Place} {path : Path} {file : File}
    (hend : path.endsInSlash = false)
    (h : (tree.set place (.file file)).namedPlace workDir path = .ok named) :
    tree.namedPlace workDir path = .ok named := by
  obtain ⟨name, folder, hlast, hlength, hfolder, rfl⟩ := namedPlace_eq_ok_iff.mp h
  obtain ⟨-, -, mode, -, -, hmode⟩ := exists_travel_to_folder hlast hend hfolder
  rcases resolve_of_set_file hfolder with rfl | hbefore
  · rw [get?_set_self] at hmode
    cases hmode
  · exact namedPlace_eq_ok_iff.mpr ⟨name, folder, hlast, hlength, hbefore, rfl⟩

/-- The output goes to the file that was put into its slot, if it goes anywhere. -/
theorem place_of_outputSlot_set {workDir : Place} {output : Path} {slot again : Slot}
    {file : File} (hslot : tree.outputSlot workDir output = .ok slot)
    (hagain : (tree.set slot.place (.file file)).outputSlot workDir output = .ok again) :
    again.place = slot.place := by
  rcases outputSlot_eq_ok_iff.mp hagain with ⟨hresolve, -⟩ | ⟨⟨e, herror⟩, hdestination, -⟩
  · rcases resolve_of_set_file hresolve with hsame | hbefore
    · exact hsame
    · have htarget := target_of_outputSlot_eq_ok hslot
      rw [target, hbefore] at htarget
      exact Except.ok.inj htarget
  · obtain ⟨hwalk, hend, hnamed⟩ := destination_none_eq_ok_iff.mp hdestination
    have hbefore := namedPlace_of_set_file hend hnamed
    rcases target_of_outputSlot hslot with ⟨hresolve, old, hold, -⟩ | ⟨-, hplace, -⟩
    · -- A file instead of a file: the output still leads there.
      rw [resolve_congr fun here _ => shapeAt_set_file hold file here, hresolve] at herror
      cases herror
    · rw [hbefore] at hplace
      exact Except.ok.inj hplace

theorem outputSlot_set_slot {workDir : Place} {output : Path} {slot again : Slot} {file : File}
    (hslot : tree.outputSlot workDir output = .ok slot)
    (hagain : (tree.set slot.place (.file file)).outputSlot workDir output = .ok again) :
    again = ⟨slot.place, file.mode⟩ := by
  have hplace := place_of_outputSlot_set hslot hagain
  have hmode : again.mode = file.mode := by
    rw [mode_of_outputSlot hagain, hplace, modeAt, get?_set_self]
  rw [← hplace, ← hmode]

/-! ### Two jobs -/

/-- A job that replaces the output of another one is planned as if that one were not. -/
theorem plan_of_plan_put {workDir : Place} {first second : Job} {plan again : Plan}
    (houtput : second.output = first.output)
    (hread : (tree.put plan).read workDir second.input = tree.read workDir second.input)
    (hplan : tree.plan workDir first = .ok plan)
    (hagain : (tree.put plan).plan workDir second = .ok again) :
    tree.plan workDir second = .ok again ∧ again.slot = plan.slot := by
  obtain ⟨firstBytes, slot, -, hslot, rfl⟩ := plan_eq_ok_iff.mp hplan
  obtain ⟨bytes, newSlot, hbytes, hnewSlot, rfl⟩ := plan_eq_ok_iff.mp hagain
  rw [hread] at hbytes
  rw [← houtput] at hslot
  obtain rfl : newSlot = slot := outputSlot_set_slot hslot hnewSlot
  exact ⟨plan_eq_ok_iff.mpr ⟨bytes, newSlot, hbytes, hslot, rfl⟩, rfl⟩

/-- Of two files that are put at one place the second remains. -/
theorem put_put_alike (tree : FileTree) {first second : Plan}
    (h : second.slot.place = first.slot.place) :
    ((tree.put first).put second).Alike (tree.put second) where
  entries place := by
    by_cases hplace : place = second.slot.place
    · subst hplace
      rw [get?_put_self, get?_put_self]
      rfl
    · rw [get?_put_of_ne _ hplace, get?_put_of_ne _ hplace, get?_put_of_ne _ (h ▸ hplace)]
  linked place twin := by
    simp only [linked_put_iff, h]
    by_cases hplace : place = first.slot.place
    · simp [hplace]
    · simp [hplace]

/-- The last of two jobs with the same output wins.  If both are done, and the second reads
what it would have read before the first, then its outcome and the tree are those of the
second job alone.  A job that is done again, and reads what it read before, changes
nothing. -/
theorem last_embed_wins {workDir : Place} {first second : Job}
    (houtput : second.output = first.output)
    (hread : (tree.embed workDir first).2.read workDir second.input =
      tree.read workDir second.input) :
    (∀ m n, (tree.embed workDir first).1 = .ok m →
      ((tree.embed workDir first).2.embed workDir second).1 = .ok n →
      (tree.embed workDir second).1 = .ok n ∧
        ((tree.embed workDir first).2.embed workDir second).2.Alike
          (tree.embed workDir second).2) ∧
      (second = first →
        ((tree.embed workDir first).2.embed workDir second).2.Alike
          (tree.embed workDir first).2) := by
  cases hfirst : tree.plan workDir first with
  | error e =>
      have hnone : tree.embed workDir first = (.error e, tree) := by
        rw [embed_eq_plan, hfirst]
      rw [hnone]
      constructor
      · intro m n hdone
        cases hdone
      · rintro rfl
        rw [hnone]
        exact Alike.refl tree
  | ok plan =>
      have hone : tree.embed workDir first = (.ok plan.count, tree.put plan) := by
        rw [embed_eq_plan, hfirst]
      rw [hone] at hread ⊢
      dsimp only at hread ⊢
      rw [embed_eq_plan (tree.put plan)]
      cases hsecond : (tree.put plan).plan workDir second with
      | error e =>
          constructor
          · intro m n _ hdone
            cases hdone
          · intro _
            exact Alike.refl _
      | ok again =>
          obtain ⟨halone, hslot⟩ := plan_of_plan_put houtput hread hfirst hsecond
          have halike := put_put_alike tree (congrArg Slot.place hslot)
          constructor
          · intro m n _ hdone
            rw [embed_eq_plan tree workDir second, halone]
            exact ⟨hdone, halike⟩
          · rintro rfl
            rw [hfirst] at halone
            obtain rfl := Except.ok.inj halone
            exact halike

/-- The job of embedding the file `l` in place of what `o` leads to. -/
def laterJob : Job :=
  ⟨⟨[0x6C]⟩, linkedJob.output, ['y']⟩

/-- The second job finds a new file where there was one with another entry. -/
theorem last_embed_wins_linkedTree :
    (linkedTree.embed [] linkedJob).1 = .ok 1 ∧
      ((linkedTree.embed [] linkedJob).2.embed [] laterJob).1 = .ok 0 ∧
      (linkedTree.embed [] laterJob).1 = .ok 0 ∧
      ((linkedTree.embed [] linkedJob).2.embed [] laterJob).2.Alike
        (linkedTree.embed [] laterJob).2 ∧
      ((linkedTree.embed [] linkedJob).2.embed [] linkedJob).2.Alike
        (linkedTree.embed [] linkedJob).2 := by
  have hfirst : (linkedTree.embed [] linkedJob).1 = .ok 1 := by
    decide +kernel
  have hsecond : ((linkedTree.embed [] linkedJob).2.embed [] laterJob).1 = .ok 0 := by
    decide +kernel
  have hread : (linkedTree.embed [] linkedJob).2.read [] laterJob.input =
      linkedTree.read [] laterJob.input := by
    decide +kernel
  have hkept : (linkedTree.embed [] linkedJob).2.read [] linkedJob.input =
      linkedTree.read [] linkedJob.input := by
    decide +kernel
  have houtput : laterJob.output = linkedJob.output := rfl
  obtain ⟨halone, halike⟩ := (last_embed_wins houtput hread).1 1 0 hfirst hsecond
  exact ⟨hfirst, hsecond, halone, halike, (last_embed_wins rfl hkept).2 rfl⟩

end FileTree
end ByteEmbed
