import ByteEmbed.FileTree.Embed
import ByteEmbed.Proofs.Tree.Lookup
import ByteEmbed.Proofs.Tree.Steps

/-!
# Drafts

The name of a draft is longer than every name in the tree, in a link or in the path
of the output, and its file has an identifier that no file of the tree has.  So a
draft stands where nothing stood, and no walk along the output comes across it.

`namedPlace_set_draft` is the consequence that embedding needs: the entry that the
output names is the same with the draft in place and without.
-/

namespace ByteEmbed
namespace FileTree

variable {tree : FileTree}

/-! ### Bounds over all entries -/

theorem le_foldl {α : Type} {g : Nat → α → Nat} (hgrows : ∀ n x, n ≤ g n x) (init : Nat)
    (items : List α) : init ≤ items.foldl g init := by
  induction items generalizing init with
  | nil => exact Nat.le_refl init
  | cons x items ih => exact Nat.le_trans (hgrows init x) (ih (g init x))

theorem le_foldl_of_mem {α : Type} {g : Nat → α → Nat} (hgrows : ∀ n x, n ≤ g n x)
    {bound : Nat} {x : α} (hx : ∀ n, bound ≤ g n x) {items : List α} (h : x ∈ items)
    (init : Nat) : bound ≤ items.foldl g init := by
  induction items generalizing init with
  | nil => cases h
  | cons y items ih =>
      rcases List.mem_cons.mp h with rfl | h
      · exact Nat.le_trans (hx init) (le_foldl hgrows (g init x) items)
      · exact ih h (g init y)

/-- A fold over the entries that never falls is at least what one of them asks for. -/
theorem le_foldl_entries {g : Nat → Place → Entry → Nat}
    (hgrows : ∀ n place entry, n ≤ g n place entry) {bound : Nat} {place : Place}
    {entry : Entry} (hentry : ∀ n, bound ≤ g n place entry)
    (h : tree.get? place = some entry) : bound ≤ tree.entries.foldl g 0 := by
  rw [Std.ExtTreeMap.foldl_eq_foldl_toList]
  have hmem : (place, entry) ∈ tree.entries.toList :=
    Std.ExtTreeMap.mem_toList_iff_getElem?_eq_some.mpr h
  exact le_foldl_of_mem (fun n item => hgrows n item.1 item.2) hentry hmem 0

theorem id_lt_freshId {place : Place} {file : File}
    (h : tree.get? place = some (.file file)) : file.id < tree.freshId := by
  unfold freshId
  apply le_foldl_entries _ _ h
  · intro n place entry
    cases entry with
    | file file => exact Nat.le_max_left _ _
    | directory mode => exact Nat.le_refl n
    | link target => exact Nat.le_refl n
  · intro n
    exact Nat.le_max_right _ _

theorem length_flatten_le_nameBound {place : Place} {entry : Entry}
    (h : tree.get? place = some entry) : place.flatten.length ≤ tree.nameBound := by
  unfold nameBound
  apply le_foldl_entries _ _ h
  · intro n place entry
    omega
  · intro n
    omega

theorem length_target_le_nameBound {place : Place} {target : Path}
    (h : tree.get? place = some (.link target)) : target.bytes.length ≤ tree.nameBound := by
  unfold nameBound
  apply le_foldl_entries _ _ h
  · intro n place entry
    omega
  · intro n
    exact Nat.le_add_left _ _

/-! ### The name of a draft -/

theorem length_draftName (tree : FileTree) (path : Path) :
    (tree.draftName path).length = tree.nameBound + path.bytes.length + 1 := by
  rw [draftName, List.length_replicate]

theorem draftName_ne_of_length_le {path : Path} {name : Name}
    (h : name.length ≤ path.bytes.length) : name ≠ tree.draftName path := by
  intro hname
  have hlength := length_draftName tree path
  rw [← hname] at hlength
  omega

/-- No entry of the tree stands in a place that holds the name of a draft. -/
theorem draftName_not_mem (path : Path) {place : Place} {entry : Entry}
    (h : tree.get? place = some entry) : tree.draftName path ∉ place := by
  intro hmem
  have hname := (List.sublist_flatten_of_mem hmem).length_le
  have hplace := length_flatten_le_nameBound h
  have hlength := length_draftName tree path
  omega

theorem noLinkInto_draftName (path : Path) : tree.NoLinkInto (tree.draftName path) := by
  intro place target hlink hmem
  have hname := Path.length_le_of_into_mem_steps hmem
  have htarget := length_target_le_nameBound hlink
  have hlength := length_draftName tree path
  omega

/-- The place of a draft is free. -/
theorem get?_draft (folder : Place) (path : Path) :
    tree.get? (folder ++ [tree.draftName path]) = none := by
  cases h : tree.get? (folder ++ [tree.draftName path]) with
  | none => rfl
  | some entry =>
      exact absurd (List.mem_append_right _ (List.mem_singleton_self _))
        (draftName_not_mem path h)

/-! ### Walks with a draft in place -/

/-- An output whose folder exists starts clear of the draft. -/
theorem draftName_not_mem_start {workDir folder : Place} {output : Path}
    (h : tree.resolve workDir output.folder = .ok folder) :
    tree.draftName output ∉ output.folder.start workDir ∧
      tree.draftName output ∉ output.start workDir := by
  obtain ⟨entry, hentry⟩ := get?_start_of_resolve h
  have hfolder := draftName_not_mem output hentry
  refine ⟨hfolder, ?_⟩
  rw [Path.start] at hfolder ⊢
  split
  · exact List.not_mem_nil
  · next hrelative =>
      -- The folder of a relative path is relative too, so both start in one place.
      have habsolute : ¬ output.folder.isAbsolute = true :=
        fun h => hrelative (Path.isAbsolute_of_isAbsolute_folder h)
      rw [if_neg habsolute] at hfolder
      exact hfolder

theorem draftName_not_mem_lookups {workDir : Place} {output path : Path}
    (hstart : tree.draftName output ∉ path.start workDir)
    (hsteps : Step.into (tree.draftName output) ∉ path.steps) :
    ∀ place ∈ tree.lookups workDir path, tree.draftName output ∉ place := by
  intro place hplace
  obtain ⟨-, hfollow⟩ := mem_lookups_iff.mp hplace
  exact not_mem_of_mem_followLookups (noLinkInto_draftName output) hstart hsteps place hfollow

/-- Finding the entry that an output names never comes across a draft. -/
theorem draftName_not_mem_namedLookups {workDir folder : Place} {output : Path}
    (h : tree.resolve workDir output.folder = .ok folder) :
    ∀ place ∈ tree.namedLookups workDir output, tree.draftName output ∉ place := by
  obtain ⟨hfolder, houtput⟩ := draftName_not_mem_start h
  intro place hplace
  rw [namedLookups] at hplace
  split at hplace
  · refine draftName_not_mem_lookups hfolder ?_ place hplace
    intro hmem
    exact draftName_ne_of_length_le (Path.length_le_of_into_mem_folder_steps hmem) rfl
  · refine draftName_not_mem_lookups houtput ?_ place hplace
    intro hmem
    exact draftName_ne_of_length_le (Path.length_le_of_into_mem_steps hmem) rfl

theorem namedPlace_set_draft {workDir folder : Place} {output : Path}
    (h : tree.resolve workDir output.folder = .ok folder) (draftFolder : Place)
    (entry : Entry) :
    (tree.set (draftFolder ++ [tree.draftName output]) entry).namedPlace workDir output =
      tree.namedPlace workDir output := by
  apply namedPlace_congr
  -- Only the place of the draft has changed, and that is never looked up.
  intro place hplace
  apply shapeAt_set_of_ne
  intro heq
  apply draftName_not_mem_namedLookups h place hplace
  rw [heq]
  simp

/-- No path leads to a draft that is not there yet. -/
theorem resolve_ne_draft {workDir found : Place} {output path : Path}
    (h : tree.resolve workDir path = .ok found) (folder : Place) :
    found ≠ folder ++ [tree.draftName output] := by
  intro hdraft
  have hfree : tree.get? found = none := by
    rw [hdraft]
    exact get?_draft folder output
  obtain ⟨file, hfound⟩ | ⟨mode, hfound⟩ := get?_of_resolve h
  · rw [hfree] at hfound
    cases hfound
  · rw [hfree] at hfound
    cases hfound

/-- The entry that an output names is none of a draft's. -/
theorem namedPlace_ne_draft {workDir place : Place} {output : Path}
    (h : tree.namedPlace workDir output = .ok place) (draftFolder : Place) :
    place ≠ draftFolder ++ [tree.draftName output] := by
  rw [namedPlace] at h
  split at h
  · next name hlast =>
      split at h
      · cases h
      · split at h
        · cases h
        · cases h
          intro heq
          have hname := List.singleton_inj.mp (List.append_inj_right' heq rfl)
          have hlength :=
            Path.length_le_of_into_mem_steps (Path.into_mem_steps_of_lastStep? hlast)
          exact draftName_ne_of_length_le hlength hname
  · split at h <;> cases h

end FileTree
end ByteEmbed
