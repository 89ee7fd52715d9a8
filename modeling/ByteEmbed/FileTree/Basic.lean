import ByteEmbed.Path
import Std.Data.ExtTreeMap

/-!
# File trees

A place is a position in a tree: the names that lead to it from the root, with
no link among them.  A tree says which entry stands at which place.  Entries of
one regular file, its hard links, carry the same file identifier besides the
same mode and contents; a symbolic link carries the path that it stands for.

The root is an entry like any other, at the empty place.  Nothing here asks
that the folder of an entry be a directory: an entry whose folder is not one is
out of reach of every path.
-/

namespace ByteEmbed

/-- A position in a file tree: the names that lead to it from the root. -/
abbrev Place := List Name

instance Place.transCmp : Std.TransCmp (compare : Place → Place → Ordering) :=
  inferInstance

/-- Permission bits. -/
abbrev Mode := Nat

/-- What tells one regular file from another. -/
abbrev FileId := Nat

/-- A regular file as each of its entries shows it. -/
structure File where
  id : FileId
  mode : Mode
  contents : List UInt8
  deriving DecidableEq, Repr

/-- What stands at a place. -/
inductive Entry where
  | file (file : File)
  | directory (mode : Mode)
  | link (target : Path)
  deriving DecidableEq, Repr

/-- The mode of a new file. -/
def Mode.newFile : Mode := 0o644

/-- The mode of a new directory. -/
def Mode.newDirectory : Mode := 0o755

/-- A tree of directories, regular files and symbolic links. -/
structure FileTree where
  entries : Std.ExtTreeMap Place Entry

namespace FileTree

/-- The entry at a place. -/
def get? (tree : FileTree) (place : Place) : Option Entry :=
  tree.entries[place]?

/-- Puts an entry at a place, instead of whatever stands there. -/
def set (tree : FileTree) (place : Place) (entry : Entry) : FileTree :=
  ⟨tree.entries.insert place entry⟩

/-- Takes away the entry at a place. -/
def erase (tree : FileTree) (place : Place) : FileTree :=
  ⟨tree.entries.erase place⟩

/-- The tree that holds nothing. -/
instance : EmptyCollection FileTree :=
  ⟨⟨∅⟩⟩

@[ext]
theorem ext {tree other : FileTree} (h : ∀ place, tree.get? place = other.get? place) :
    tree = other := by
  cases tree
  cases other
  congr 1
  exact Std.ExtTreeMap.ext_getElem? h

@[simp]
theorem get?_empty (place : Place) : (∅ : FileTree).get? place = none := by
  change (∅ : Std.ExtTreeMap Place Entry)[place]? = none
  simp

theorem get?_set (tree : FileTree) (place other : Place) (entry : Entry) :
    (tree.set place entry).get? other =
      if other = place then some entry else tree.get? other := by
  simp only [get?, set, Std.ExtTreeMap.getElem?_insert, Std.LawfulEqCmp.compare_eq_iff_eq]
  simp only [eq_comm]

theorem get?_erase (tree : FileTree) (place other : Place) :
    (tree.erase place).get? other =
      if other = place then none else tree.get? other := by
  simp only [get?, erase, Std.ExtTreeMap.getElem?_erase, Std.LawfulEqCmp.compare_eq_iff_eq]
  simp only [eq_comm]

@[simp]
theorem get?_set_self (tree : FileTree) (place : Place) (entry : Entry) :
    (tree.set place entry).get? place = some entry := by
  rw [get?_set, if_pos rfl]

theorem get?_set_of_ne (tree : FileTree) {place other : Place} (entry : Entry)
    (h : other ≠ place) : (tree.set place entry).get? other = tree.get? other := by
  rw [get?_set, if_neg h]

@[simp]
theorem set_set (tree : FileTree) (place : Place) (first second : Entry) :
    (tree.set place first).set place second = tree.set place second := by
  ext other : 1
  by_cases h : other = place
  · rw [h, get?_set_self, get?_set_self]
  · rw [get?_set_of_ne _ _ h, get?_set_of_ne _ _ h, get?_set_of_ne _ _ h]

/-- Taking away an entry that was put where nothing stood gives the tree back. -/
theorem erase_set {tree : FileTree} {place : Place} (h : tree.get? place = none)
    (entry : Entry) : (tree.set place entry).erase place = tree := by
  ext other : 1
  rw [get?_erase]
  split
  · next hother => rw [hother, h]
  · next hother => rw [get?_set_of_ne _ _ hother]

/-- An identifier that no file of the tree has: one more than the greatest. -/
def freshId (tree : FileTree) : FileId :=
  tree.entries.foldl
    (fun id _ entry =>
      match entry with
      | .file file => max id (file.id + 1)
      | _ => id)
    0

end FileTree
end ByteEmbed
