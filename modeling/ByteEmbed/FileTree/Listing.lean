import ByteEmbed.FileTree.Basic

/-!
# Listing a file tree

A listing gives every entry with its path as seen from a working directory, in
the order of the places: a directory comes right before what it holds, and its
entries are sorted by the bytes of their names.
-/

namespace ByteEmbed

/-- The names and steps upwards that lead from one place to another. -/
def Place.relativeTo : (workDir place : Place) → List Name
  | [], place => place
  | above :: workDir, name :: place =>
      if above = name then Place.relativeTo workDir place
      else (above :: workDir).map (fun _ => [dot, dot]) ++ name :: place
  | workDir, [] => workDir.map fun _ => [dot, dot]

namespace FileTree

/-- The entries of a tree with their paths from a working directory.  The
working directory and the directories that hold it are left out. -/
def listing (tree : FileTree) (workDir : Place) : List (Path × Entry) :=
  (tree.entries.toList.filter fun (place, _) => !place.isPrefixOf workDir).map
    fun (place, entry) => (Path.ofPieces (Place.relativeTo workDir place), entry)

end FileTree
end ByteEmbed
