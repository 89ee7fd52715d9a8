import ByteEmbed.FileTree.Resolve

/-!
# Editing file trees

The ordinary operations on a tree: writing a file in place, making directories,
links and hard links, removing, renaming and changing modes.  Writing in place
and changing the mode reach every entry of the file, unlike embedding, which
replaces one entry by a new file.
-/

namespace ByteEmbed
namespace FileTree

/-- A tree with a directory at a place and at every place above it. -/
def ofDirectory (place : Place) : FileTree :=
  (List.range (place.length + 1)).foldl
    (fun tree depth => tree.set (place.take depth) (.directory .newDirectory)) ∅

/-- Changes a regular file, and so every entry of it. -/
def modifyId (tree : FileTree) (id : FileId) (f : File → File) : FileTree :=
  ⟨tree.entries.map fun _ entry =>
    match entry with
    | .file file => if file.id = id then .file (f file) else entry
    | _ => entry⟩

/-- The place at which opening a path for writing finds or makes a file: that of
the entry that the path names, or, where that is a link, of what it stands for. -/
def writablePlace (tree : FileTree) (workDir : Place) (path : Path) (links : Nat) :
    Except FileError Place :=
  match tree.namedPlace workDir path with
  | .error e => .error e
  | .ok place =>
      match tree.get? place with
      | some (.link target) =>
          match links with
          | 0 => .error .linkLoop
          | links + 1 => tree.writablePlace place.dropLast target links
      | _ => .ok place

/-- Writes a file in place, or makes it, and sets its mode. -/
def writeFile (tree : FileTree) (workDir : Place) (path : Path) (contents : List UInt8)
    (mode : Mode) : Except FileError FileTree := do
  let place ← tree.writablePlace workDir path maxLinks
  match tree.get? place with
  | some (.file file) =>
      return tree.modifyId file.id fun file => { file with mode := mode, contents := contents }
  | none => return tree.set place (.file ⟨tree.freshId, mode, contents⟩)
  | some _ => throw .isADirectory

/-- Makes the directories on the way of some steps that do not exist. -/
def makeDirectoriesFrom (tree : FileTree) (here : Place) : List Step → Except FileError FileTree
  | [] => .ok tree
  | step :: rest =>
      match step, tree.walk here [step, .stay] with
      | _, .ok place => tree.makeDirectoriesFrom place rest
      | .into name, .error .notFound =>
          let made := here ++ [name]
          match tree.get? made with
          | none => (tree.set made (.directory .newDirectory)).makeDirectoriesFrom made rest
          | some _ => .error .notFound
      | _, .error e => .error e

/-- Makes a directory and those above it that do not exist. -/
def makeDirectories (tree : FileTree) (workDir : Place) (path : Path) :
    Except FileError FileTree :=
  tree.makeDirectoriesFrom (path.start workDir) path.steps

/-- Makes a symbolic link. -/
def makeLink (tree : FileTree) (workDir : Place) (target path : Path) :
    Except FileError FileTree := do
  let place ← tree.namedPlace workDir path
  return tree.set place (.link target)

/-- Makes another entry of the file that a path names. -/
def makeHardLink (tree : FileTree) (workDir : Place) (target path : Path) :
    Except FileError FileTree := do
  let source ← tree.namedPlace workDir target
  let place ← tree.namedPlace workDir path
  match tree.get? source with
  | none => throw .notFound
  | some (.directory _) => throw .isADirectory
  | some entry => return tree.set place entry

/-- Removes a file or a link. -/
def remove (tree : FileTree) (workDir : Place) (path : Path) : Except FileError FileTree := do
  let place ← tree.namedPlace workDir path
  match tree.get? place with
  | none => throw .notFound
  | some (.directory _) => throw .isADirectory
  | some _ => return tree.erase place

/-- Whether two entries are the same regular file. -/
def sameFile : Entry → Entry → Bool
  | .file a, .file b => a.id = b.id
  | _, _ => false

/-- Moves an entry, and all that stands below it, to another place. -/
def moveTo (tree : FileTree) (source target : Place) : FileTree :=
  (tree.erase target).entries.foldl
    (fun moved place entry =>
      match source.isPrefixOf? place with
      | some below => moved.set (target ++ below) entry
      | none => moved.set place entry)
    ∅

/-- Renames an entry.  What stands at the new name gives way, unless it is the
same file already. -/
def rename (tree : FileTree) (workDir : Place) (source target : Path) :
    Except FileError FileTree := do
  let sourcePlace ← tree.namedPlace workDir source
  let targetPlace ← tree.namedPlace workDir target
  match tree.get? sourcePlace, tree.get? targetPlace with
  | none, _ => throw .notFound
  | some old, some new =>
      if sourcePlace = targetPlace ∨ sameFile old new then return tree
      else return tree.moveTo sourcePlace targetPlace
  | some _, none => return tree.moveTo sourcePlace targetPlace

/-- Sets the mode of the file or directory that a path leads to. -/
def setMode (tree : FileTree) (workDir : Place) (path : Path) (mode : Mode) :
    Except FileError FileTree := do
  let place ← tree.resolve workDir path
  match tree.get? place with
  | some (.file file) => return tree.modifyId file.id fun file => { file with mode := mode }
  | some (.directory _) => return tree.set place (.directory mode)
  | _ => throw .notFound

end FileTree
end ByteEmbed
