import ByteEmbed.Embed
import ByteEmbed.FileTree.Resolve

/-!
# Embedding in a file tree

A file tree, seen from a working directory, offers what embedding asks for.  A
draft is an entry of its own, beside the output, under a name that no path and
no other entry mentions.  Publishing moves that entry over the output: other
entries of the file that it replaces stay as they are, and so does everything
else.
-/

namespace ByteEmbed
namespace FileTree

/-- A bound on the length of every name that occurs in a tree, in a place or in
the target of a link. -/
def nameBound (tree : FileTree) : Nat :=
  tree.entries.foldl
    (fun bound place entry =>
      bound + place.flatten.length +
        match entry with
        | .link target => target.bytes.length
        | _ => 0)
    0

/-- The byte that names of drafts are made of, a tilde. -/
def draftByte : UInt8 := 0x7E

/-- A name that is longer than any in the tree or in a path. -/
def draftName (tree : FileTree) (path : Path) : Name :=
  List.replicate (tree.nameBound + path.bytes.length + 1) draftByte

/-- The permission bits of what stands at a place, those of a new file if that
has none. -/
def modeAt (tree : FileTree) (place : Place) : Mode :=
  match tree.get? place with
  | some (.file file) => file.mode
  | some (.directory mode) => mode
  | _ => .newFile

/-- Changes the regular file at a place, and no other entry. -/
def modifyFile (tree : FileTree) (place : Place) (f : File → File) : FileTree :=
  match tree.get? place with
  | some (.file file) => tree.set place (.file (f file))
  | _ => tree

/-- The directory in which the draft of an output belongs.  The root is in none, and an
output that leads there has its draft in the working directory. -/
def draftFolder (tree : FileTree) (workDir : Place) (output : Path) :
    Option Place → Except FileError Place
  | some [] => .ok workDir
  | some found => .ok found.dropLast
  | none => tree.resolve workDir output.folder

/-- Starts a draft: a new, empty file. -/
def createDraft (tree : FileTree) (workDir : Place) (output : Path) (found : Option Place) :
    Except FileError Place × FileTree :=
  match tree.draftFolder workDir output found with
  | .error e => (.error e, tree)
  | .ok folder =>
      let draft := folder ++ [tree.draftName output]
      (.ok draft, tree.set draft (.file ⟨tree.freshId, .newFile, []⟩))

/-- The place to which the draft of an output is moved. -/
def destination (tree : FileTree) (workDir : Place) (output : Path) :
    Option Place → Except FileError Place
  | some found => .ok found
  | none =>
      if 0 ∈ output.bytes then .error .invalidArgument
      else if Path.lengthLimit ≤ output.bytes.length then .error .nameTooLong
      else
        match tree.namedPlace workDir output with
        | .error e => .error e
        | .ok place => if output.endsInSlash then .error .notADirectory else .ok place

/-- Why a directory does not give way to a file.  The root is always in use. -/
def obstruction (place : Place) : FileError :=
  if place = [] then .busy else .isADirectory

/-- Moves an entry that is no directory over what stands at another place, which
may not be a directory either. -/
def moveOver (tree : FileTree) (source target : Place) : Except FileError FileTree :=
  match tree.get? target, tree.get? source with
  | some (.directory _), _ => .error (obstruction target)
  | _, some entry => .ok ((tree.erase source).set target entry)
  | _, none => .error .notFound

/-- Moves a draft to its destination. -/
def publishDraft (tree : FileTree) (workDir : Place) (draft : Place) (output : Path)
    (found : Option Place) : Except FileError Unit × FileTree :=
  match (tree.destination workDir output found).bind (tree.moveOver draft) with
  | .error e => (.error e, tree)
  | .ok tree => (.ok (), tree)

/-- A file tree as embedding sees it from a working directory.  What is known of an
existing output is its mode. -/
def files (workDir : Place) : Files (StateM FileTree) Mode Place Place where
  read path := .mk fun tree => (tree.read workDir path, tree)
  stat path := .mk fun tree => ((tree.resolve workDir path).map tree.modeAt, tree)
  locate path := .mk fun tree => (tree.resolve workDir path, tree)
  create output found := .mk fun tree => tree.createDraft workDir output found
  copyMode mode draft := .mk fun tree =>
    (.ok (), tree.modifyFile draft fun file => { file with mode := mode })
  fill draft contents := .mk fun tree =>
    (.ok (), tree.modifyFile draft fun file => { file with contents := contents })
  sync _ := return ()
  publish draft output found := .mk fun tree => tree.publishDraft workDir draft output found
  discard draft := fun tree => ((), tree.erase draft)

section Run

variable {tree : FileTree}

theorem run_read (workDir : Place) (path : Path) :
    ((files workDir).read path).run.run tree = (tree.read workDir path, tree) :=
  rfl

theorem run_stat (workDir : Place) (path : Path) :
    ((files workDir).stat path).run.run tree =
      ((tree.resolve workDir path).map tree.modeAt, tree) :=
  rfl

theorem run_locate (workDir : Place) (path : Path) :
    ((files workDir).locate path).run.run tree = (tree.resolve workDir path, tree) :=
  rfl

theorem run_create (workDir : Place) (output : Path) (found : Option Place) :
    ((files workDir).create output found).run.run tree =
      tree.createDraft workDir output found :=
  rfl

theorem run_publish (workDir draft : Place) (output : Path) (found : Option Place) :
    ((files workDir).publish draft output found).run.run tree =
      tree.publishDraft workDir draft output found :=
  rfl

end Run

/-- Does a job in a file tree: the outcome, and the tree after it. -/
def embed (tree : FileTree) (workDir : Place) (job : Job) : Except EmbedError Nat × FileTree :=
  (files workDir).embed job |>.run tree

end FileTree
end ByteEmbed
