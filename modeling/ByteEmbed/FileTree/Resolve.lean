import ByteEmbed.FileError
import ByteEmbed.FileTree.Basic

/-!
# Resolving paths

A walk takes the steps of a path one after the other.  Every step starts from a
directory, a name must be short enough to be looked up at all, and a link is
replaced by the steps of its target wherever it stands, the end included.  The
number of links that one walk may follow is bounded, which is what ends it:
between two links a walk only uses up steps.

`resolve` gives the place of an existing file or directory.  `namedPlace` gives
the place of the entry that a path names, which may be a link or may not exist:
there the last name is not looked up.
-/

namespace ByteEmbed

/-- Where a walk along a path starts, seen from a working directory. -/
def Path.start (path : Path) (workDir : Place) : Place :=
  if path.isAbsolute then [] else workDir

namespace FileTree

/-- How far a walk gets without following a link: to the end, or to a link in a
folder with steps left to take behind it. -/
inductive Leg where
  | arrived (place : Place)
  | link (folder : Place) (target : Path) (rest : List Step)
  deriving DecidableEq, Repr

/-- Walks up to the first link. -/
def advance (tree : FileTree) (here : Place) : List Step → Except FileError Leg
  | [] =>
      match tree.get? here with
      | some (.file _) | some (.directory _) => .ok (.arrived here)
      | some (.link _) | none => .error .notFound
  | step :: rest =>
      match tree.get? here with
      | none => .error .notFound
      | some (.file _) | some (.link _) => .error .notADirectory
      | some (.directory _) =>
          match step with
          | .stay => tree.advance here rest
          | .up => tree.advance here.dropLast rest
          | .into name =>
              if Name.maxLength < name.length then .error .nameTooLong
              else
                match tree.get? (here ++ [name]) with
                | none => .error .notFound
                | some (.link target) => .ok (.link here target rest)
                | some _ => tree.advance (here ++ [name]) rest

/-- Walks to the end, through at most the given number of links. -/
def follow (tree : FileTree) (links : Nat) (here : Place) (steps : List Step) :
    Except FileError Place :=
  match tree.advance here steps with
  | .error e => .error e
  | .ok (.arrived place) => .ok place
  | .ok (.link folder target rest) =>
      match links with
      | 0 => .error .linkLoop
      | links + 1 => tree.follow links (target.start folder) (target.steps ++ rest)

/-- The number of links that one walk may follow. -/
def maxLinks : Nat := 40

/-- Walks from a place to the end of some steps. -/
def walk (tree : FileTree) (start : Place) (steps : List Step) : Except FileError Place :=
  tree.follow maxLinks start steps

/-- The place of the file or directory that a path leads to, links followed. -/
def resolve (tree : FileTree) (workDir : Place) (path : Path) : Except FileError Place :=
  if 0 ∈ path.bytes then .error .zeroByte
  else if path.bytes = [] then .error .notFound
  else if Path.lengthLimit ≤ path.bytes.length then .error .nameTooLong
  else tree.walk (path.start workDir) path.steps

/-- The place of the entry that a path names, whatever stands there.  A path
that ends in a step other than a name names no entry; it is an error to begin
with, or leads to a directory. -/
def namedPlace (tree : FileTree) (workDir : Place) (path : Path) : Except FileError Place :=
  match path.lastStep? with
  | some (.into name) =>
      match tree.resolve workDir path.folder with
      | .error e => .error e
      | .ok folder =>
          if Name.maxLength < name.length then .error .nameTooLong else .ok (folder ++ [name])
  | _ =>
      match tree.resolve workDir path with
      | .error e => .error e
      | .ok _ => .error .isADirectory

/-- The contents of the regular file that a path leads to. -/
def read (tree : FileTree) (workDir : Place) (path : Path) : Except FileError (List UInt8) :=
  match tree.resolve workDir path with
  | .error e => .error e
  | .ok place =>
      match tree.get? place with
      | some (.file file) => .ok file.contents
      | some _ => .error .isADirectory
      | none => .error .notFound

end FileTree
end ByteEmbed
