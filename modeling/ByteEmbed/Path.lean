import ByteEmbed.Text.Utf8

/-!
# Paths

A path is a string of bytes.  Slashes cut it into pieces, and each piece is a
step: an empty piece or `.` stays where it is, `..` goes up, and anything else
goes into the entry of that name.  Because staying asks for a directory, a
trailing slash needs no rule of its own.

The folder of a path is where the thing that it names stands, read off the
spelling alone: trailing pieces that stay are dropped, and then the last piece.
What is left keeps its slash, and so leads to a directory or nowhere.
-/

namespace ByteEmbed

/-- The name of an entry of a directory. -/
abbrev Name := List UInt8

/-- The byte that separates the pieces of a path. -/
def slash : UInt8 := 0x2F

/-- The byte of which `.` and `..` are made. -/
def dot : UInt8 := 0x2E

/-- The greatest number of bytes in a name. -/
def Name.maxLength : Nat := 255

/-- A path, as the bytes that spell it. -/
structure Path where
  bytes : List UInt8
  deriving DecidableEq, Repr

/-- One step of a path: staying in the directory, going up, or going into the entry
of a name. -/
inductive Step where
  | stay
  | up
  | into (name : Name)
  deriving DecidableEq, Repr

namespace Path

/-- The path that a text spells. -/
def ofText (text : Text) : Path :=
  ⟨text.encode⟩

/-- A path as text, malformed bytes replaced. -/
def display (path : Path) : Text :=
  Text.decodeLossy path.bytes

/-- What is appended to the path of an input to name its output. -/
def outputSuffix : Text := ".c".toList

/-- Where an input goes when nobody says where. -/
def defaultOutput (input : Path) : Path :=
  ⟨input.bytes ++ outputSuffix.encode⟩

/-- The number of bytes from which on a path is too long. -/
def lengthLimit : Nat := 4096

/-- Whether a path starts at the root. -/
def isAbsolute (path : Path) : Bool :=
  path.bytes.head? == some slash

/-- Whether a path ends in a slash. -/
def endsInSlash (path : Path) : Bool :=
  path.bytes.getLast? == some slash

/-- What stands between the slashes of a path. -/
def pieces (path : Path) : List (List UInt8) :=
  path.bytes.splitOn slash

/-- The path with the given pieces. -/
def ofPieces (pieces : List (List UInt8)) : Path :=
  ⟨[slash].intercalate pieces⟩

end Path

/-- The step that a piece of a path takes. -/
def Step.ofPiece (piece : List UInt8) : Step :=
  if piece = [] ∨ piece = [dot] then .stay
  else if piece = [dot, dot] then .up
  else .into piece

namespace Path

/-- The steps of a path. -/
def steps (path : Path) : List Step :=
  path.pieces.map Step.ofPiece

/-- The pieces that lead to the folder of a path. -/
def folderPieces (path : Path) : List (List UInt8) :=
  (path.pieces.reverse.dropWhile fun piece => Step.ofPiece piece = .stay).tail.reverse

/-- The path of the folder in which the thing named by a path stands. -/
def folder (path : Path) : Path :=
  if path.folderPieces = [] then ⟨[dot]⟩ else .ofPieces (path.folderPieces ++ [[]])

/-- The last step of a path, slashes at its end aside. -/
def lastStep? (path : Path) : Option Step :=
  (path.pieces.reverse.dropWhile List.isEmpty).head?.map Step.ofPiece

@[simp]
theorem bytes_defaultOutput (input : Path) :
    input.defaultOutput.bytes = input.bytes ++ outputSuffix.encode := rfl

end Path
end ByteEmbed
