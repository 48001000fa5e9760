import BytePair.Text.Split
import BytePair.Text.Utf8

/-!
# Paths

A path is kept as the bytes that were given, since messages show it; they need not be a text. Empty
pieces (from doubled or trailing slashes) and pieces that are a single dot name nothing; only a dot
at the very start is kept, when a path is built from another.

* `Path.fileName?`: the last name of a path.
* `Path.withFileName`: the path with another last name, beside the first one.
* `Path.parents`: the directories above, the nearest one first.
-/

namespace BytePair

/-- The place of a file, as it was written down. -/
structure Path where
  bytes : Bytes
  deriving DecidableEq, Repr, Inhabited

namespace Path

/-- The byte between the pieces of a path. -/
def slash : UInt8 := 0x2F

/-- The piece that names where it stands. -/
def dot : Bytes := [0x2E]

/-- The piece that names the directory above. -/
def dotDot : Bytes := [0x2E, 0x2E]

instance : ToString Path := ⟨fun p => Utf8.lossy p.bytes⟩

/-- The pieces of the path between its slashes. -/
def pieces (p : Path) : List Bytes := splitOn slash p.bytes

/-- The path that starts at the root of all files. -/
def isAbsolute (p : Path) : Bool := p.bytes.head? = some slash

/-- Whether the path ends with a slash, and so can only mean a directory. -/
def endsWithSlash (p : Path) : Bool := p.bytes.getLast? = some slash

/-- The pieces that are followed, from the first one to the last. -/
def steps (p : Path) : List Bytes := p.pieces.filter (· ≠ [])

/-- Whether a piece adds nothing to the path before it. -/
def isIdle (piece : Bytes) : Bool := piece = [] || piece = dot

/-- Removes idle pieces from the end of a path, whose pieces come last one first. The first piece
of the path stays: it makes the path absolute, or is a dot at the start. -/
def trimIdle : List Bytes → List Bytes
  | [] => []
  | [first] => [first]
  | piece :: before => if isIdle piece then trimIdle before else piece :: before

/-- The path of some pieces, which come last one first. -/
def ofPieces (lastFirst : List Bytes) : Path := ⟨[slash].intercalate lastFirst.reverse⟩

/-- The last name of the path. A path that ends by going up, or that only says where it starts,
has none. -/
def fileName? (p : Path) : Option Bytes :=
  match trimIdle p.pieces.reverse with
  | [] => none
  | name :: _ => if isIdle name || name = dotDot then none else some name

/-- The path extended by a name. -/
def join (p : Path) (name : Bytes) : Path :=
  if p.bytes = [] || p.endsWithSlash then ⟨p.bytes ++ name⟩ else ⟨p.bytes ++ slash :: name⟩

/-- The path with `name` in the place of its last name, or behind it if it has none. -/
def withFileName (p : Path) (name : Bytes) : Path :=
  match p.fileName? with
  | none => p.join name
  | some _ => ofPieces (name :: trimIdle (trimIdle p.pieces.reverse).tail)

/-- The paths above some pieces, which come last one first; neither the start of a relative path
nor the root is among them. -/
def parentsOf : List Bytes → List Path
  | [] => []
  | piece :: before =>
    if isIdle piece && before ≠ [] then parentsOf before
    else if before = [] then []
    else
      match trimIdle before with
      | [[]] => []
      | [] => []
      | parent => ofPieces parent :: parentsOf before

/-- The paths above, the nearest one first. -/
def parents (p : Path) : List Path := parentsOf p.pieces.reverse

end Path

end BytePair
