import BytePair.Files.Path

/-!
# File trees

Files and directories, and what becomes of them. A tree is a finite map from locations to entries;
the order in which the entries are kept is the order in which a directory lists its own.

* `FileTree.read`, `FileTree.create`, `FileTree.moveFile`, `FileTree.removeFile`,
  `FileTree.makeDirectories`: the operations, each of which may meet a `Fault`.
* A path is followed piece by piece from the working directory; everything before its last piece
  has to be a directory, and so does a path with a slash at its end. Names and paths are limited in
  length.
* What the entries do not show is given with the tree: what the system refuses at a location
  (`FileTree.refuses`), as for want of a permission or after a read error, and where it takes only a
  part of what is written (`FileTree.shortage`), as on a full disk. Both stay as they are during a
  run, but for locations that are filled anew.

Links, symbolic and hard, are left out: there is one path of plain names to every entry. A special
entry has content when it is read, as a pipe has that somebody else writes to, and is not written
to; reading never waits. A file that may be written to may also be read.
-/

namespace BytePair

/-- Why an operation on a path fails. -/
inductive Fault where
  | notFound
  | inputOutput
  | noDevice
  | permissionDenied
  | busy
  | alreadyThere
  | notADirectory
  | isADirectory
  | noSpace
  | nameTooLong
  | nulInName
  | notUtf8
  /-- Any other fault, in the words of the system. -/
  | other (message : String)
  deriving DecidableEq, Repr

/-- The fault in words; most faults of the system have a number too. -/
def Fault.message : Fault → String
  | notFound => "No such file or directory (os error 2)"
  | inputOutput => "Input/output error (os error 5)"
  | noDevice => "No such device or address (os error 6)"
  | permissionDenied => "Permission denied (os error 13)"
  | busy => "Device or resource busy (os error 16)"
  | alreadyThere => "File exists (os error 17)"
  | notADirectory => "Not a directory (os error 20)"
  | isADirectory => "Is a directory (os error 21)"
  | noSpace => "No space left on device (os error 28)"
  | nameTooLong => "File name too long (os error 36)"
  | nulInName => "file name contained an unexpected NUL byte"
  | notUtf8 => "stream did not contain valid UTF-8"
  | other message => message

/-- The names from the root of all files down to an entry. -/
abbrev Location := List Bytes

inductive Entry where
  | file (content : Bytes)
  | directory
  /-- A pipe, a socket or a device, with what it gives when it is read. -/
  | special (given : Bytes)
  deriving DecidableEq, Repr

/-- What is asked of an entry. -/
inductive Permission where
  /-- To look up a name in a directory. -/
  | search
  /-- To list a directory, or to read a file. -/
  | read
  /-- To replace the content of a file. -/
  | write
  /-- To add a name to a directory. -/
  | add
  /-- To move a name out of a directory, or into it. -/
  | move
  /-- To remove a name from a directory. -/
  | remove
  deriving DecidableEq, Repr

/-- A place that does not take everything that is written to it. -/
structure Shortage where
  /-- How many bytes it takes. -/
  room : Nat
  /-- What a longer content meets. -/
  fault : Fault
  /-- Whether the fault is met only when the last bytes are handed over. -/
  late : Bool
  deriving DecidableEq, Repr

/-- Files and directories by location. The root is a directory that needs no entry. -/
structure FileTree where
  workingDirectory : Location
  entries : List (Location × Entry)
  /-- What the system refuses at a location, whatever is there. -/
  refuses : Location → Permission → Option Fault := fun _ _ => none
  /-- The places that do not take everything. -/
  shortage : Location → Option Shortage := fun _ => none

namespace FileTree

/-! ## Entries -/

/-- What is at a location. -/
def get? (t : FileTree) (l : Location) : Option Entry :=
  if l = [] then some .directory else t.entries.lookup l

/-- The tree without what is at a location. -/
def erase (t : FileTree) (l : Location) : FileTree :=
  { t with entries := t.entries.filter (·.1 ≠ l) }

/-- The tree with an entry at a location, in the place of what was there. -/
def put (t : FileTree) (l : Location) (e : Entry) (refused : Permission → Option Fault) : FileTree :=
  { t with
    entries := (t.erase l).entries ++ [(l, e)]
    refuses := fun m access => if m = l then refused access else t.refuses m access }

/-- The tree with a new entry at a location. Nothing is refused there. -/
def set (t : FileTree) (l : Location) (e : Entry) : FileTree := t.put l e fun _ => none

theorem lookup_filter_ne (l m : Location) (es : List (Location × Entry)) :
    (es.filter (·.1 ≠ l)).lookup m = if m = l then none else es.lookup m := by
  induction es with
  | nil => simp
  | cons x es ih =>
    obtain ⟨n, e⟩ := x
    by_cases hm : m = n
    · subst hm
      by_cases hl : m = l
      · rw [List.filter_cons_of_neg (by simp [hl]), ih, if_pos hl, if_pos hl]
      · simp [hl]
    · have hne : (m == n) = false := by simpa using hm
      by_cases hl : n = l
      · rw [List.filter_cons_of_neg (by simp [hl]), ih, List.lookup_cons, hne]
      · rw [List.filter_cons_of_pos (by simp [hl]), List.lookup_cons, hne, List.lookup_cons, hne]
        exact ih

theorem get?_erase (t : FileTree) (l : Location) {m : Location} (hm : m ≠ []) :
    (t.erase l).get? m = if m = l then none else t.get? m := by
  simp only [get?, hm, if_false, erase]
  exact lookup_filter_ne l m t.entries

theorem get?_put (t : FileTree) (l : Location) (e : Entry) (refused : Permission → Option Fault)
    {m : Location} (hm : m ≠ []) :
    (t.put l e refused).get? m = if m = l then some e else t.get? m := by
  have herase := get?_erase t l hm
  simp only [get?, hm, if_false, put] at herase ⊢
  rw [List.lookup_append, herase]
  by_cases h : m = l
  · simp [h]
  · have hne : (m == l) = false := by simpa using h
    rw [if_neg h, if_neg h, List.lookup_cons, hne]
    simp

/-- The names in a directory, in the order in which it lists them. -/
def names (t : FileTree) (dir : Location) : List Bytes :=
  t.entries.filterMap fun (l, _) => if l.dropLast = dir then l.getLast? else none

/-- The tree that has nothing but an empty working directory. -/
def empty (workingDirectory : Location) : FileTree where
  workingDirectory := workingDirectory
  entries :=
    (List.range workingDirectory.length).map fun n => (workingDirectory.take (n + 1), .directory)

/-- Faults if the system refuses something at a location. -/
def permit (t : FileTree) (l : Location) (access : Permission) : Except Fault Unit :=
  match t.refuses l access with
  | some fault => .error fault
  | none => .ok ()

/-! ## Following a path -/

/-- The length of the longest name, in bytes. -/
def nameLimit : Nat := 255

/-- The length of the longest path, in bytes. -/
def pathLimit : Nat := 4095

/-- Whether a path is short enough to be followed. -/
def fits (p : Path) : Bool := p.bytes.length ≤ pathLimit

/-- Whether a piece of a path names where it stands, or the directory above. -/
def isDots (piece : Bytes) : Bool := piece = Path.dot || piece = Path.dotDot

/-- The location that a piece leads to. Nothing is above the root. -/
def step (dir : Location) (piece : Bytes) : Location :=
  if piece = Path.dot then dir else if piece = Path.dotDot then dir.dropLast else dir ++ [piece]

/-- Faults unless a directory is at the location, in which names may be looked up. -/
def expectDirectory (t : FileTree) (l : Location) : Except Fault Unit :=
  match t.get? l with
  | some .directory => t.permit l .search
  | some _ => .error .notADirectory
  | none => .error .notFound

/-- Faults if a name is too long to be looked up. -/
def checkName (name : Bytes) : Except Fault Unit :=
  if nameLimit < name.length then .error .nameTooLong else .ok ()

/-- Follows pieces from a location. Whatever a piece is looked up in has to be a directory. -/
def walk (t : FileTree) (l : Location) : List Bytes → Except Fault Location
  | [] => .ok l
  | piece :: rest => do
    t.expectDirectory l
    checkName piece
    t.walk (step l piece) rest

/-- The pieces of a path, unless it cannot name anything. -/
def checkedSteps (p : Path) : Except Fault (List Bytes) :=
  if p.bytes = [] then .error .notFound
  else if p.bytes.contains 0 then .error .nulInName
  else if !fits p then .error .nameTooLong
  else .ok p.steps

/-- Where a path starts. -/
def startOf (t : FileTree) (p : Path) : Location :=
  if p.isAbsolute then [] else t.workingDirectory

/-- The location of a path, at which there may be nothing. -/
def locate (t : FileTree) (p : Path) : Except Fault Location := do
  let l ← t.walk (t.startOf p) (← checkedSteps p)
  match t.get? l with
  | none | some .directory => .ok l
  | some _ => if p.endsWithSlash then .error .notADirectory else .ok l

/-- The directory that the last piece of a path is looked up in, and that piece. -/
def enter (t : FileTree) (p : Path) : Except Fault (Location × Bytes) := do
  let steps ← checkedSteps p
  let dir ← t.walk (t.startOf p) steps.dropLast
  t.expectDirectory dir
  return (dir, steps.getLastD Path.dot)

/-- What a directory has by a name. -/
def lookUp (t : FileTree) (dir : Location) (name : Bytes) : Except Fault (Option Entry) := do
  checkName name
  return t.get? (dir ++ [name])

/-! ## Operations -/

def isDirectory (t : FileTree) (p : Path) : Bool :=
  match t.locate p with
  | .ok l => t.get? l = some .directory
  | .error _ => false

/-- The content of a file. -/
def read (t : FileTree) (p : Path) : Except Fault Bytes := do
  let l ← t.locate p
  match t.get? l with
  | none => .error .notFound
  | some e =>
    t.permit l .read
    match e with
    | .file content | .special content => .ok content
    | .directory => .error .isADirectory

/-- The location of a file that is to be written, which may be there already. -/
def place (t : FileTree) (p : Path) : Except Fault Location := do
  let (dir, name) ← t.enter p
  if isDots name || p.endsWithSlash then throw .isADirectory
  match ← t.lookUp dir name with
  | some .directory => throw .isADirectory
  | some (.special _) => throw .noDevice
  | some (.file _) =>
    t.permit (dir ++ [name]) .read
    t.permit (dir ++ [name]) .write
  | none => t.permit dir .add
  return dir ++ [name]

/-- The shortage that a content meets at a location. -/
def shortageOf (t : FileTree) (l : Location) (content : Bytes) : Option Shortage :=
  (t.shortage l).filter (·.room < content.length)

/-- The tree with a content, or with as much of it as there is room for. -/
def fill (t : FileTree) (l : Location) (content : Bytes) : FileTree × Option Shortage :=
  match t.shortageOf l content with
  | some shortage => (t.set l (.file (content.take shortage.room)), some shortage)
  | none => (t.set l (.file content), none)

/-- Writes a file, in the place of one that was there. -/
def create (t : FileTree) (p : Path) (content : Bytes) : Except Fault FileTree := do
  match t.fill (← t.place p) content with
  | (_, some shortage) => .error shortage.fault
  | (written, none) => .ok written

/-- Moves a file to another place, at which there may be a file already. -/
def moveFile (t : FileTree) (source target : Path) : Except Fault FileTree := do
  discard (checkedSteps source)
  discard (checkedSteps target)
  let (sourceDir, sourceName) ← t.enter source
  let (targetDir, targetName) ← t.enter target
  if isDots sourceName || isDots targetName then throw .busy
  match ← t.lookUp sourceDir sourceName with
  | none => .error .notFound
  | some .directory => .error .isADirectory
  | some moved =>
    let replaced ← t.lookUp targetDir targetName
    if source.endsWithSlash || target.endsWithSlash then throw .notADirectory
    t.permit sourceDir .move
    t.permit targetDir .move
    match replaced with
    | some .directory => .error .isADirectory
    | _ =>
      let old := sourceDir ++ [sourceName]
      .ok ((t.erase old).put (targetDir ++ [targetName]) moved (t.refuses old))

/-- The tree without a file; a path that names none changes nothing. -/
def removeFile (t : FileTree) (p : Path) : FileTree :=
  match t.locate p with
  | .ok l => match t.get? l with
    | none | some .directory => t
    | some _ => if t.refuses l.dropLast .remove = none then t.erase l else t
  | .error _ => t

/-- Makes one directory, in a directory that is there. -/
def makeDirectory (t : FileTree) (p : Path) : Except Fault FileTree := do
  let (dir, name) ← t.enter p
  if isDots name then throw .alreadyThere
  match ← t.lookUp dir name with
  | some _ => .error .alreadyThere
  | none =>
    t.permit dir .add
    return t.set (dir ++ [name]) .directory

/-- Makes the first directory of a list, and before it the ones above it that are missing, which
follow in the list. What was made before a fault stays. -/
def makeAll (t : FileTree) : List Path → FileTree × Except Fault Unit
  | [] => (t, .ok ())
  | p :: above =>
    match t.makeDirectory p with
    | .ok made => (made, .ok ())
    | .error .notFound =>
      match t.makeAll above with
      | (t, .error fault) => (t, .error fault)
      | (t, .ok ()) =>
        match t.makeDirectory p with
        | .ok made => (made, .ok ())
        | .error fault => (t, if t.isDirectory p then .ok () else .error fault)
    | .error fault => (t, if t.isDirectory p then .ok () else .error fault)

/-- Makes a directory with all the directories above it that are missing. The empty path is where
everything starts, so it needs none. -/
def makeDirectories (t : FileTree) (p : Path) : FileTree × Except Fault Unit :=
  if p.bytes = [] then (t, .ok ()) else t.makeAll (p :: p.parents)

/-- The files below the working directory with their contents, by their paths from there. -/
def workingFiles (t : FileTree) : List (Path × Bytes) :=
  (t.entries.filterMap fun (l, e) =>
      match e with
      | .file content =>
        if t.workingDirectory.isPrefixOf l then
          some ((⟨[Path.slash].intercalate (l.drop t.workingDirectory.length)⟩ : Path), content)
        else none
      | .directory | .special _ => none).mergeSort
    fun (p, _) (q, _) => p.bytes ≤ q.bytes

end FileTree

end BytePair
