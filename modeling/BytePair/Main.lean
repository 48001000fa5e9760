import BytePair.Command.Build
import BytePair.Command.Probe

/-!
# The program

Runs the command that the program is called by: `bpe_main` probes a vocabulary, any other name
builds one. The files that the arguments name are read into a tree, the command runs on the tree,
and what it changed is written back.
-/

namespace BytePair.Program

/-- What the system says about a place, in the terms of a tree. -/
def faultOf : IO.Error → Fault
  | .permissionDenied .. => .permissionDenied
  | .noFileOrDirectory .. => .notFound
  | .hardwareFault .. => .inputOutput
  | .resourceExhausted .. => .noSpace
  | e => .other e.toString

/-- The tree in which something is refused at a location. -/
def refusing (t : FileTree) (l : Location) (access : Permission) (e : IO.Error) : FileTree :=
  { t with
    refuses := fun m other => if m = l ∧ other = access then faultOf e else t.refuses m other }

/-- The names of a location as a path from the root. -/
def pathOf (l : Location) : String := String.join (l.map fun name => "/" ++ Utf8.lossy name)

/-- The tree with what is at a place, down to the last file below it. -/
partial def addBelow (t : FileTree) (l : Location) (path : String) : IO FileTree := do
  let real := (← IO.currentDir) / path
  if ← real.isDir then
    let t := t.set l .directory
    match ← real.readDir.toBaseIO with
    | .ok found =>
      found.foldlM (fun t e => addBelow t (l ++ [Bytes.ofText e.fileName]) e.path.toString) t
    | .error e => return refusing t l .read e
  else if ← real.pathExists then
    match ← (IO.FS.readBinFile path).toBaseIO with
    | .ok content =>
      let isFile := (← real.metadata).type matches .file
      return t.set l (if isFile then .file content.data.toList else .special content.data.toList)
    | .error e => return refusing (t.set l (.file [])) l .read e
  else
    return t

/-- The tree with the directories that a path leads through, and everything at its end. -/
def addPath (t : FileTree) (p : Path) : IO FileTree := do
  let mut t := t
  let mut l := t.startOf p
  let mut walked := if p.isAbsolute then "" else "."
  for piece in p.steps.dropLast do
    l := FileTree.step l piece
    walked := walked ++ "/" ++ Utf8.lossy piece
    let real := (← IO.currentDir) / walked
    if (t.get? l).isNone then
      if ← real.isDir then t := t.set l .directory
      else if ← real.pathExists then t := t.set l (.file [])
  match p.steps.getLast? with
  | some piece => addBelow t (FileTree.step l piece) (walked ++ "/" ++ Utf8.lossy piece)
  | none => return t

/-- The tree of the files that a run may look at. -/
def snapshot (arguments : List String) : IO FileTree := do
  let here := ((← IO.currentDir).components).filter (· ≠ "")
  let paths := arguments.map fun text : String => (⟨text⟩ : Path)
  (paths ++ paths.map Vocabulary.draftPath).foldlM addPath
    (FileTree.empty (here.map Bytes.ofText))

/-- Writes what changed from one tree to the next. -/
def writeBack (before after : FileTree) : IO Unit := do
  for (l, e) in before.entries do
    if (after.get? l).isNone then
      if e = .directory then IO.FS.removeDir (pathOf l) else IO.FS.removeFile (pathOf l)
  for (l, e) in after.entries do
    if before.get? l ≠ some e then
      match e with
      | .file content =>
        IO.FS.writeBinFile (pathOf l ++ ".draft") ⟨content.toArray⟩
        IO.FS.rename (pathOf l ++ ".draft") (pathOf l)
      | .directory => IO.FS.createDirAll (pathOf l)
      | .special _ => pure ()

/-- Reads a stream to its end. -/
partial def readAll (input : IO.FS.Stream) (read : ByteArray) : IO ByteArray := do
  let more ← input.read 65536
  if more.isEmpty then return read else readAll input (read ++ more)

/-- Runs the program and answers its exit code. -/
def start (arguments : List String) : IO UInt32 := do
  let probing := (← IO.appPath).fileStem = some "bpe_main"
  let input ← if probing then readAll (← IO.getStdin) ByteArray.empty else pure ByteArray.empty
  let environment : Environment := {
    arguments := arguments.map Bytes.ofText
    parallelism := (← IO.getEnv Parallelism.variableName).map Bytes.ofText
    logLevel := ← IO.getEnv "RUST_LOG"
    input := input.data.toList }
  let before ← snapshot arguments
  let run := if probing then Probe.run environment before else Build.run environment before
  writeBack before run.files
  IO.eprint run.log
  IO.print run.output
  return UInt32.ofNat run.exitCode

end BytePair.Program

def main (arguments : List String) : IO UInt32 := BytePair.Program.start arguments
