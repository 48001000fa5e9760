import BytePair.Command.Run
import BytePair.Files.Walk
import BytePair.Vocabulary.Export

/-!
# The build command

Trains a vocabulary on files and on all files of directories, and saves it; the exports and the
summary that were asked for follow.

* `Build.Request.ofArguments`: what the arguments ask for.
* `Build.perform`: the run. Nothing is written before all inputs are read.
-/

namespace BytePair.Build

open Command (Unusable textOf)

/-- The arguments that were read so far. -/
structure Arguments where
  /-- The arguments that are no options, the last one first. -/
  paths : List Path := []
  config? : Option Path := none
  jsonDirectory? : Option Path := none
  graph? : Option Path := none
  summaryLevel? : Option Nat := none

/-- How an option of this name takes over its value. A later value replaces an earlier one. -/
def option? : String → Option (String → Arguments → Except Misconfiguration Arguments)
  | "--config" => some fun value a => .ok { a with config? := some ⟨value⟩ }
  | "--export" => some fun value a => .ok { a with jsonDirectory? := some ⟨value⟩ }
  | "--dot" => some fun value a => .ok { a with graph? := some ⟨value⟩ }
  | "--summary" => some fun value a =>
    match Command.readLevel? value with
    | some level => .ok { a with summaryLevel? := some level }
    | none => .error (.invalidLevel value)
  | _ => none

/-- Reads arguments from left to right. An option takes the argument behind it, whatever it is. -/
def Arguments.read (a : Arguments) : List Bytes → Except Unusable Arguments
  | [] => .ok a
  | argument :: rest =>
    match textOf argument with
    | .error unusable => .error unusable
    | .ok name =>
      match option? name with
      | none => Arguments.read { a with paths := ⟨name⟩ :: a.paths } rest
      | some takeOver =>
        match rest with
        | [] => .error (.misconfigured (.missingValue .build name))
        | value :: rest =>
          match textOf value with
          | .error unusable => .error unusable
          | .ok value =>
            match takeOver value a with
            | .ok a => Arguments.read a rest
            | .error problem => .error (.misconfigured problem)

/-- What a run is asked for. -/
structure Request where
  output : Path
  inputs : List Path
  config? : Option Path
  jsonDirectory? : Option Path
  graph? : Option Path
  summaryLevel? : Option Nat

/-- The first path is the output and all others are inputs, of which there has to be one. -/
def Request.ofArguments (arguments : List Bytes) : Except Unusable Request := do
  let a ← Arguments.read {} arguments
  match a.paths.reverse with
  | output :: input :: inputs =>
    return ⟨output, input :: inputs, a.config?, a.jsonDirectory?, a.graph?, a.summaryLevel?⟩
  | _ => throw (.misconfigured (.usage .build))

/-- Opens the session that a request asks for. -/
def openSession (env : Environment) (request : Request) : Action Session Unit := do
  let config ← match request.config? with
    | some p => Config.load p
    | none => pure {}
  let parallel := config.parallel && Parallelism.allowedBy env.parallelism
  Action.put (Session.fresh { config with parallel := parallel })

/-- Writes the exports and prints the summary. -/
def writeExtras (request : Request) : Action Session Unit := do
  if let some dir := request.jsonDirectory? then
    (← Action.ofExcept (← Action.get).vocabulary).exportJson dir
  if let some p := request.graph? then
    (← Action.ofExcept (← Action.get).vocabulary).exportGraph p
  if let some level := request.summaryLevel? then
    Session.printSummary level

/-- The files that a request names or means. -/
def Request.inputFiles (request : Request) (files : FileTree) : Except Error (List Path) :=
  (request.inputs.mapM files.collect).map List.flatten

/-- Builds the vocabulary that a request asks for. -/
def perform (env : Environment) (request : Request) : Action Session Nat := do
  openSession env request
  let inputs ← Action.ofExcept (request.inputFiles (← Action.getFiles))
  inputs.forM Session.ingest
  let size ← Session.train
  Session.save request.output
  Action.report (.built inputs.length size)
  writeExtras request
  return 0

def run (env : Environment) (files : FileTree) : Run :=
  Command.runFor env files (Request.ofArguments env.arguments) (perform env)

end BytePair.Build
