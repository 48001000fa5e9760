import BytePair.Command.Run
import BytePair.Text.Lines

/-!
# The probe command

Loads a saved vocabulary and prints the tokens of every line of its input.
-/

namespace BytePair.Probe

open Command (Unusable textOf)

/-- What a run is asked for. -/
structure Request where
  vocabulary : Path
  summaryLevel? : Option Nat
  deriving DecidableEq, Repr

/-- Reads what follows the path: nothing, or the option for a summary with its level. -/
def readSummary? : List Bytes → Except Unusable (Option Nat)
  | [] => .ok none
  | [option] => do
    discard (textOf option)
    throw (.misconfigured (.usage .probe))
  | option :: level :: more => do
    let option ← textOf option
    let level ← textOf level
    if option ≠ "--summary" then throw (.misconfigured (.usage .probe))
    match Command.readLevel? level with
    | none => throw (.misconfigured (.invalidLevel level))
    | some level =>
      match more with
      | [] => return some level
      | argument :: _ =>
        throw (.misconfigured (.unexpectedArgument .probe (← textOf argument)))

/-- Reads the arguments: a path, and then perhaps the option for a summary. -/
def Request.ofArguments : List Bytes → Except Unusable Request
  | [] => .error (.misconfigured (.usage .probe))
  | p :: more => return ⟨⟨← textOf p⟩, ← readSummary? more⟩

/-- The lines of an input. -/
def inputLines (input : Bytes) : List Bytes := linesOf 0x0A 0x0D input

/-- Prints the tokens of lines, and answers the highest status of all lines. -/
def probeLines (status : Nat) : List Bytes → Action Session Nat
  | [] => pure status
  | line :: rest =>
    match Utf8.decode? line with
    | none => Action.fail (.file ⟨"<stdin>"⟩ .notUtf8)
    | some text => do probeLines (max status (← Session.probe text)) rest

/-- Probes the vocabulary that a request names. -/
def perform (env : Environment) (request : Request) : Action Session Nat := do
  let size ← Session.load request.vocabulary
  Action.report (.opened request.vocabulary size)
  if let some level := request.summaryLevel? then
    Session.printSummary level
  let status ← probeLines 0 (inputLines env.input)
  Session.free
  return if status = 0 then 0 else 1

def run (env : Environment) (files : FileTree) : Run :=
  Command.runFor env files (Request.ofArguments env.arguments) (perform env)

end BytePair.Probe
