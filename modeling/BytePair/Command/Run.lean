import BytePair.Parallelism
import BytePair.Session.Report
import BytePair.Text.Blank
import BytePair.Text.Decimal
import BytePair.Text.Lines

/-!
# Runs of a command

What both command lines share: the environment that a command is started in, how it reads a text or
a number among its arguments, and what its run leaves.
-/

namespace BytePair

/-- What a command is given from outside. -/
structure Environment where
  /-- The arguments behind the name of the program. The system takes any bytes without a zero. -/
  arguments : List Bytes
  /-- The value of the parallelism switch. -/
  parallelism : Option Bytes := none
  /-- The log level that is asked for. -/
  logLevel : Option String := none
  /-- The text to read. -/
  input : Bytes := []

/-- What a run leaves. -/
structure Run where
  exitCode : Nat
  output : String
  /-- What the level lets through of the log. -/
  log : String
  files : FileTree

/-- The lines of the log. -/
def Run.logLines (r : Run) : List String := (linesOf '\n' '\r' r.log.toList).map String.ofList

namespace Command

/-- The highest rank of the events that are written for a level, `info` if none is asked for.
White space around a level and the case of its letters do not matter. A level that is empty hides
all but errors; any other word hides everything, since it only asks for a part of a program by
name. -/
def logThreshold : Option String → Nat
  | none => Level.info.rank
  | some level =>
    match String.ofList ((Text.trimBlank level.toList).map Char.toLower) with
    | "" => Level.error.rank
    | "error" => Level.error.rank
    | "warn" => Level.warn.rank
    | "info" => Level.info.rank
    | "debug" => Level.debug.rank
    | "trace" => Level.debug.rank
    | _ => 0

/-- Reads a number below `2 ^ 64` in decimal digits, which may have a plus sign in front. -/
def readLevel? (text : String) : Option Nat :=
  let digits := match text.toList with
    | '+' :: digits => digits
    | digits => digits
  if digits ≠ [] ∧ digits.all Char.isDigit then
    Decimal.below? UInt64.size (digits.map fun d => d.toNat - '0'.toNat)
  else none

/-- Why arguments cannot be used. -/
inductive Unusable where
  /-- One that was come to is no text. -/
  | notText
  | misconfigured (problem : Misconfiguration)
  deriving DecidableEq, Repr

/-- The text of an argument. -/
def textOf (argument : Bytes) : Except Unusable String :=
  match Utf8.decode? argument with
  | some text => .ok text
  | none => .error .notText

/-- Runs an action that answers an exit code. An error is reported and makes it 1. -/
def run (env : Environment) (files : FileTree) (x : Action Session Nat) : Run :=
  let o := x (Session.fresh {}) files
  let (exitCode, failures) := match o.result with
    | .ok code => (code, [])
    | .error e => (1, [Event.failed e])
  let log := logText (logThreshold env.logLevel) (o.log ++ failures)
  ⟨exitCode, String.join o.output, String.ofList log, o.files⟩

/-- Runs what some arguments ask for. At an argument that is no text the program is broken off, with
an exit code of its own; what the language says about it is no part of the log. -/
def runFor {ρ : Type} (env : Environment) (files : FileTree) (request : Except Unusable ρ)
    (perform : ρ → Action Session Nat) : Run :=
  match request with
  | .ok request => run env files (perform request)
  | .error (.misconfigured problem) => run env files (Action.fail (.misconfigured problem))
  | .error .notText => ⟨101, "", "", files⟩

end Command

end BytePair
