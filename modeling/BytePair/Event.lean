import BytePair.Error
import BytePair.Text.Split
import BytePair.Text.Terminal
import BytePair.Training

/-!
# Events

What operations report while they run. A log is the list of events in the order in which they
happened; `logText` writes it down for a reader who wants to hear of a certain level and above.
-/

namespace BytePair

/-- How much an event matters. -/
inductive Level where
  | error | warn | info | debug
  deriving DecidableEq, Repr

def Level.name : Level → String
  | error => "ERROR"
  | warn => "WARN"
  | info => "INFO"
  | debug => "DEBUG"

/-- A lower number matters more. -/
def Level.rank : Level → Nat
  | error => 1
  | warn => 2
  | info => 3
  | debug => 4

/-- Something that happened. -/
inductive Event where
  | emptyDocument (path : Path)
  /-- A file became a document; `known` is the number of tokens since. -/
  | ingested (path : Path) (bytes known : Nat)
  | trainingStarted (documents symbols pairs atoms : Nat)
  /-- The `rank`-th rule of the vocabulary was recorded. -/
  | merged (rank : Nat) (merge : Merge)
  | trainingStopped (reason : StopReason) (tokens rules : Nat)
  | saved (path : Path) (tokens rules : Nat)
  | loaded (path : Path) (tokens rules : Nat)
  | released
  /-- A vocabulary was built from files. -/
  | built (files tokens : Nat)
  /-- A vocabulary is about to be probed. -/
  | opened (path : Path) (tokens : Nat)
  | failed (error : Error)
  deriving DecidableEq, Repr

namespace Event

def level : Event → Level
  | emptyDocument _ => .warn
  | merged _ _ => .debug
  | failed _ => .error
  | _ => .info

def message : Event → String
  | emptyDocument path => s!"{path} is empty, nothing to ingest"
  | ingested path bytes known => s!"ingested {path} ({bytes} bytes, {known} symbols known)"
  | trainingStarted documents symbols pairs atoms =>
    s!"training on {documents} documents ({symbols} symbols, {pairs} distinct pairs, " ++
      s!"{atoms} atoms)"
  | merged rank ⟨⟨⟨left, right⟩, new⟩, count⟩ =>
    s!"merge #{rank}: ({left}, {right}) x{count} -> {new}"
  | trainingStopped reason tokens rules =>
    s!"training stopped ({reason.message}): {tokens} tokens, {rules} merge rules"
  | saved path tokens rules => s!"saved {tokens} tokens and {rules} merge rules to {path}"
  | loaded path tokens rules => s!"loaded {tokens} tokens and {rules} merge rules from {path}"
  | released => "releasing vocabulary"
  | built files tokens => s!"{files} files, {tokens} tokens"
  | opened path tokens => s!"{path}: {tokens} tokens"
  | failed error => error.message

/-- The event with its level in front. -/
def text (e : Event) : String := e.level.name ++ " " ++ e.message

/-- The event as a record of a log. The lines after the first one are indented. -/
def record (e : Event) : List Char :=
  "\n    ".toList.intercalate (splitOn '\n' e.text.toList) ++ ['\n']

end Event

/-- The text of a log, which no terminal reads. Only events of the rank `threshold` or a lower one
are written. -/
def logText (threshold : Nat) (log : List Event) : List Char :=
  (log.filter (·.level.rank ≤ threshold)).flatMap fun e => Terminal.plain e.record

/-- What a run from `start` to its end reports. -/
def Training.events (start : Training) (o : Training.Outcome) : List Event :=
  let before := start.corpus
  .trainingStarted before.size before.symbolCount start.tally.size (before.vocabulary.size - 1) ::
    ((o.merges.zipIdx (before.vocabulary.rules.size + 1)).map fun (m, rank) => .merged rank m) ++
    [.trainingStopped o.reason o.corpus.vocabulary.size o.corpus.vocabulary.rules.size]

end BytePair
