import BytePair.Session
import BytePair.Text.Glyph

/-!
# Reports of a session

* `Session.tokenizeReport`: the tokens of a text, as ids and as texts.
* `Session.summary`: the stage of a session, its rules and its table.
* `Session.probe`, `Session.printSummary`: the same, printed.
-/

namespace BytePair.Session

/-- The tokens of a text in three lines: the ids, the texts of the tokens, and the last token. -/
def tokenizeReport (s : Session) (text : String) : Except Error String := do
  let ids ← s.tokenize text
  let last := match ids.getLast? with
    | some id => s!"last: {s.text id} (id: {id})\n"
    | none => "last: none\n"
  return s!"ids: {Text.bracketed (ids.map toString)}\n" ++
    s!"tokens: {Text.quoteList (ids.map s.text)}\n" ++ last

/-- Prints the tokens of a text and answers 0; if there are none to print, reports why and
answers 1. -/
def probe (text : String) : Action Session Nat := do
  match (← Action.get).tokenizeReport text with
  | .ok report =>
    Action.print report
    return 0
  | .error e =>
    Action.report (.failed e)
    return 1

/-- A number on the right of six columns. -/
def sixColumns (n : Nat) : String :=
  let digits := (toString n).toList
  String.ofList (List.replicate (6 - digits.length) ' ' ++ digits)

/-- A token in a summary. -/
def summaryName (v : Vocabulary) (id : TokenId) : String :=
  match v.bytes? id with
  | some bs => if id = unknown then unknownMarker else Text.visible bs
  | none => unknownMarker

def ruleLine (v : Vocabulary) (rank : Nat) (r : Rule) : String :=
  s!"  {sixColumns rank}: {summaryName v r.pair.left} + {summaryName v r.pair.right} -> " ++
    s!"{summaryName v r.new} ({r.new})\n"

def tokenLine (v : Vocabulary) (id : TokenId) : String :=
  s!"  {sixColumns id}: {summaryName v id}\n"

/-- The size of a vocabulary; from level 1 on also its rules, and from level 2 on its table. -/
def vocabularySummary (v : Vocabulary) (level : Nat) : String :=
  s!"vocabulary: {v.size} tokens, {v.rules.size} merge rules\n" ++
    (if 1 ≤ level then
      "merges:\n" ++ String.join (v.rules.toList.zipIdx.map fun (r, rank) => ruleLine v rank r)
    else "") ++
    (if 2 ≤ level then "tokens:\n" ++ String.join ((List.range v.size).map (tokenLine v))
    else "")

def corpusSummary (c : Corpus) : String :=
  s!"corpus: {c.size} documents, {c.symbolCount} symbols, {c.vocabulary.size - 1} atoms " ++
    "(not trained)\n"

/-- What the session holds. -/
def summary (s : Session) (level : Nat) : String :=
  match s.stage with
  | .released => "no vocabulary loaded\n"
  | .collecting c => corpusSummary c ++ vocabularySummary c.vocabulary level
  | .ready v => vocabularySummary v level

def printSummary (level : Nat) : Action Session Unit := do
  Action.print ((← Action.get).summary level)

end BytePair.Session
