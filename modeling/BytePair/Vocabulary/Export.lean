import BytePair.Action
import BytePair.Json.Printer
import BytePair.Text.Glyph

/-!
# Exports for inspection

* `Vocabulary.tableDocument`, `Vocabulary.rulesDocument`: the tokens with their ids, and the rules,
  as JSON.
* `Vocabulary.graph`: the tokens as the nodes of a Graphviz graph, with edges from every merged
  token to its operands.

Tokens are shown by the glyphs of their bytes. The unknown token stands apart from the others,
since one of them may have its text.
-/

namespace BytePair.Vocabulary

/-- A token in an export: its glyphs, or the text of the unknown token. -/
def exportName (v : Vocabulary) (id : TokenId) : String :=
  match v.bytes? id with
  | some bs => if id = unknown then v.text id else Text.visible bs
  | none => v.text id

/-- The ids in the order of the table, without the unknown token. -/
def knownIds (v : Vocabulary) : List TokenId := (List.range v.size).drop 1

/-- The names of the tokens with their ids, in the order of the names. -/
def namedIds (v : Vocabulary) : Std.ExtTreeMap String TokenId :=
  v.knownIds.foldl (fun named id => named.insert (v.exportName id) id) ∅

/-- The tokens with their ids. -/
def tableDocument (v : Vocabulary) : Json.Document :=
  .object
    [("unk", .object [("id", .number unknown), ("token", .string unknownMarker)]),
      ("vocab", .object (v.namedIds.toList.map fun (name, id) => (name, .number id)))]

/-- The operands of the rules, in recorded order. -/
def rulesDocument (v : Vocabulary) : Json.Document :=
  .object
    [("merges", .array (v.rules.toList.map fun r =>
      .array [.string (v.exportName r.pair.left), .string (v.exportName r.pair.right)]))]

/-- The files of a JSON export, which are written into one directory. -/
def jsonFiles (v : Vocabulary) : List (Bytes × Json.Document) :=
  [("vocab.json", v.tableDocument), ("merges.json", v.rulesDocument)]

/-- Writes a JSON document into a file. The writer of JSON reports a shortage by itself, unless it
had handed over everything by then. -/
def writeJson {σ : Type} (p : Path) (document : Json.Document) : Action σ Unit :=
  Action.createOr (fun shortage => if shortage.late then .file p shortage.fault
    else .json shortage.fault) p (Bytes.ofText document.pretty)

/-- Writes the JSON export into a directory, which is made if it is missing. -/
def exportJson {σ : Type} (v : Vocabulary) (dir : Path) : Action σ Unit := do
  Action.makeDirectories dir
  v.jsonFiles.forM fun (name, document) => writeJson (dir.join name) document

/-- A character in the label of a node, which stands between quotes. -/
def labelChar (c : Char) : String :=
  if c = '\\' then "\\\\" else if c = '"' then "\\\"" else c.toString

/-- The glyphs of a token as the label of a node. -/
def label (bs : Bytes) : String := String.join ((bs.map Text.glyph).map labelChar)

def nodeLine (v : Vocabulary) (id : TokenId) : String :=
  let shown := label ((v.bytes? id).getD [])
  s!"    {id} [label=\"{shown}\"];\n"

def edgeLines (r : Rule) : String :=
  s!"    {r.new} -> {r.pair.left};\n    {r.new} -> {r.pair.right};\n"

/-- The graph of the merges. -/
def graph (v : Vocabulary) : String :=
  "digraph G \x7b\n" ++ String.join (v.knownIds.map v.nodeLine) ++
    String.join (v.rules.toList.map edgeLines) ++ "\x7d\n"

/-- Writes the graph into a file. -/
def exportGraph {σ : Type} (v : Vocabulary) (p : Path) : Action σ Unit :=
  Action.create p (Bytes.ofText v.graph)

end BytePair.Vocabulary
