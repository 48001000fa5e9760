import BytePair.Sequence
import BytePair.Text.Utf8

/-!
# Vocabularies

The table of tokens, both ways, and the merge rules in the order in which they were recorded.

* `Vocabulary.insert`: the token of a byte string, appended on first sight.
* `Vocabulary.addRule`: records a merge; the token of the two operands together is found or
  appended.
* `Vocabulary.bytes?`, `Vocabulary.id?`: the table and its inverse. The unknown token is in the
  table only, since its bytes may be those of a real token too.
-/

namespace BytePair

/-- A recorded merge: the pair becomes the token `new`. -/
structure Rule where
  pair : Pair
  new : TokenId
  deriving DecidableEq, Repr

/-- A table of tokens with its inverse and the recorded merges. Tokens are only ever appended, so
an id never changes its meaning. -/
structure Vocabulary where
  tokens : Array Bytes
  ids : Std.ExtTreeMap Bytes TokenId
  rules : Array Rule
  deriving BEq

namespace Vocabulary

/-- The vocabulary of the unknown token alone. -/
def fresh : Vocabulary := ⟨#[Bytes.ofText unknownMarker], ∅, #[]⟩

/-- The number of tokens, the unknown one included. -/
def size (v : Vocabulary) : Nat := v.tokens.size

/-- Whether there is no token but the unknown one. -/
def isEmpty (v : Vocabulary) : Bool := v.size ≤ 1

/-- The token with these bytes. It is never the unknown one. -/
def id? (v : Vocabulary) (bs : Bytes) : Option TokenId := v.ids[bs]?

/-- The token of a single byte. -/
def atom? (v : Vocabulary) (b : UInt8) : Option TokenId := v.id? [b]

/-- The bytes of a token. -/
def bytes? (v : Vocabulary) (id : TokenId) : Option Bytes := v.tokens[id]?

/-- The length of a token; a token outside the table has none. -/
def length (v : Vocabulary) (id : TokenId) : Nat := ((v.bytes? id).getD []).length

/-- The text of a token. A token outside the table reads as the unknown one. -/
def text (v : Vocabulary) (id : TokenId) : String :=
  match v.bytes? id with
  | some bs => Utf8.lossy bs
  | none => unknownMarker

/-- The token with these bytes, which is appended to the table if it is new. -/
def insert (v : Vocabulary) (bs : Bytes) : Vocabulary × TokenId :=
  match v.id? bs with
  | some id => (v, id)
  | none =>
    let id := v.size
    ({ v with tokens := v.tokens.push bs, ids := v.ids.insert bs id }, id)

theorem bytes?_insert (v : Vocabulary) (bs : Bytes) (id : TokenId) :
    (v.insert bs).1.bytes? id =
      if v.id? bs = none ∧ id = v.size then some bs else v.bytes? id := by
  simp only [insert, bytes?, size]
  cases h : v.id? bs <;> simp [Array.getElem?_push]

theorem id?_insert (v : Vocabulary) (bs cs : Bytes) :
    (v.insert bs).1.id? cs = if cs = bs then some (v.insert bs).2 else v.id? cs := by
  simp only [insert]
  cases h : v.id? bs with
  | none => simp only [id?, Std.ExtTreeMap.getElem?_insert]; grind
  | some id => grind

/-- The bytes of the two tokens of a pair together. A token outside the table adds nothing. -/
def pairBytes (v : Vocabulary) (p : Pair) : Bytes :=
  (v.bytes? p.left).getD [] ++ (v.bytes? p.right).getD []

/-- Records the merge of a pair. If the bytes of the pair are a token already, by another way to
divide them, the rule leads to that token. -/
def addRule (v : Vocabulary) (p : Pair) : Vocabulary × Rule :=
  let (v, new) := v.insert (v.pairBytes p)
  let rule := ⟨p, new⟩
  ({ v with rules := v.rules.push rule }, rule)

/-- The vocabulary with this table and these rules. The inverse of the table leaves out the first
entry. -/
def ofTable (tokens : Array Bytes) (rules : Array Rule) : Vocabulary where
  tokens := tokens
  ids := (tokens.toList.zipIdx.drop 1).foldl (fun ids (bs, id) => ids.insert bs id) ∅
  rules := rules

/-- The tokens of a document, byte by byte; bytes that the vocabulary did not know are appended. -/
def atomize (v : Vocabulary) (document : Bytes) : Vocabulary × Sequence :=
  let (v, newestFirst) := document.foldl
    (fun (v, ids) b =>
      let (v, id) := v.insert [b]
      (v, id :: ids))
    (v, [])
  (v, newestFirst.reverse)

/-- The tokens of a text, byte by byte, where bytes without a token are unknown. -/
def atoms (v : Vocabulary) (text : Bytes) : Sequence :=
  text.map fun b => (v.atom? b).getD unknown

end Vocabulary

end BytePair
