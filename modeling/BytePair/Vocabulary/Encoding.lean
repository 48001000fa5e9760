import BytePair.Vocabulary

/-!
# Encoding and decoding

A text is encoded by replaying the merge rules, in recorded order, over its bytes.

* `compact`: one rule over a list of tokens, which changes in place.
* `Vocabulary.encode`, `Vocabulary.decode`.
* `Vocabulary.text?`, `Vocabulary.named?`: the text of a single token, and the token of a text.
-/

namespace BytePair

/-- Merges from position `read` on and writes what it leaves from position `write` on. What is
written never reaches what is still to be read, as long as `write` is not above `read`. -/
def compactFrom (rule : Rule) (ids : Array TokenId) (read write : Nat) : Array TokenId :=
  if h : read < ids.size then
    if ids[read] = rule.pair.left ∧ ids[read + 1]? = some rule.pair.right then
      compactFrom rule (ids.setIfInBounds write rule.new) (read + 2) (write + 1)
    else compactFrom rule (ids.setIfInBounds write ids[read]) (read + 1) (write + 1)
  else ids.shrink write
termination_by ids.size - read
decreasing_by all_goals simp only [Array.size_setIfInBounds]; omega

/-- One pass of a rule from left to right, in place. -/
def compact (rule : Rule) (ids : Array TokenId) : Array TokenId := compactFrom rule ids 0 0

namespace Vocabulary

/-- Replays rules in order. Fewer than two tokens leave nothing to merge. -/
def replay : List Rule → Array TokenId → Array TokenId
  | [], ids => ids
  | rule :: later, ids => if ids.size < 2 then ids else replay later (compact rule ids)

/-- The tokens of a text. -/
def encode (v : Vocabulary) (text : Bytes) : Sequence :=
  (replay v.rules.toList (v.atoms text).toArray).toList

/-- The bytes of tokens. The unknown token and tokens outside the table have none. -/
def decode (v : Vocabulary) (ids : Sequence) : Bytes :=
  ids.flatMap fun id => if id = unknown then [] else (v.bytes? id).getD []

/-- The text of a token, if it is in the table. -/
def text? (v : Vocabulary) (id : TokenId) : Option String := (v.bytes? id).map Utf8.lossy

/-- The token that has the bytes of a text. -/
def named? (v : Vocabulary) (text : String) : Option TokenId := v.id? (Bytes.ofText text)

end Vocabulary

end BytePair
