import BytePair.Action

/-!
# Vocabularies in files

A vocabulary is written beside its place first and then moved there, so that its place never holds
a part of it. A part may stay beside the place.
-/

namespace BytePair.Vocabulary

variable {σ : Type}

/-- What the name of a draft has behind that of its vocabulary. -/
def draftEnding : Bytes := ".tmp"

/-- Where a vocabulary is written before it is moved to its place. -/
def draftPath (p : Path) : Path := p.withFileName (p.fileName?.getD [] ++ draftEnding)

/-- Writes the binary form into a file. -/
def save (v : Vocabulary) (p : Path) : Action σ Unit := do
  Action.create (draftPath p) v.toBytes
  Action.moveOrRemove (draftPath p) p
  Action.report (.saved p v.size v.rules.size)

/-- Reads the binary form from a file. -/
def load (p : Path) : Action σ Vocabulary := do
  let data ← Action.read p
  let v ← Action.ofExcept ((ofBytes data).mapError .corrupt)
  Action.report (.loaded p v.size v.rules.size)
  return v

end BytePair.Vocabulary
