/-!
# Training configuration
-/

namespace BytePair

/-- What a training run may be told. -/
structure Config where
  /-- Pairs that occur less often are not merged; 0 counts as 1. -/
  minFrequency : Nat := 2
  /-- No merge starts once the table has this many tokens, the unknown one included. -/
  vocabularySize : Nat := 4096
  /-- The longest token that a merge may make, in bytes. -/
  maxTokenLength : Option Nat := none
  /-- Whether a run may show its progress; this library shows none. -/
  showProgress : Bool := false
  /-- Whether pairs may be counted by several workers. The counts are the same. -/
  parallel : Bool := true
  deriving DecidableEq, Repr

end BytePair
