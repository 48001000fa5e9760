import BytePair.Training

/-!
# Training by counting again

The rounds of training without a tally: every round counts all pairs of all documents and merges
in all of them. This is what the rounds of `Corpus.train` have to agree with.
-/

namespace BytePair.Naive

/-- The pairs of all documents, with repetitions. -/
def allPairs (seqs : Array Sequence) : List Pair := seqs.toList.flatMap adjacentPairs

/-- How often the pair stands in the documents. -/
def count (seqs : Array Sequence) (p : Pair) : Int := (allPairs seqs).count p

/-- The candidate that is offered first. -/
def best? : List (Candidate Int) → Option (Candidate Int)
  | [] => none
  | c :: cs =>
    match best? cs with
    | none => some c
    | some d => some (if c.precedes d then c else d)

/-- The pairs that may be merged, with their counts. -/
def candidates (config : Config) (c : Corpus) : List (Candidate Int) :=
  ((allPairs c.sequences).filter (Training.fits config c.vocabulary)).map fun p =>
    ⟨count c.sequences p, p⟩

/-- One round. -/
def advance (config : Config) (c : Corpus) : Except StopReason (Corpus × Merge) :=
  if config.vocabularySize ≤ c.vocabulary.size then .error .sizeReached
  else
    match best? (candidates config c) with
    | none => .error .noPairsLeft
    | some best =>
      if best.count < max config.minFrequency 1 then .error .belowMinFrequency
      else
        let (vocabulary, rule) := c.vocabulary.addRule best.pair
        .ok (⟨vocabulary, c.sequences.map (Sequence.replace best.pair rule.new)⟩,
          ⟨rule, best.count⟩)

/-- At most `n` rounds, after the merges done, which are given newest first. -/
def rounds (config : Config) : Nat → Corpus → List Merge → Training.Outcome
  | 0, c, done => ⟨c, done.reverse, .noPairsLeft⟩
  | n + 1, c, done =>
    match advance config c with
    | .error reason => ⟨c, done.reverse, reason⟩
    | .ok (c, merge) => rounds config n c (merge :: done)

/-- Trains until there is a reason to stop. -/
def train (config : Config) (c : Corpus) : Training.Outcome :=
  rounds config (c.symbolCount + 1) c []

end BytePair.Naive
