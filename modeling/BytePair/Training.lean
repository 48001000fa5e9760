import BytePair.Corpus
import BytePair.Tally
import BytePair.Training.Config

/-!
# Training

A run merges the most frequent pair of the corpus again and again. The pair counts are kept by a
tally; a round goes only through the documents that the tally names.

* `Training.choose`, `Training.perform`: a round, which begins with a pair or ends the run.
* `Corpus.train`: rounds until there is a reason to stop.
-/

namespace BytePair

/-- Why a training run ended. -/
inductive StopReason where
  /-- The table has the size that was asked for. -/
  | sizeReached
  /-- The best pair occurs too seldom. -/
  | belowMinFrequency
  /-- There is no pair whose merge is short enough. -/
  | noPairsLeft
  deriving DecidableEq, Repr

def StopReason.message : StopReason → String
  | sizeReached => "vocabulary size reached"
  | belowMinFrequency => "best pair below minimum frequency"
  | noPairsLeft => "no mergeable pairs left"

/-- A merge of a run: the rule, and how often its pair occurred. -/
structure Merge where
  rule : Rule
  count : Int
  deriving DecidableEq, Repr

/-- A corpus under training, with its tally. -/
structure Training where
  corpus : Corpus
  tally : Tally Int

namespace Training

/-- A run before its first round. -/
def start (config : Config) (c : Corpus) : Training :=
  ⟨c, Tally.ofSequences config.parallel c.sequences⟩

/-- Whether the merge of a pair is a token of the allowed length. -/
def fits (config : Config) (v : Vocabulary) (p : Pair) : Bool :=
  match config.maxTokenLength with
  | some limit => v.length p.left + v.length p.right ≤ limit
  | none => true

/-- Merges in the sequences at the given positions, and notes the changes. A sequence is taken out
of the array while it changes, so that nobody else holds on to it. -/
def mergeAt (rule : Rule) (positions : List Nat) (draft : Tally.Draft Int) (seqs : Array Sequence) :
    Tally.Draft Int × Array Sequence :=
  positions.foldl
    (fun (draft, seqs) i =>
      let taken := seqs.getD i []
      let others := seqs.setIfInBounds i []
      let (s, draft) := Sequence.mergeFold rule.pair rule.new (Tally.Draft.note i) draft taken
      (draft, others.setIfInBounds i s))
    (draft, seqs)

/-- The pair that the next round merges, with the tally after the look for it; or the reason to
stop. -/
def choose (config : Config) (t : Training) : Except StopReason (Candidate Int × Tally Int) :=
  if config.vocabularySize ≤ t.corpus.vocabulary.size then .error .sizeReached
  else
    let pick := t.tally.pop (fits config t.corpus.vocabulary)
    match pick.best? with
    | none => .error .noPairsLeft
    | some best =>
      if best.count < max config.minFrequency 1 then .error .belowMinFrequency
      else .ok (best, pick.rest)

/-- Records a pair as the next rule and merges it in every document that has it. -/
def perform (best : Candidate Int) (tally : Tally Int) (c : Corpus) : Training × Merge :=
  let (vocabulary, rule) := c.vocabulary.addRule best.pair
  let (draft, sequences) :=
    mergeAt rule (tally.sequencesWith best.pair) tally.draft c.sequences
  (⟨⟨vocabulary, sequences⟩, tally.settle draft⟩, ⟨rule, best.count⟩)

/-- The end of a run: the corpus, the merges in order, and why there are no more. -/
structure Outcome where
  corpus : Corpus
  merges : List Merge
  reason : StopReason

/-- At most `rounds` rounds, after the merges done, which are given newest first. -/
def rounds (config : Config) : Nat → Training → List Merge → Outcome
  | 0, t, done => ⟨t.corpus, done.reverse, .noPairsLeft⟩
  | n + 1, t, done =>
    match choose config t with
    | .error reason => ⟨t.corpus, done.reverse, reason⟩
    | .ok (best, tally) =>
      let (t, merge) := perform best tally t.corpus
      rounds config n t (merge :: done)

end Training

/-- Rounds until there is a reason to stop. A round shortens the documents, so there are fewer
rounds than the corpus has symbols. -/
def Training.run (config : Config) (t : Training) : Training.Outcome :=
  rounds config (t.corpus.symbolCount + 1) t []

/-- Trains until there is a reason to stop. -/
def Corpus.train (config : Config) (c : Corpus) : Training.Outcome :=
  (Training.start config c).run config

end BytePair
