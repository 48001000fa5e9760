import BytePair.Tally.Candidates
import BytePair.Tally.Census

/-!
# Tally of adjacent pairs

The census of the documents under training, kept current by the changes that merges report, with
the queue of the pairs to merge next.

* `Tally.ofSequences`: counts everything once.
* `Tally.apply`: takes over reported changes. They are netted per pair first, in a `Draft`, so
  their order does not matter.
* `Tally.pop`: the best pair that is accepted.
-/

namespace BytePair

/-- A census with the candidates for the next merge. The holders of a pair may include sequences
that no longer have it; none is missing. -/
structure Tally (N : Type) [Ord N] extends Census N where
  queue : Candidates N

namespace Tally

variable {N : Type} [Ord N] [Std.TransOrd N] [OfNat N 0] [LT N] [DecidableLT N] [DecidableEq N]
  [Add N]

/-- The tally of a census: every pair that occurs is a candidate. -/
def ofCensus (c : Census N) : Tally N where
  toCensus := c
  queue := Candidates.ofList ((c.counts.toList.map fun (p, n) => ⟨n, p⟩).filter (0 < ·.count))

def ofSequences [OfNat N 1] (parallel : Bool) (seqs : Array Sequence) : Tally N :=
  ofCensus (Census.ofSequences parallel seqs)

/-- What a look for the best pair finds. -/
structure Pick (N : Type) [Ord N] where
  best? : Option (Candidate N)
  /-- The pairs that were shown to the judge, in order. -/
  shown : List Pair
  /-- The tally after the look: candidates that were shown are no longer queued. -/
  rest : Tally N

/-- Takes the best accepted pair from the queue. A pair that is rejected is dropped and comes back
only when its count changes. -/
def pop (t : Tally N) (accept : Pair → Bool) : Pick N :=
  let offer := t.queue.next t.count accept
  ⟨offer.best?, offer.shown, { t with queue := offer.behind }⟩

/-- Changes on their way into a tally: what they add up to for each pair, and the holders after
them. A sequence that gains a pair holds it. -/
structure Draft (N : Type) where
  net : Std.ExtTreeMap Pair N
  holders : Std.ExtTreeMap Pair (Std.ExtTreeSet Nat)

/-- The draft with one more change, in the sequence at position `i`. -/
@[specialize]
def Draft.note (i : Nat) (d : Draft N) (c : Change N) : Draft N where
  net := Census.raise d.net c.pair c.delta
  holders := if 0 < c.delta then Census.addHolder d.holders c.pair i else d.holders

/-- The draft without changes. -/
def draft (t : Tally N) : Draft N := ⟨∅, t.holders⟩

/-- The pairs whose count moves, with their counts after the changes. -/
def moved (t : Tally N) (d : Draft N) : List (Candidate N) :=
  (d.net.toList.filter (·.2 ≠ 0)).map fun (p, delta) => ⟨t.count p + delta, p⟩

/-- Takes over the changes of a draft. A pair whose count moved is queued again with its new count,
or forgotten when the count is no longer positive. -/
@[specialize]
def settle (t : Tally N) (d : Draft N) : Tally N :=
  let moved := t.moved d
  { counts := moved.foldl
      (fun m c => if 0 < c.count then m.insert c.pair c.count else m.erase c.pair) t.counts
    holders := moved.foldl (fun m c => if 0 < c.count then m else m.erase c.pair) d.holders
    queue := t.queue.add (moved.filter (0 < ·.count)) }

/-- A change, with the position of the sequence that it comes from. -/
abbrev PlacedChange (N : Type) := Change N × Nat

/-- Takes over a list of changes, all at once. -/
def apply (t : Tally N) (changes : List (PlacedChange N)) : Tally N :=
  t.settle (changes.foldl (fun d (c, i) => d.note i c) t.draft)

end Tally

end BytePair
