import BytePair.Sequence
import Std.Data.ExtTreeSet

/-!
# Census of adjacent pairs

How often every pair stands in a list of sequences, and in which of them. A pair never spans two
sequences.

* `Census.ofSequence`, `Census.union`: the census of one sequence, and of two groups together.
* `Census.oneByOne`, `Census.byHalves`: two ways to go through all sequences, the second one as
  several workers would.

The numbers to count in are a parameter. Training counts in `Int`: what it counts are places in its
own documents, and no memory holds so many that their number would not fit a machine word. A tally
that takes changes from elsewhere counts in `Int64`, where a sum that leaves the range wraps around,
as in an optimised build; a build with overflow checks stops there instead.
-/

namespace BytePair

/-- The pairs of a group of sequences: their counts, and the positions of the sequences that hold
them. -/
structure Census (N : Type) where
  counts : Std.ExtTreeMap Pair N
  holders : Std.ExtTreeMap Pair (Std.ExtTreeSet Nat)

namespace Census

variable {N : Type} [Add N] [OfNat N 0]

def empty : Census N := ⟨∅, ∅⟩

/-- The counts with `n` more of the pair. -/
@[specialize]
def raise (counts : Std.ExtTreeMap Pair N) (p : Pair) (n : N) : Std.ExtTreeMap Pair N :=
  counts.alter p fun count? => some (count?.getD 0 + n)

theorem getD_raise (counts : Std.ExtTreeMap Pair N) (p q : Pair) (n : N) :
    (raise counts p n).getD q 0 = if p = q then counts.getD q 0 + n else counts.getD q 0 := by
  simp only [raise, Std.ExtTreeMap.getD_eq_getD_getElem?, Std.ExtTreeMap.getElem?_alter]
  by_cases h : p = q
  · subst h
    simp
  · simp [h]

/-- The holders with the sequence at position `i` among those of the pair. -/
def addHolder (holders : Std.ExtTreeMap Pair (Std.ExtTreeSet Nat)) (p : Pair) (i : Nat) :
    Std.ExtTreeMap Pair (Std.ExtTreeSet Nat) :=
  holders.alter p fun held? => some ((held?.getD ∅).insert i)

/-- The census of two groups: counts add up, holders are united. -/
@[specialize]
def union (c d : Census N) : Census N where
  counts := d.counts.foldl raise c.counts
  holders := d.holders.foldl (fun m p held => held.foldl (fun m i => addHolder m p i) m) c.holders

/-- How often the pair stands in the sequences. -/
def count (c : Census N) (p : Pair) : N := c.counts.getD p 0

/-- The number of distinct pairs. -/
def size (c : Census N) : Nat := c.counts.size

def isEmpty (c : Census N) : Bool := c.counts.isEmpty

/-- The positions of the sequences that may hold the pair, in ascending order. -/
def sequencesWith (c : Census N) (p : Pair) : List Nat := (c.holders.getD p ∅).toList

/-! ## Counting -/

variable [OfNat N 1]

/-- One more occurrence of the pair, in the sequence at position `i`. -/
@[specialize]
def record (i : Nat) (c : Census N) (p : Pair) : Census N :=
  ⟨raise c.counts p 1, addHolder c.holders p i⟩

/-- The census of one sequence, which stands at position `i`. -/
@[specialize]
def ofSequence (i : Nat) (s : Sequence) : Census N :=
  (adjacentPairs s).foldl (record i) empty

/-- The sequences one after another, the first one at position `start`. -/
@[specialize]
def oneByOne (start : Nat) (seqs : List Sequence) : Census N :=
  (seqs.zipIdx start).foldl (fun c (s, i) => c.union (ofSequence i s)) empty

/-- The sequences halved again and again, the first one at position `start`. -/
@[specialize]
def byHalves (start : Nat) (seqs : List Sequence) : Census N :=
  match seqs with
  | [] => empty
  | [s] => ofSequence start s
  | s :: t :: rest =>
    let half := (rest.length + 2) / 2
    (byHalves start ((s :: t :: rest).take half)).union
      (byHalves (start + half) ((s :: t :: rest).drop half))
termination_by seqs.length
decreasing_by all_goals simp only [List.length_take, List.length_drop, List.length_cons]; omega

/-- The census of all sequences. Counting in parallel goes by halves. -/
@[specialize]
def ofSequences (parallel : Bool) (seqs : Array Sequence) : Census N :=
  if parallel then byHalves 0 seqs.toList else oneByOne 0 seqs.toList

end Census

end BytePair
