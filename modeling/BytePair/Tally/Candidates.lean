import BytePair.Token

/-!
# Candidates for the next merge

The pairs that wait to be merged, the best one first. A candidate keeps the count that its pair
had when it was queued; the queue is never searched for outdated ones, so the reader of the queue
has to compare that count with the pair's count now.

* `Candidate.precedes`: the higher count first, and of equal counts the smaller pair.
* `Candidates.times`: how often a candidate waits in the queue, which is all there is to know
  about a queue.
* `Candidates.add`: queues candidates. Nothing is lost and nothing is unified.
* `Candidates.next`: the first candidate that is up to date and accepted.
-/

namespace BytePair

/-- A pair, with its count when it was queued. -/
structure Candidate (N : Type) where
  count : N
  pair : Pair
  deriving DecidableEq, Repr

variable {N : Type} [Ord N]

namespace Candidate

/-- The higher count comes first, and of equal counts the smaller pair. -/
instance : Ord (Candidate N) :=
  ⟨compareLex (fun c d => compareOn count d c) (compareOn pair)⟩

instance [Std.TransOrd N] : Std.TransOrd (Candidate N) :=
  inferInstanceAs (Std.TransCmp (compareLex (fun c d => compareOn count d c) (compareOn pair)))

instance [Std.TransOrd N] [Std.LawfulEqOrd N] : Std.LawfulEqOrd (Candidate N) where
  eq_of_compare {c d} h := by
    obtain ⟨cn, cp⟩ := c
    obtain ⟨dn, dp⟩ := d
    have h' : compare dn cn = .eq ∧ compare cp dp = .eq := compareLex_eq_eq.1 h
    have hn := Std.LawfulEqOrd.eq_of_compare h'.1
    have hp := Std.LawfulEqOrd.eq_of_compare h'.2
    rw [hn, hp]

/-- Whether the first candidate is offered before the second. -/
def precedes (c d : Candidate N) : Bool := (compare c d).isLE

theorem precedes_total [Std.TransOrd N] (c d : Candidate N) : c.precedes d || d.precedes c := by
  have := @Std.OrientedCmp.eq_swap (Candidate N) compare _ c d
  simp only [precedes]
  grind [Ordering.swap, Ordering.isLE]

theorem precedes_trans [Std.TransOrd N] (c d e : Candidate N) (h : c.precedes d)
    (h' : d.precedes e) : c.precedes e :=
  Std.TransCmp.isLE_trans h h'

theorem precedes_iff [LT N] [LE N] [Std.LawfulOrderOrd N] [Std.LawfulOrderLT N]
    [Std.LawfulEqOrd N] {c d : Candidate N} :
    c.precedes d ↔ d.count < c.count ∨ c.count = d.count ∧ (compare c.pair d.pair).isLE := by
  obtain ⟨cn, cp⟩ := c
  obtain ⟨dn, dp⟩ := d
  have h : precedes ⟨cn, cp⟩ ⟨dn, dp⟩ = ((compare dn cn).then (compare cp dp)).isLE := rfl
  rw [h, Ordering.isLE_then_iff_or, Std.compare_eq_lt, Std.compare_eq_iff_eq, @eq_comm _ dn]

end Candidate

/-- The candidates that wait, each with the number of times that it does. -/
abbrev Candidates (N : Type) [Ord N] := Std.ExtTreeMap (Candidate N) Nat

namespace Candidates

variable [Std.TransOrd N]

/-- How often a candidate waits. -/
def times (queue : Candidates N) (c : Candidate N) : Nat := queue.getD c 0

/-- The queue with one more candidate. -/
def push (queue : Candidates N) (c : Candidate N) : Candidates N :=
  queue.alter c fun n? => some (n?.getD 0 + 1)

/-- The queue with more candidates. -/
def add (queue : Candidates N) (cs : List (Candidate N)) : Candidates N := cs.foldl push queue

def ofList (cs : List (Candidate N)) : Candidates N := add ∅ cs

/-- The queue in which the candidate waits once less. -/
def drop (queue : Candidates N) (c : Candidate N) : Candidates N :=
  queue.alter c fun
    | some (n + 2) => some (n + 1)
    | _ => none

section

variable [Std.LawfulEqOrd N] [DecidableEq N]

theorem times_push (queue : Candidates N) (c d : Candidate N) :
    (queue.push c).times d = queue.times d + if c = d then 1 else 0 := by
  simp only [times, push, Std.ExtTreeMap.getD_eq_getD_getElem?, Std.ExtTreeMap.getElem?_alter]
  by_cases h : c = d
  · subst h
    simp
  · simp [h]

theorem times_drop (queue : Candidates N) (c d : Candidate N) :
    (queue.drop c).times d = queue.times d - if c = d then 1 else 0 := by
  simp only [times, drop, Std.ExtTreeMap.getD_eq_getD_getElem?, Std.ExtTreeMap.getElem?_alter]
  by_cases h : c = d
  · subst h
    rcases queue[c]? with _ | _ | _ | n <;> simp
  · simp [h]

/-- Nothing is lost and nothing is unified. -/
theorem times_add (queue : Candidates N) (cs : List (Candidate N)) (d : Candidate N) :
    (queue.add cs).times d = queue.times d + cs.count d := by
  induction cs generalizing queue with
  | nil => simp [add]
  | cons c cs ih =>
    have h := ih (queue.push c)
    simp only [add, List.foldl_cons] at h ⊢
    rw [h, times_push, List.count_cons]
    simp only [beq_iff_eq]
    omega

end

/-- What a look for the next candidate finds. -/
structure Offer (N : Type) [Ord N] where
  /-- The candidate, if there was one. -/
  best? : Option (Candidate N)
  /-- The pairs that were shown to the judge, in order. -/
  shown : List Pair
  /-- The candidates behind the one found; those before it are dropped. -/
  behind : Candidates N

variable [DecidableEq N]

/-- Looks at no more than `n` different candidates. -/
@[specialize]
def nextOf (countNow : Pair → N) (accept : Pair → Bool) : Nat → Candidates N → Offer N
  | 0, queue => ⟨none, [], queue⟩
  | n + 1, queue =>
    match queue.minKey? with
    | none => ⟨none, [], queue⟩
    | some c =>
      if countNow c.pair ≠ c.count then nextOf countNow accept n (queue.erase c)
      else if accept c.pair then ⟨some c, [c.pair], queue.drop c⟩
      else
        let offer := nextOf countNow accept n (queue.erase c)
        { offer with shown := List.replicate (queue.times c) c.pair ++ offer.shown }

/-- Goes through the queue to the first candidate whose count is still the count of its pair and
whose pair is accepted. A pair that is rejected is shown as often as it waits. -/
def next (countNow : Pair → N) (accept : Pair → Bool) (queue : Candidates N) : Offer N :=
  nextOf countNow accept queue.size queue

omit [DecidableEq N] in
theorem size_erase_lt {queue : Candidates N} {c : Candidate N} (h : queue.minKey? = some c) :
    (queue.erase c).size < queue.size := by
  have hc : c ∈ queue := Std.ExtTreeMap.minKey?_mem h
  have hpos : queue.size ≠ 0 := fun h0 =>
    Std.ExtTreeMap.ne_empty_of_mem hc (Std.ExtTreeMap.eq_empty_iff_size_eq_zero.2 h0)
  rw [Std.ExtTreeMap.size_erase, if_pos (Std.ExtTreeMap.mem_iff_contains.1 hc)]
  omega

theorem nextOf_congr (countNow : Pair → N) (accept : Pair → Bool) {m n : Nat}
    {queue : Candidates N} (hm : queue.size ≤ m) (hn : queue.size ≤ n) :
    nextOf countNow accept m queue = nextOf countNow accept n queue := by
  have hnone {k : Nat} {q : Candidates N} (h : q.minKey? = none) :
      nextOf countNow accept k q = ⟨none, [], q⟩ := by
    cases k <;> simp [nextOf, h]
  induction m generalizing n queue with
  | zero =>
    have he : queue = ∅ := Std.ExtTreeMap.eq_empty_iff_size_eq_zero.2 (by omega)
    subst he
    rw [hnone Std.ExtTreeMap.minKey?_empty, hnone Std.ExtTreeMap.minKey?_empty]
  | succ m ih =>
    cases hc : queue.minKey? with
    | none => rw [hnone hc, hnone hc]
    | some c =>
      have hlt := size_erase_lt hc
      obtain ⟨n, rfl⟩ : ∃ k, n = k + 1 := ⟨n - 1, by omega⟩
      simp only [nextOf, hc]
      rw [ih (by omega) (show (queue.erase c).size ≤ n by omega)]

/-- A look at the queue is a look at its first candidate, and then at those behind it. -/
theorem next_eq (countNow : Pair → N) (accept : Pair → Bool) (queue : Candidates N) :
    next countNow accept queue =
      match queue.minKey? with
      | none => ⟨none, [], queue⟩
      | some c =>
        if countNow c.pair ≠ c.count then next countNow accept (queue.erase c)
        else if accept c.pair then ⟨some c, [c.pair], queue.drop c⟩
        else
          let offer := next countNow accept (queue.erase c)
          { offer with shown := List.replicate (queue.times c) c.pair ++ offer.shown } := by
  have h := nextOf_congr countNow accept (Nat.le_refl queue.size) (Nat.le_succ queue.size)
  rw [next, h, nextOf]
  cases hc : queue.minKey? with
  | none => rfl
  | some c =>
    simp only [next]
    rw [nextOf_congr countNow accept (Nat.le_of_lt (size_erase_lt hc)) (Nat.le_refl _)]

end Candidates

end BytePair
