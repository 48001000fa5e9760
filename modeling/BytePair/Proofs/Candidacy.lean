import BytePair.Proofs.Hearings
import BytePair.Proofs.Settling
import Mathlib.Data.List.Induction
import Mathlib.Data.List.Permutation
import Std.Data.TreeMap.Iterator

/-!
# How long a pair is a candidate

The queue is never searched for outdated candidates, and a pair that was shown to a judge is not put
back. So a pair may only be passed over if its turn has come before.

* `Tally.Operation`, `Tally.after`: looks by any judges and changes of any kind, consistent or not.
* `Tally.OfferedSince`: a pair was shown and its count has not changed since.
* `Tally.waits_or_offered`: every pair that occurs waits with its count, or was offered since.
* `Tally.look_finds_best`: so a look finds the best pair of those that were not offered since.
* `Tally.offers_le_arrivals`: a pair is offered at each count at most as often as its count has come
  to that number; `Tally.offered_again` is a pair whose count has come back.
-/

namespace BytePair.Tally

open Candidates (Hearing)

/-! ## Operations -/

/-- What can be done with a tally. -/
inductive Operation where
  /-- Looks for the best pair that the judge accepts. -/
  | look (judge : Judge)
  | apply (changes : List (PlacedChange Int64))

def perform (t : Tally Int64) : Operation → Tally Int64
  | .look judge => t.afterHearing judge
  | .apply changes => t.apply changes

/-- The tally after some operations, in their order. -/
def after (t : Tally Int64) (ops : List Operation) : Tally Int64 := ops.foldl perform t

/-- The pairs that an operation shows to a judge. -/
def shownBy (t : Tally Int64) : Operation → List Pair
  | .look judge => (t.hear judge).shown
  | .apply _ => []

/-- The pair was shown by one of the operations, accepted or not, and its count has been the same
ever since. -/
def OfferedSince (t : Tally Int64) (ops : List Operation) (q : Pair) : Prop :=
  ∃ before op later, ops = before ++ op :: later ∧ q ∈ (t.after before).shownBy op ∧
    ∀ more, more <+: later → (t.after (before ++ op :: more)).count q = (t.after before).count q

variable {t : Tally Int64} {ops : List Operation} {op : Operation} {judge : Judge}
  {changes : List (PlacedChange Int64)} {c : Candidate Int64} {p q : Pair} {n : Int64}

theorem after_append (t : Tally Int64) (xs ys : List Operation) :
    t.after (xs ++ ys) = (t.after xs).after ys :=
  List.foldl_append

theorem count_perform_of_mem_shownBy (h : q ∈ t.shownBy op) : (t.perform op).count = t.count := by
  cases op with
  | look judge => rfl
  | apply changes => cases h

theorem offeredSince_of_mem_shownBy (h : q ∈ (t.after ops).shownBy op) :
    t.OfferedSince (ops ++ [op]) q := by
  refine ⟨ops, op, [], rfl, h, fun more hmore => ?_⟩
  rw [List.prefix_nil.1 hmore, after_append]
  exact congrFun (count_perform_of_mem_shownBy h) q

/-- What was offered stays so until its count changes. -/
theorem OfferedSince.append (h : t.OfferedSince ops q)
    (hkept : (t.after (ops ++ [op])).count q = (t.after ops).count q) :
    t.OfferedSince (ops ++ [op]) q := by
  obtain ⟨before, shower, later, rfl, hshown, hsame⟩ := h
  refine ⟨before, shower, later ++ [op], by simp, hshown, fun more hmore => ?_⟩
  rcases List.prefix_concat_iff.1 hmore with rfl | hmore
  · rw [← hsame later (List.prefix_refl _), ← hkept]
    simp
  · exact hsame more hmore

/-! ## Queues in order -/

/-- The queue holds nothing that does not wait, and no pair that does not occur. -/
structure Coherent (t : Tally Int64) : Prop where
  filled : t.queue.Filled
  positive : ∀ c ∈ t.queue, 0 < c.count

theorem coherent_ofCensus (c : Census Int64) : (ofCensus c).Coherent where
  filled := Candidates.filled_ofList _
  positive d hd := by
    simpa using (List.mem_filter.1 (Candidates.mem_ofList.1 hd)).2

theorem Coherent.perform (h : t.Coherent) (op : Operation) : (t.perform op).Coherent := by
  cases op with
  | look judge =>
    refine ⟨h.filled.hear _ _ _, fun c hc => h.positive c ?_⟩
    have hle := Candidates.times_behind_le t.count judge [] t.queue c
    have hpos := h.filled.hear t.count judge [] c hc
    exact Candidates.mem_of_times_pos (Nat.lt_of_lt_of_le hpos hle)
  | apply changes =>
    refine ⟨h.filled.add _, fun c hc => ?_⟩
    rcases mem_queue_settle.1 hc with hc | ⟨-, -, hpos⟩
    · exact h.positive c hc
    · exact hpos

theorem Coherent.after (h : t.Coherent) (ops : List Operation) : (t.after ops).Coherent := by
  induction ops generalizing t with
  | nil => exact h
  | cons op ops ih => exact ih (h.perform op)

/-- A current candidate waits until it is shown. -/
theorem Coherent.times_hear_add (h : t.Coherent) (judge : Judge) (q : Pair) :
    (t.hear judge).behind.times ⟨t.count q, q⟩ + (t.hear judge).shown.count q =
      t.queue.times ⟨t.count q, q⟩ :=
  Candidates.times_behind_add h.filled t.count judge [] q

/-! ## Nothing is lost -/

/-- A pair whose count has moved, and is not used up, waits with its new count. -/
theorem mem_queue_of_moved {d : Draft Int64} (h : (t.settle d).count q ≠ t.count q)
    (hpos : 0 < (t.settle d).count q) : ⟨(t.settle d).count q, q⟩ ∈ (t.settle d).queue := by
  have hcount := count_settle t d q
  split at hcount
  · exact absurd hcount h
  · split at hcount
    · exact mem_queue_settle.2 (.inr ⟨‹_›, hcount, hpos⟩)
    · rw [hcount] at hpos
      exact absurd hpos Int64.lt_irrefl

/-- A current candidate that no longer waits after a look was shown in it. -/
theorem mem_behind_or_shown (h : t.Coherent) (judge : Judge) (hq : ⟨t.count q, q⟩ ∈ t.queue) :
    ⟨t.count q, q⟩ ∈ (t.hear judge).behind ∨ q ∈ (t.hear judge).shown := by
  have hsum := h.times_hear_add judge q
  have hpos := h.filled _ hq
  by_cases hshown : q ∈ (t.hear judge).shown
  · exact .inr hshown
  · rw [List.count_eq_zero.2 hshown, Nat.add_zero] at hsum
    exact .inl (Candidates.mem_of_times_pos (hsum ▸ hpos))

/-- **No candidate is lost.** A pair that occurs waits with its count, or was offered since its
count last changed. -/
theorem waits_or_offered (h : t.Coherent) (hstart : ∀ q, 0 < t.count q → ⟨t.count q, q⟩ ∈ t.queue)
    (ops : List Operation) (hpos : 0 < (t.after ops).count q) :
    ⟨(t.after ops).count q, q⟩ ∈ (t.after ops).queue ∨ t.OfferedSince ops q := by
  induction ops using List.reverseRecOn with
  | nil => exact .inl (hstart q hpos)
  | append_singleton ops op ih =>
    have hafter : t.after (ops ++ [op]) = (t.after ops).perform op := after_append t ops [op]
    rw [hafter] at hpos ⊢
    by_cases hcount : ((t.after ops).perform op).count q = (t.after ops).count q
    · rcases ih (hcount ▸ hpos) with hwaits | hoffered
      · rw [hcount]
        cases op with
        | look judge =>
          rcases mem_behind_or_shown (h.after ops) judge hwaits with hwaits | hshown
          · exact .inl hwaits
          · exact .inr (offeredSince_of_mem_shownBy hshown)
        | apply changes => exact .inl (mem_queue_settle.2 (.inl hwaits))
      · exact .inr (hoffered.append (hafter ▸ hcount))
    · cases op with
      | look judge => exact absurd rfl hcount
      | apply changes => exact .inl (mem_queue_of_moved hcount hpos)

theorem waiting_ofCensus (c : Census Int64) (hpos : 0 < c.count q) :
    ⟨c.count q, q⟩ ∈ (ofCensus c).queue := by
  refine mem_queue_ofCensus.2 ⟨?_, hpos⟩
  have hmem : q ∈ c.counts := by
    refine Decidable.byContradiction fun hnot => ?_
    have hzero : c.count q = 0 := Std.ExtTreeMap.getD_eq_fallback hnot
    rw [hzero] at hpos
    exact Int64.lt_irrefl hpos
  exact Std.ExtTreeMap.getElem?_eq_some_getD hmem

/-- A pair that comes before another one, by its count or else by its tokens, is not preceded by
it. -/
theorem not_precedes {best : Candidate Int64} (h : best.count < n ∨ n = best.count ∧
    (q.left < best.pair.left ∨ q.left = best.pair.left ∧ q.right < best.pair.right)) :
    ¬best.precedes ⟨n, q⟩ := by
  rw [Candidate.precedes_iff, Pair.compare_isLE_iff]
  simp only [not_or, not_and]
  grind

/-- **A look finds the best candidate.** Whatever was looked for and changed before, a look finds a
pair that occurs, with its count, and which the judge accepts. Any pair that comes before it was
refused in this look, or was offered since its count last changed. If nothing is found, this is so
for all pairs that occur. The look of training is one where the judge forgets. -/
theorem look_finds_best (parallel : Bool) (seqs : Array Sequence) (ops : List Operation)
    (judge : Judge) :
    let start : Tally Int64 := ofSequences parallel seqs
    let t := start.after ops
    let o := t.hear judge
    (∀ best, o.best? = some best →
      best.count = t.count best.pair ∧ 0 < best.count ∧ judge o.refused best.pair ∧
      ∀ q, best.count < t.count q ∨ t.count q = best.count ∧
          (q.left < best.pair.left ∨ q.left = best.pair.left ∧ q.right < best.pair.right) →
        q ∈ o.refused ∨ start.OfferedSince ops q) ∧
    (o.best? = none → ∀ q, 0 < t.count q → q ∈ o.refused ∨ start.OfferedSince ops q) ∧
    (∀ xs q ys, o.refused = xs ++ q :: ys → judge xs q = false) ∧
    ∀ accept, t.pop accept = ⟨(t.hear fun _ => accept).best?, (t.hear fun _ => accept).shown,
      t.perform (.look fun _ => accept)⟩ := by
  intro start t o
  have hstart : start.Coherent := coherent_ofCensus _
  have ht : t.Coherent := hstart.after ops
  have hfair : o.Fair t.count judge [] t.queue := Candidates.fair_hear _ _ _ _
  have hwaits (q : Pair) (hpos : 0 < t.count q) :
      ⟨t.count q, q⟩ ∈ t.queue ∨ start.OfferedSince ops q :=
    waits_or_offered hstart (fun _ => waiting_ofCensus _) ops hpos
  refine ⟨fun best hbest => ?_, fun hnone q hpos => ?_, hfair.refuses, pop_eq ht.filled⟩
  · obtain ⟨hmem, hnow, hjudge⟩ := hfair.found best hbest
    have hpos : 0 < best.count := ht.positive best hmem
    refine ⟨hnow.symm, hpos, hjudge, fun q hq => ?_⟩
    have hposq : 0 < t.count q := by
      rcases hq with hlt | ⟨heq, -⟩
      · exact Int64.lt_trans hpos hlt
      · exact heq ▸ hpos
    -- A pair that waits and was not refused would not be preceded by the one that was found.
    rcases hwaits q hposq with hq' | hoffered
    · refine .inl (Decidable.byContradiction fun hrefused => ?_)
      exact not_precedes hq (hfair.first best hbest ⟨t.count q, q⟩ hq' rfl hrefused)
    · exact .inr hoffered
  · exact (hwaits q hpos).imp_left fun hq => hfair.missed hnone _ hq rfl

/-- The pair that occurs most often was offered in an earlier look, and the next one is refused in
this look. -/
theorem look_finds_best_of_the_rest :
    let start : Tally Int64 := ofSequences false #[[1, 2, 1, 2, 3]]
    let ops : List Operation := [.look fun _ _ => true]
    let judge : Judge := fun _ p => p ≠ ⟨2, 1⟩
    ((start.after ops).hear judge).best? = some ⟨1, ⟨2, 3⟩⟩ ∧ (start.after ops).count ⟨1, 2⟩ = 2 ∧
      start.OfferedSince ops ⟨1, 2⟩ ∧ ⟨2, 1⟩ ∈ ((start.after ops).hear judge).refused := by
  intro start ops judge
  have hstart : start.Coherent := coherent_ofCensus _
  have hafter : start.after ops = (start.pop fun _ => true).rest :=
    afterHearing_eq hstart.filled _
  have ht : (start.after ops).Coherent := hstart.after ops
  have hbest : ((start.after ops).hear judge).best? = some ⟨1, ⟨2, 3⟩⟩ := by
    rw [best?_hear ht.filled, hafter]
    cbv
  have hshown : ((start.after ops).hear judge).shown = [⟨2, 1⟩, ⟨2, 3⟩] := by
    rw [shown_hear ht.filled, hafter]
    cbv
  have hrefused : ((start.after ops).hear judge).refused = [⟨2, 1⟩] := by
    rw [Hearing.shown, hbest] at hshown
    exact List.append_inj_left' hshown rfl
  have hcount : (start.after ops).count ⟨1, 2⟩ = 2 := by
    rw [hafter]
    cbv
  obtain ⟨-, -, -, hbefore⟩ := (look_finds_best false #[[1, 2, 1, 2, 3]] ops judge).1 _ hbest
  have hoffered := hbefore ⟨1, 2⟩ (.inl (by rw [hcount]; decide))
  refine ⟨hbest, hcount, hoffered.resolve_left ?_, ?_⟩
  · rw [hrefused]
    decide
  · rw [hrefused]
    decide

/-! ## How often a pair is offered -/

/-- What the operations count for, each with the tally that it finds. -/
def total (weight : Tally Int64 → Operation → Nat) (t : Tally Int64) : List Operation → Nat
  | [] => 0
  | op :: ops => weight t op + total weight (t.perform op) ops

theorem total_append (weight : Tally Int64 → Operation → Nat) (t : Tally Int64)
    (xs ys : List Operation) :
    total weight t (xs ++ ys) = total weight t xs + total weight (t.after xs) ys := by
  induction xs generalizing t with
  | nil => exact (Nat.zero_add _).symm
  | cons op xs ih =>
    rw [List.cons_append, total, total, ih, Nat.add_assoc]
    rfl

/-- How often the operations show the pair `p` while its count is `n`. -/
def offersAt (p : Pair) (n : Int64) : Tally Int64 → List Operation → Nat :=
  total fun t op => if t.count p = n then (t.shownBy op).count p else 0

/-- How often the operations bring the count of `p` to `n`. -/
def arrivalsAt (p : Pair) (n : Int64) : Tally Int64 → List Operation → Nat :=
  total fun t op => if t.count p ≠ n ∧ (t.perform op).count p = n then 1 else 0

theorem offersAt_append (p : Pair) (n : Int64) (t : Tally Int64) (xs ys : List Operation) :
    offersAt p n t (xs ++ ys) = offersAt p n t xs + offersAt p n (t.after xs) ys :=
  total_append _ t xs ys

theorem arrivalsAt_append (p : Pair) (n : Int64) (t : Tally Int64) (xs ys : List Operation) :
    arrivalsAt p n t (xs ++ ys) = arrivalsAt p n t xs + arrivalsAt p n (t.after xs) ys :=
  total_append _ t xs ys

/-- Candidates for different pairs are queued once each. -/
theorem times_add_le {cs : List (Candidate Int64)} (h : cs.Pairwise fun a b => a.pair ≠ b.pair)
    (queue : Candidates Int64) (c : Candidate Int64) :
    (queue.add cs).times c ≤ queue.times c + if c ∈ cs then 1 else 0 := by
  have hnodup : cs.Nodup := h.imp fun hne heq => hne (congrArg Candidate.pair heq)
  rw [Candidates.times_add, hnodup.count]

/-- At the start every pair has one candidate at most. -/
theorem exists_queue_ofCensus (census : Census Int64) : ∃ cs : List (Candidate Int64),
    (cs.Pairwise fun a b => a.pair ≠ b.pair) ∧ (ofCensus census).queue = Candidates.ofList cs := by
  refine ⟨_, List.Pairwise.filter _ (List.pairwise_map.2 ?_), rfl⟩
  refine Std.ExtTreeMap.distinct_keys_toList.imp fun {a b} h hab => h ?_
  exact Std.LawfulEqCmp.compare_eq_iff_eq.2 hab

theorem times_ofCensus_le (census : Census Int64) (p : Pair) (n : Int64) :
    (ofCensus census).queue.times ⟨n, p⟩ ≤ if census.count p = n then 1 else 0 := by
  obtain ⟨cs, hpairs, hqueue⟩ := exists_queue_ofCensus census
  have htimes : (Candidates.ofList cs).times ⟨n, p⟩ ≤ _ := times_add_le hpairs ∅ ⟨n, p⟩
  have hempty : (∅ : Candidates Int64).times ⟨n, p⟩ = 0 := Std.ExtTreeMap.getD_empty
  rw [hempty, Nat.zero_add, ← hqueue] at htimes
  refine Nat.le_trans htimes ?_
  split
  · rename_i hmem
    have hget := (mem_queue_ofCensus.1 (hqueue ▸ Candidates.mem_ofList.2 hmem)).1
    rw [if_pos]
    rw [Census.count, Std.ExtTreeMap.getD_eq_getD_getElem?, hget]
    rfl
  · exact Nat.zero_le _

/-- A draft queues a candidate once more, if it brings the count of its pair to its own. -/
theorem times_settle_le (t : Tally Int64) (d : Draft Int64) (p : Pair) (n : Int64) :
    (t.settle d).queue.times ⟨n, p⟩ ≤ t.queue.times ⟨n, p⟩ +
      if t.count p ≠ n ∧ (t.settle d).count p = n then 1 else 0 := by
  have hpairs := (pairwise_moved t d).filter fun c => decide (0 < c.count)
  refine Nat.le_trans (times_add_le hpairs t.queue ⟨n, p⟩) (Nat.add_le_add_left ?_ _)
  split
  · rename_i hmem
    obtain ⟨hmoved, hpos⟩ := List.mem_filter.1 hmem
    obtain ⟨hnet, hn⟩ : d.netOf p ≠ 0 ∧ n = t.count p + d.netOf p := mem_moved.1 hmoved
    have hpos : 0 < n := of_decide_eq_true hpos
    have hcount := count_settle t d p
    rw [if_neg hnet, countAfter, ← hn, if_pos hpos] at hcount
    have hmoves : t.count p ≠ n := by
      rintro rfl
      exact hnet (by grind)
    rw [if_pos ⟨hmoves, hcount⟩]
  · exact Nat.zero_le _

/-- What an operation shows is taken from the queue, and only a count that has moved adds to it. -/
theorem Coherent.times_perform_add_le (h : t.Coherent) (op : Operation) (p : Pair) (n : Int64) :
    (t.perform op).queue.times ⟨n, p⟩ +
        (if t.count p = n then (t.shownBy op).count p else 0) ≤
      t.queue.times ⟨n, p⟩ + if t.count p ≠ n ∧ (t.perform op).count p = n then 1 else 0 := by
  cases op with
  | look judge =>
    refine Nat.le_trans ?_ (Nat.le_add_right _ _)
    by_cases hn : t.count p = n
    · subst hn
      rw [if_pos rfl]
      exact Nat.le_of_eq (h.times_hear_add judge p)
    · rw [if_neg hn]
      exact Candidates.times_behind_le t.count judge [] t.queue ⟨n, p⟩
  | apply changes =>
    have hshown : (t.shownBy (.apply changes)).count p = 0 := rfl
    rw [hshown, ite_self, Nat.add_zero]
    exact times_settle_le t _ p n

theorem Coherent.times_after_add_le (h : t.Coherent) (ops : List Operation) (p : Pair) (n : Int64) :
    (t.after ops).queue.times ⟨n, p⟩ + offersAt p n t ops ≤
      t.queue.times ⟨n, p⟩ + arrivalsAt p n t ops := by
  induction ops generalizing t with
  | nil => exact Nat.le_refl _
  | cons op ops ih =>
    have hstep := h.times_perform_add_le op p n
    have hrest := ih (h.perform op)
    have hafter : t.after (op :: ops) = (t.perform op).after ops := rfl
    rw [hafter]
    unfold offersAt arrivalsAt at hrest ⊢
    rw [total, total]
    omega

/-- What was offered since its count last changed was offered at that count. -/
theorem OfferedSince.offersAt_pos (h : t.OfferedSince ops p) :
    0 < offersAt p ((t.after ops).count p) t ops := by
  obtain ⟨before, op, later, rfl, hshown, hsame⟩ := h
  rw [hsame later (List.prefix_refl _), offersAt_append, offersAt, total, if_pos rfl]
  exact Nat.add_pos_right _ (Nat.add_pos_left (List.count_pos_iff.2 hshown) _)

/-- **Offers are counted.** A pair is offered at each count at most as often as its count has come
to that number, the start included. So if its count has come to what it is now just once, then the
pair is shown no more than once in a look, and not at all if it was offered since its count last
changed. The looks of training are those where the judge forgets. -/
theorem offers_le_arrivals (parallel : Bool) (seqs : Array Sequence) (ops : List Operation)
    (p : Pair) :
    let start : Tally Int64 := ofSequences parallel seqs
    let t := start.after ops
    (∀ n, offersAt p n start ops ≤
      (if start.count p = n then 1 else 0) + arrivalsAt p n start ops) ∧
    ((if start.count p = t.count p then 1 else 0) + arrivalsAt p (t.count p) start ops = 1 →
      ∀ judge, (t.hear judge).shown.count p ≤ 1 ∧
        (start.OfferedSince ops p → p ∉ (t.hear judge).shown)) ∧
    ∀ accept, (t.pop accept).shown = t.shownBy (.look fun _ => accept) ∧
      (t.pop accept).rest = t.perform (.look fun _ => accept) := by
  intro start t
  have hstart : start.Coherent := coherent_ofCensus _
  have ht : t.Coherent := hstart.after ops
  have hbound (ops : List Operation) (n : Int64) : offersAt p n start ops ≤
      (if start.count p = n then 1 else 0) + arrivalsAt p n start ops := by
    have hrun := hstart.times_after_add_le ops p n
    have hfirst := times_ofCensus_le (Census.ofSequences parallel seqs) p n
    exact Nat.le_trans (Nat.le_add_left _ _)
      (Nat.le_trans hrun (Nat.add_le_add_right hfirst _))
  refine ⟨hbound ops, fun honce judge => ?_, fun accept =>
    ⟨(shown_hear ht.filled accept).symm, (afterHearing_eq ht.filled accept).symm⟩⟩
  -- The look is one more operation, and its count arrives nowhere.
  have hlook := hbound (ops ++ [.look judge]) (t.count p)
  have hoffers : offersAt p (t.count p) t [.look judge] = (t.hear judge).shown.count p :=
    if_pos rfl
  have harrivals : arrivalsAt p (t.count p) t [.look judge] = 0 := if_neg fun h => h.1 rfl
  rw [offersAt_append, arrivalsAt_append, hoffers, harrivals, Nat.add_zero, honce] at hlook
  refine ⟨by omega, fun hoffered hshown => ?_⟩
  have hbefore : 0 < offersAt p (t.count p) start ops := hoffered.offersAt_pos
  have hagain := List.count_pos_iff.2 hshown
  omega

/-- A pair whose count moved, and which was then refused, does not come back by itself. -/
theorem offers_le_arrivals_of_refused :
    let start : Tally Int64 := ofSequences false #[[1, 2]]
    let ops : List Operation := [.apply [(⟨⟨1, 2⟩, 1⟩, 0)], .look fun _ _ => false]
    (start.after ops).count ⟨1, 2⟩ = 2 ∧ arrivalsAt ⟨1, 2⟩ 2 start ops = 1 ∧
      start.OfferedSince ops ⟨1, 2⟩ ∧ ∀ judge, ⟨1, 2⟩ ∉ ((start.after ops).hear judge).shown := by
  intro start ops
  have hcount : (start.after ops).count ⟨1, 2⟩ = 2 := by cbv
  have hcountStart : start.count ⟨1, 2⟩ = 1 := by cbv
  have harrivals : arrivalsAt ⟨1, 2⟩ 2 start ops = 1 := by cbv
  have ht : (start.after [.apply [(⟨⟨1, 2⟩, 1⟩, 0)]]).Coherent := (coherent_ofCensus _).after _
  have hshown : ((start.after [.apply [(⟨⟨1, 2⟩, 1⟩, 0)]]).hear fun _ _ => false).shown =
      [⟨1, 2⟩] := by
    rw [shown_hear ht.filled]
    cbv
  have hoffered : start.OfferedSince ([.apply [(⟨⟨1, 2⟩, 1⟩, 0)]] ++ [.look fun _ _ => false])
      ⟨1, 2⟩ := by
    refine offeredSince_of_mem_shownBy ?_
    rw [shownBy, hshown]
    exact List.mem_singleton_self _
  have honce := (offers_le_arrivals false #[[1, 2]] ops ⟨1, 2⟩).2.1 (by
    show (if start.count ⟨1, 2⟩ = (start.after ops).count ⟨1, 2⟩ then 1 else 0) +
      arrivalsAt ⟨1, 2⟩ ((start.after ops).count ⟨1, 2⟩) start ops = 1
    rw [hcount, hcountStart, harrivals]
    rfl)
  exact ⟨hcount, harrivals, hoffered, fun judge => (honce judge).2 hoffered⟩

/-- A count that goes up and comes back leaves two candidates that are both current. The pair is
then shown twice, in one look if it is refused, and in two if it is accepted, with no change
between. -/
theorem offered_again :
    let start : Tally Int64 := ofSequences false #[[1, 2]]
    let t := (start.apply [(⟨⟨1, 2⟩, 1⟩, 0)]).apply [(⟨⟨1, 2⟩, -1⟩, 0)]
    (t.pop fun _ => false).shown = [⟨1, 2⟩, ⟨1, 2⟩] ∧
      (t.pop fun _ => true).best? = some ⟨1, ⟨1, 2⟩⟩ ∧
      ((t.pop fun _ => true).rest.pop fun _ => true).best? = some ⟨1, ⟨1, 2⟩⟩ := by
  intro start t
  refine ⟨?_, ?_, ?_⟩
  · cbv
  · cbv
  · cbv

end BytePair.Tally
