import BytePair.Tally.Candidates

/-!
# What a queue of candidates offers

A candidate is current if its count is still the count of its pair.

* `Candidates.mem_add`: what waits after candidates are queued.
* `Candidates.Offer.IsFirst`: an offer is the first current candidate that is accepted, and no
  other one is lost.
* `Candidates.isFirst_next`: a look at the queue makes such an offer.
-/

namespace BytePair

/-! ## The order of candidates -/

theorem Pair.compare_isLE_iff {p q : Pair} :
    (compare p q).isLE ↔ p.left < q.left ∨ p.left = q.left ∧ p.right ≤ q.right := by
  have h : compare p q = (compare p.left q.left).then (compare p.right q.right) := rfl
  rw [h, Ordering.isLE_then_iff_or, Nat.compare_eq_lt, Nat.isLE_compare, Nat.compare_eq_eq]

variable {N : Type} [Ord N] [Std.TransOrd N]

theorem Candidate.precedes_antisymm [Std.LawfulEqOrd N] {c d : Candidate N} (h : c.precedes d)
    (h' : d.precedes c) : c = d :=
  Std.LawfulEqCmp.eq_of_compare (Std.OrientedCmp.isLE_antisymm h h')

namespace Candidates

/-- Induction over a queue, which loses its first candidate. -/
theorem erase_induction {motive : Candidates N → Prop}
    (done : ∀ queue, queue.minKey? = none → motive queue)
    (step : ∀ queue c, queue.minKey? = some c → motive (queue.erase c) → motive queue)
    (queue : Candidates N) : motive queue := by
  induction hn : queue.size using Nat.strongRecOn generalizing queue with
  | ind n ih =>
    cases hc : queue.minKey? with
    | none => exact done queue hc
    | some c => exact step queue c hc (ih _ (hn ▸ size_erase_lt hc) _ rfl)

variable [Std.LawfulEqOrd N] {queue : Candidates N} {c d : Candidate N}

/-! ## Membership -/

theorem mem_push : d ∈ queue.push c ↔ d ∈ queue ∨ d = c := by
  rw [push, Std.ExtTreeMap.mem_alter]
  by_cases h : c = d
  · simp [h]
  · simp [h, Ne.symm h]

theorem mem_add {cs : List (Candidate N)} : d ∈ queue.add cs ↔ d ∈ queue ∨ d ∈ cs := by
  unfold add
  induction cs generalizing queue with
  | nil => simp
  | cons c cs ih => rw [List.foldl_cons, ih, mem_push, List.mem_cons, or_assoc]

theorem mem_ofList {cs : List (Candidate N)} : d ∈ ofList cs ↔ d ∈ cs := by
  rw [ofList, mem_add]
  simp

theorem mem_drop_of_ne (h : c ≠ d) : d ∈ queue.drop c ↔ d ∈ queue := by
  rw [drop, Std.ExtTreeMap.mem_alter]
  simp [h]

theorem mem_of_mem_drop (h : d ∈ queue.drop c) : d ∈ queue := by
  by_cases hcd : c = d
  · subst hcd
    rw [drop, Std.ExtTreeMap.mem_alter, if_pos (by simp)] at h
    rw [Std.ExtTreeMap.mem_iff_isSome_getElem?]
    cases hc : queue[c]? with
    | none => simp [hc] at h
    | some n => rfl
  · exact (mem_drop_of_ne hcd).1 h

theorem mem_erase_iff : d ∈ queue.erase c ↔ c ≠ d ∧ d ∈ queue := by
  rw [Std.ExtTreeMap.mem_erase]
  simp

/-! ## Offers -/

/-- The offer is the first current candidate that is accepted, if there is one. Behind it wait all
current and accepted candidates but itself. -/
structure Offer.IsFirst (o : Offer N) (countNow : Pair → N) (accept : Pair → Bool)
    (queue : Candidates N) : Prop where
  found : ∀ c, o.best? = some c → c ∈ queue ∧ countNow c.pair = c.count ∧ accept c.pair
  first : ∀ c, o.best? = some c → ∀ d ∈ queue, countNow d.pair = d.count → accept d.pair →
    c.precedes d
  missed : o.best? = none → ∀ d ∈ queue, countNow d.pair = d.count → ¬accept d.pair
  kept : ∀ d ∈ queue, countNow d.pair = d.count → accept d.pair → o.best? ≠ some d → d ∈ o.behind
  waited : ∀ d ∈ o.behind, d ∈ queue

/-- An offer from the rest of a queue is one from the queue, if its first candidate is outdated or
rejected. -/
theorem Offer.IsFirst.of_erase {o : Offer N} {countNow : Pair → N} {accept : Pair → Bool}
    (h : o.IsFirst countNow accept (queue.erase c))
    (hc : countNow c.pair = c.count → ¬accept c.pair) : o.IsFirst countNow accept queue := by
  have hd (d : Candidate N) (hd : d ∈ queue) (hnow : countNow d.pair = d.count)
      (hacc : accept d.pair) : d ∈ queue.erase c := by
    refine mem_erase_iff.2 ⟨?_, hd⟩
    rintro rfl
    exact hc hnow hacc
  refine ⟨fun e he => ?_, fun e he d hq hnow hacc => ?_, fun hnone d hq hnow hacc => ?_,
    fun d hq hnow hacc hne => ?_, fun d hq => (mem_erase_iff.1 (h.waited d hq)).2⟩
  · obtain ⟨hmem, hrest⟩ := h.found e he
    exact ⟨(mem_erase_iff.1 hmem).2, hrest⟩
  · exact h.first e he d (hd d hq hnow hacc) hnow hacc
  · exact h.missed hnone d (hd d hq hnow hacc) hnow hacc
  · exact h.kept d (hd d hq hnow hacc) hnow hacc hne

theorem isFirst_next [DecidableEq N] (countNow : Pair → N) (accept : Pair → Bool)
    (queue : Candidates N) : (next countNow accept queue).IsFirst countNow accept queue := by
  induction queue using erase_induction with
  | done queue hnone =>
    have hempty (d : Candidate N) : d ∉ queue := by
      rw [Std.ExtTreeMap.minKey?_eq_none_iff.1 hnone]
      simp
    rw [next_eq, hnone]
    refine ⟨?_, ?_, ?_, ?_, ?_⟩ <;> simp [hempty]
  | step queue c hc ih =>
    rw [next_eq, hc]
    simp only
    split
    · exact ih.of_erase fun h => absurd h ‹_›
    · rename_i hnow
      have hnow : countNow c.pair = c.count := Decidable.not_not.1 hnow
      split
      · rename_i hacc
        refine ⟨?_, ?_, ?_, ?_, fun d => mem_of_mem_drop⟩
        · rintro _ ⟨⟩
          exact ⟨Std.ExtTreeMap.minKey?_mem hc, hnow, hacc⟩
        · rintro _ ⟨⟩ d hd _ _
          exact (Std.ExtTreeMap.minKey?_eq_some_iff_mem_and_forall.1 hc).2 d hd
        · simp
        · intro d hd _ _ hne
          exact (mem_drop_of_ne (by simpa using hne)).2 hd
      · rename_i hacc
        have h := ih.of_erase fun _ => hacc
        exact ⟨h.found, h.first, h.missed, h.kept, h.waited⟩

end Candidates

end BytePair
