import BytePair.Proofs.Offers
import BytePair.Tally

/-!
# Judges with a memory

A look at the queue shows pairs to a judge until one is accepted. The judge may remember what he was
shown, and answer differently when a pair comes again.

* `Candidates.hear`: a look with such a judge, one waiting candidate after the other.
* `Candidates.fair_hear`: what it finds, and what it passes over.
* `Candidates.times_behind_add`: a current candidate waits until it is shown, and then once less.
* `Tally.pop_eq`: with a judge who forgets, this is the look of training.
-/

namespace BytePair

/-- The answer to a pair may depend on the pairs that were refused before it, in their order. -/
abbrev Judge := List Pair → Pair → Bool

namespace Candidates

variable {N : Type} [Ord N] [Std.TransOrd N] {queue : Candidates N} {c d : Candidate N}

/-! ## Candidates that wait several times -/

/-- Whatever is in the queue waits at least once. -/
def Filled (queue : Candidates N) : Prop := ∀ c ∈ queue, 0 < queue.times c

theorem mem_of_times_pos (h : 0 < queue.times c) : c ∈ queue := by
  refine Decidable.byContradiction fun hc => ?_
  rw [times, Std.ExtTreeMap.getD_eq_fallback hc] at h
  exact Nat.lt_irrefl 0 h

section

variable [Std.LawfulEqOrd N]

/-- A candidate that waits once is gone after it. -/
theorem drop_eq_erase (h : queue.times c ≤ 1) : queue.drop c = queue.erase c := by
  refine Std.ExtTreeMap.ext_getElem? fun d => ?_
  rw [drop, Std.ExtTreeMap.getElem?_alter, Std.ExtTreeMap.getElem?_erase]
  rw [times, Std.ExtTreeMap.getD_eq_getD_getElem?] at h
  by_cases hd : compare c d = .eq
  · rw [if_pos hd, if_pos hd]
    split
    · rename_i n hn
      rw [hn] at h
      exact absurd h (by simp)
    · rfl
  · rw [if_neg hd, if_neg hd]

/-- One that waits more often stays where it is. -/
theorem drop_of_times {n : Nat} (h : queue.times c = n + 2) (hc : queue.minKey? = some c) :
    (queue.drop c).minKey? = some c ∧ (queue.drop c).size = queue.size := by
  obtain ⟨hmem, hfirst⟩ := Std.ExtTreeMap.minKey?_eq_some_iff_mem_and_forall.1 hc
  have hget : queue[c]? = some (n + 2) :=
    (Std.ExtTreeMap.getElem?_eq_some_getD hmem).trans (congrArg some h)
  constructor
  · exact Std.ExtTreeMap.minKey?_alter_eq_self.2 ⟨by rw [hget]; rfl, hfirst⟩
  · exact Std.ExtTreeMap.size_alter_eq_self_of_mem hmem (by rw [hget]; rfl)

theorem erase_drop (queue : Candidates N) (c : Candidate N) :
    (queue.drop c).erase c = queue.erase c := by
  refine Std.ExtTreeMap.ext_getElem? fun d => ?_
  simp only [drop, Std.ExtTreeMap.getElem?_alter, Std.ExtTreeMap.getElem?_erase]
  split <;> rfl

variable [DecidableEq N]

theorem Filled.add (h : queue.Filled) (cs : List (Candidate N)) : (queue.add cs).Filled := by
  intro c hc
  rw [times_add]
  rcases mem_add.1 hc with hc | hc
  · exact Nat.add_pos_left (h c hc) _
  · exact Nat.add_pos_right _ (List.count_pos_iff.2 hc)

theorem filled_ofList (cs : List (Candidate N)) : (ofList cs).Filled := by
  have hempty : (∅ : Candidates N).Filled := by simp [Filled]
  exact hempty.add cs

theorem times_drop_le (queue : Candidates N) (c d : Candidate N) :
    (queue.drop c).times d ≤ queue.times d := by
  rw [times_drop]
  exact Nat.sub_le _ _

theorem Filled.drop (h : queue.Filled) (c : Candidate N) : (queue.drop c).Filled := by
  intro d hd
  rw [times_drop]
  split
  · rename_i hcd
    subst hcd
    by_cases hn : queue.times c ≤ 1
    · rw [drop_eq_erase hn] at hd
      exact absurd rfl (mem_erase_iff.1 hd).1
    · omega
  · exact h d (mem_of_mem_drop hd)

/-- How often the first candidate waits. -/
def firstTimes (queue : Candidates N) : Nat := (queue.minKey?.map queue.times).getD 0

omit [DecidableEq N] in
theorem drop_lt (hc : queue.minKey? = some c) :
    Prod.Lex (· < ·) (· < ·) ((queue.drop c).size, (queue.drop c).firstTimes)
      (queue.size, queue.firstTimes) := by
  classical
  match hn : queue.times c with
  | 0 | 1 =>
    rw [drop_eq_erase (by omega)]
    exact .left _ _ (size_erase_lt hc)
  | n + 2 =>
    obtain ⟨hc', hsize⟩ := drop_of_times hn hc
    rw [hsize]
    refine .right _ ?_
    simp only [firstTimes, hc, hc', Option.map_some, Option.getD_some, times_drop, ↓reduceIte]
    omega

end

/-! ## Hearings -/

/-- What a look for the next candidate finds. -/
structure Hearing (N : Type) [Ord N] where
  /-- The candidate that was accepted, if there was one. -/
  best? : Option (Candidate N)
  /-- The pairs that were refused, in order. -/
  refused : List Pair
  /-- The candidates that still wait. -/
  behind : Candidates N

/-- The pairs that were shown to the judge, in order. -/
def Hearing.shown (o : Hearing N) : List Pair := o.refused ++ o.best?.toList.map Candidate.pair

/-- Shows the current candidates to the judge, who has refused the pairs in `before` already, until
one is accepted. Each candidate is shown as often as it waits. -/
def hear [Std.LawfulEqOrd N] [DecidableEq N] (countNow : Pair → N) (judge : Judge)
    (before : List Pair) (queue : Candidates N) : Hearing N :=
  match _h : queue.minKey? with
  | none => ⟨none, [], queue⟩
  | some c =>
    if countNow c.pair ≠ c.count then hear countNow judge before (queue.drop c)
    else if judge before c.pair then ⟨some c, [], queue.drop c⟩
    else
      let later := hear countNow judge (before ++ [c.pair]) (queue.drop c)
      { later with refused := c.pair :: later.refused }
termination_by (queue.size, queue.firstTimes)
decreasing_by all_goals exact drop_lt ‹_›

/-- The hearing goes through the current candidates in their order: it passes over none that was not
refused. -/
structure Hearing.Fair (o : Hearing N) (countNow : Pair → N) (judge : Judge) (before : List Pair)
    (queue : Candidates N) : Prop where
  found (c : Candidate N) : o.best? = some c →
    c ∈ queue ∧ countNow c.pair = c.count ∧ judge (before ++ o.refused) c.pair
  refuses (xs : List Pair) (q : Pair) (ys : List Pair) : o.refused = xs ++ q :: ys →
    judge (before ++ xs) q = false
  first (c : Candidate N) : o.best? = some c → ∀ d ∈ queue, countNow d.pair = d.count →
    d.pair ∉ o.refused → c.precedes d
  missed : o.best? = none → ∀ d ∈ queue, countNow d.pair = d.count → d.pair ∈ o.refused

variable [Std.LawfulEqOrd N] [DecidableEq N]

theorem fair_hear (countNow : Pair → N) (judge : Judge) (before : List Pair)
    (queue : Candidates N) :
    (hear countNow judge before queue).Fair countNow judge before queue := by
  fun_induction hear countNow judge before queue with
  | case1 before queue hnone =>
    rw [Std.ExtTreeMap.minKey?_eq_none_iff.1 hnone]
    refine ⟨?_, ?_, ?_, ?_⟩ <;> simp
  | case2 before queue c hc hstale ih =>
    have hkept {d : Candidate N} (hd : d ∈ queue) (hnow : countNow d.pair = d.count) :
        d ∈ queue.drop c := by
      refine (mem_drop_of_ne ?_).2 hd
      rintro rfl
      exact hstale hnow
    refine ⟨fun b hb => ?_, ih.refuses, fun b hb d hd hnow => ?_, fun hnone d hd hnow => ?_⟩
    · obtain ⟨hmem, hrest⟩ := ih.found b hb
      exact ⟨mem_of_mem_drop hmem, hrest⟩
    · exact ih.first b hb d (hkept hd hnow) hnow
    · exact ih.missed hnone d (hkept hd hnow) hnow
  | case3 before queue c hc hnow hjudge =>
    have hnow : countNow c.pair = c.count := Decidable.not_not.1 hnow
    obtain ⟨hmem, hfirst⟩ := Std.ExtTreeMap.minKey?_eq_some_iff_mem_and_forall.1 hc
    refine ⟨?_, by simp, ?_, by simp⟩
    · rintro _ ⟨⟩
      rw [List.append_nil]
      exact ⟨hmem, hnow, hjudge⟩
    · rintro _ ⟨⟩ d hd _ _
      exact hfirst d hd
  | case4 before queue c hc hnow hjudge later ih =>
    have hkept {d : Candidate N} (hd : d ∈ queue) (hne : d.pair ≠ c.pair) : d ∈ queue.drop c :=
      (mem_drop_of_ne fun h => hne (congrArg Candidate.pair h.symm)).2 hd
    have happend (xs : List Pair) : before ++ c.pair :: xs = before ++ [c.pair] ++ xs := by simp
    refine ⟨fun b hb => ?_, fun xs q ys h => ?_, fun b hb d hd hnow hd' => ?_,
      fun hnone d hd hnow => ?_⟩
    · obtain ⟨hmem, hrest⟩ := ih.found b hb
      exact ⟨mem_of_mem_drop hmem, happend _ ▸ hrest⟩
    · cases xs with
      | nil =>
        obtain ⟨rfl, -⟩ := List.cons.inj h
        simpa using hjudge
      | cons x xs =>
        obtain ⟨rfl, hlater⟩ := List.cons.inj h
        rw [happend]
        exact ih.refuses xs q ys hlater
    · rw [List.mem_cons, not_or] at hd'
      exact ih.first b hb d (hkept hd hd'.1) hnow hd'.2
    · rw [List.mem_cons]
      by_cases hpair : d.pair = c.pair
      · exact .inl hpair
      · exact .inr (ih.missed hnone d (hkept hd hpair) hnow)

/-! ## What still waits after a hearing -/

theorem Filled.hear (h : queue.Filled) (countNow : Pair → N) (judge : Judge)
    (before : List Pair) : (hear countNow judge before queue).behind.Filled := by
  fun_induction Candidates.hear countNow judge before queue with
  | case1 => exact h
  | case2 _ _ c _ _ ih => exact ih (h.drop c)
  | case3 _ _ c => exact h.drop c
  | case4 _ _ c _ _ _ _ ih => exact ih (h.drop c)

theorem times_behind_le (countNow : Pair → N) (judge : Judge) (before : List Pair)
    (queue : Candidates N) (d : Candidate N) :
    (hear countNow judge before queue).behind.times d ≤ queue.times d := by
  fun_induction hear countNow judge before queue with
  | case1 => exact Nat.le_refl _
  | case2 _ _ c _ _ ih => exact Nat.le_trans ih (times_drop_le _ _ _)
  | case3 => exact times_drop_le _ _ _
  | case4 _ _ c _ _ _ _ ih => exact Nat.le_trans ih (times_drop_le _ _ _)

/-- A current candidate waits once less after it was shown. -/
theorem times_drop_add {countNow : Pair → N} (hpos : 0 < queue.times c)
    (hnow : countNow c.pair = c.count) (q : Pair) :
    (queue.drop c).times ⟨countNow q, q⟩ + [c.pair].count q = queue.times ⟨countNow q, q⟩ := by
  obtain ⟨n, p⟩ := c
  obtain rfl : countNow p = n := hnow
  rw [times_drop, List.count_singleton]
  by_cases hq : p = q
  · subst hq
    simp only [↓reduceIte, beq_self_eq_true]
    omega
  · simp [hq]

/-- Among the candidates with current counts none is lost: each waits as often as before, less the
times that its pair was shown. -/
theorem times_behind_add (h : queue.Filled) (countNow : Pair → N) (judge : Judge)
    (before : List Pair) (q : Pair) :
    (hear countNow judge before queue).behind.times ⟨countNow q, q⟩ +
      (hear countNow judge before queue).shown.count q = queue.times ⟨countNow q, q⟩ := by
  fun_induction hear countNow judge before queue with
  | case1 => simp [Hearing.shown]
  | case2 before queue c hc hstale ih =>
    have hne : c ≠ ⟨countNow q, q⟩ := by
      rintro rfl
      exact hstale rfl
    rw [ih (h.drop c), times_drop, if_neg hne, Nat.sub_zero]
  | case3 before queue c hc hnow hjudge =>
    exact times_drop_add (h c (Std.ExtTreeMap.minKey?_mem hc)) (Decidable.not_not.1 hnow) q
  | case4 before queue c hc hnow hjudge later ih =>
    have hdrop := times_drop_add (h c (Std.ExtTreeMap.minKey?_mem hc)) (Decidable.not_not.1 hnow) q
    have hshown : ([c.pair] ++ later.shown).count q = [c.pair].count q + later.shown.count q :=
      List.count_append
    show later.behind.times _ + ([c.pair] ++ later.shown).count q = _
    rw [hshown, ← hdrop, ← ih (h.drop c), Nat.add_left_comm, Nat.add_comm]

/-! ## A judge who forgets -/

section Forgetful

variable {countNow : Pair → N} {accept : Pair → Bool}

/-- The same as an offer, which does not tell the pairs that were refused from the others. -/
def Hearing.toOffer (o : Hearing N) : Offer N := ⟨o.best?, o.shown, o.behind⟩

theorem next_of_outdated (hc : queue.minKey? = some c) (h : countNow c.pair ≠ c.count) :
    next countNow accept queue = next countNow accept (queue.drop c) := by
  have hskip {queue : Candidates N} (hc : queue.minKey? = some c) :
      next countNow accept queue = next countNow accept (queue.erase c) := by
    rw [next_eq, hc]
    exact if_pos h
  match hn : queue.times c with
  | 0 | 1 => rw [hskip hc, drop_eq_erase (by omega)]
  | n + 2 => rw [hskip hc, hskip (drop_of_times hn hc).1, erase_drop]

theorem next_of_refused (hc : queue.minKey? = some c) (hpos : 0 < queue.times c)
    (hnow : countNow c.pair = c.count) (h : accept c.pair = false) :
    next countNow accept queue =
      { next countNow accept (queue.drop c) with
        shown := c.pair :: (next countNow accept (queue.drop c)).shown } := by
  have hskip {queue : Candidates N} (hc : queue.minKey? = some c) :
      next countNow accept queue =
        { next countNow accept (queue.erase c) with
          shown := List.replicate (queue.times c) c.pair ++
            (next countNow accept (queue.erase c)).shown } := by
    rw [next_eq, hc]
    simp [hnow, h]
  obtain ⟨n, hn⟩ := Nat.exists_eq_succ_of_ne_zero (Nat.ne_of_gt hpos)
  cases n with
  | zero =>
    rw [hskip hc, hn, drop_eq_erase (Nat.le_of_eq hn)]
    rfl
  | succ n =>
    rw [hskip hc, hskip (drop_of_times hn hc).1, erase_drop, times_drop, if_pos rfl, hn]
    rfl

/-- If the judge forgets, the hearing is a look with a fixed answer to each pair. -/
theorem next_eq_hear (h : queue.Filled) (before : List Pair) :
    next countNow accept queue = (hear countNow (fun _ => accept) before queue).toOffer := by
  fun_induction hear countNow (fun _ => accept) before queue with
  | case1 before queue hnone =>
    rw [next_eq, hnone]
    rfl
  | case2 before queue c hc hstale ih => rw [next_of_outdated hc hstale, ih (h.drop c)]
  | case3 before queue c hc hnow hjudge =>
    rw [next_eq, hc]
    simp only [hnow, hjudge, ↓reduceIte]
    rfl
  | case4 before queue c hc hnow hjudge later ih =>
    rw [next_of_refused hc (h c (Std.ExtTreeMap.minKey?_mem hc)) (Decidable.not_not.1 hnow)
      (Bool.not_eq_true _ ▸ hjudge), ih (h.drop c)]
    rfl

end Forgetful

end Candidates

namespace Tally

variable {N : Type} [Ord N] [Std.TransOrd N] [Std.LawfulEqOrd N] [DecidableEq N] [OfNat N 0]

/-- The look for the best pair, by a judge who may remember what he refused. -/
def hear (t : Tally N) (judge : Judge) : Candidates.Hearing N := t.queue.hear t.count judge []

/-- The tally after the look. -/
def afterHearing (t : Tally N) (judge : Judge) : Tally N :=
  { t with queue := (t.hear judge).behind }

section Forgetful

variable {t : Tally N} (h : t.queue.Filled) (accept : Pair → Bool)

include h

theorem pop_eq :
    t.pop accept = ⟨(t.hear fun _ => accept).best?, (t.hear fun _ => accept).shown,
      t.afterHearing fun _ => accept⟩ := by
  rw [pop, Candidates.next_eq_hear h []]
  rfl

theorem best?_hear : (t.hear fun _ => accept).best? = (t.pop accept).best? := by
  rw [pop_eq h]

theorem shown_hear : (t.hear fun _ => accept).shown = (t.pop accept).shown := by
  rw [pop_eq h]

theorem afterHearing_eq : (t.afterHearing fun _ => accept) = (t.pop accept).rest := by
  rw [pop_eq h]

end Forgetful

end Tally

end BytePair
