import BytePair.Proofs.Counting
import BytePair.Proofs.Merging
import BytePair.Proofs.Offers
import BytePair.Tally

/-!
# What a tally takes over

Changes go through a draft, which nets them per pair and notes the sequences that gain a pair, and
then into the tally, which touches the pairs with a net change only.

* `Tally.Draft.noteAll`: a draft with a list of changes; `netOf_noteAll`, `mem_holders_noteAll`.
* `Tally.mem_queue_ofCensus`: the candidates of a tally before any changes.
* `Tally.count_settle`, `mem_counts_settle`, `mem_sequencesWith_settle`, `mem_queue_settle`: the
  four views of a tally after a draft.
-/

namespace BytePair.Tally

open Sequence (netChange)

/-! ## Drafts -/

namespace Draft

variable {N : Type} [Add N] [OfNat N 0] [LT N] [DecidableLT N] {d : Draft N} {p q : Pair}
  {i j : Nat}

/-- What the changes so far add up to for the pair `q`. -/
def netOf (d : Draft N) (q : Pair) : N := d.net.getD q 0

/-- The draft with more changes, in their order. -/
def noteAll (d : Draft N) (changes : List (PlacedChange N)) : Draft N :=
  changes.foldl (fun d (c, i) => d.note i c) d

theorem noteAll_append (d : Draft N) (xs ys : List (PlacedChange N)) :
    d.noteAll (xs ++ ys) = (d.noteAll xs).noteAll ys :=
  List.foldl_append

theorem netOf_note (i : Nat) (d : Draft N) (c : Change N) (q : Pair) :
    (d.note i c).netOf q = if c.pair = q then d.netOf q + c.delta else d.netOf q :=
  Census.getD_raise _ _ _ _

theorem mem_holders_note {c : Change N} :
    j ∈ (d.note i c).holders.getD q ∅ ↔
      j ∈ d.holders.getD q ∅ ∨ i = j ∧ c.pair = q ∧ 0 < c.delta := by
  unfold note
  by_cases h : 0 < c.delta
  · simp only [h, ↓reduceIte, Census.mem_addHolder, and_true]
    rw [and_comm]
  · simp [h]

theorem netOf_noteAll (d : Draft Int) (changes : List (PlacedChange Int)) (q : Pair) :
    (d.noteAll changes).netOf q = d.netOf q + netChange (changes.map (·.1)) q := by
  unfold noteAll
  induction changes generalizing d with
  | nil => simp
  | cons x changes ih =>
    rw [List.foldl_cons, ih, netOf_note, List.map_cons, Sequence.netChange_cons]
    split <;> omega

/-- The holders after a draft are those before it and the sequences that gain the pair. -/
theorem mem_holders_noteAll {changes : List (PlacedChange N)} :
    j ∈ (d.noteAll changes).holders.getD q ∅ ↔
      j ∈ d.holders.getD q ∅ ∨ ∃ c, (c, j) ∈ changes ∧ c.pair = q ∧ 0 < c.delta := by
  unfold noteAll
  induction changes generalizing d with
  | nil => simp
  | cons x changes ih =>
    obtain ⟨c, i⟩ := x
    rw [List.foldl_cons, ih, mem_holders_note]
    simp only [List.mem_cons, Prod.mk.injEq]
    grind

end Draft

/-! ## Pairs that move -/

section Fold

variable {N V : Type} {q : Pair} {c : Candidate N}
  {f : Std.ExtTreeMap Pair V → Candidate N → Std.ExtTreeMap Pair V}
  {g : Candidate N → Option V → Option V}
  (hf : ∀ m c q, (f m c)[q]? = if c.pair = q then g c m[q]? else m[q]?)

include hf

theorem getElem?_foldl_of_notMem {l : List (Candidate N)} (h : ∀ c ∈ l, c.pair ≠ q)
    (m : Std.ExtTreeMap Pair V) : (l.foldl f m)[q]? = m[q]? := by
  induction l generalizing m with
  | nil => rfl
  | cons c l ih =>
    rw [List.foldl_cons, ih fun d hd => h d (List.mem_cons_of_mem _ hd), hf,
      if_neg (h c List.mem_cons_self)]

/-- When every pair is changed once, its value is changed by the one candidate that has it. -/
theorem getElem?_foldl_of_mem {l : List (Candidate N)} (hl : l.Pairwise fun a b => a.pair ≠ b.pair)
    (hc : c ∈ l) (m : Std.ExtTreeMap Pair V) : (l.foldl f m)[c.pair]? = g c m[c.pair]? := by
  induction l generalizing m with
  | nil => simp at hc
  | cons d l ih =>
    obtain ⟨hd, hl⟩ := List.pairwise_cons.1 hl
    rw [List.foldl_cons]
    rcases List.mem_cons.1 hc with rfl | hc
    · rw [getElem?_foldl_of_notMem hf fun e he h => hd e he h.symm, hf, if_pos rfl]
    · rw [ih hl hc, hf, if_neg (hd c hc)]

end Fold

variable {N : Type} [Ord N] [Add N] [OfNat N 0] [DecidableEq N] {t : Tally N} {d : Draft N}
  {p q : Pair} {i j : Nat} {c : Candidate N}

/-- The count of a pair after a draft, before it is cut off at zero. -/
def countAfter (t : Tally N) (d : Draft N) (q : Pair) : N := t.count q + d.netOf q

theorem mem_moved : c ∈ t.moved d ↔ d.netOf c.pair ≠ 0 ∧ c.count = t.countAfter d c.pair := by
  obtain ⟨n, q⟩ := c
  simp only [moved, List.mem_map, List.mem_filter, decide_eq_true_eq, Prod.exists,
    Std.ExtTreeMap.mem_toList_iff_getElem?_eq_some, Candidate.mk.injEq, countAfter, Draft.netOf,
    Std.ExtTreeMap.getD_eq_getD_getElem?]
  constructor
  · rintro ⟨p, delta, ⟨hp, hdelta⟩, rfl, rfl⟩
    rw [hp]
    exact ⟨hdelta, rfl⟩
  · rintro ⟨hnet, rfl⟩
    cases h : d.net[q]? with
    | none => simp [h] at hnet
    | some delta => exact ⟨q, delta, ⟨h, by simpa [h] using hnet⟩, rfl, rfl⟩

theorem pairwise_moved (t : Tally N) (d : Draft N) :
    (t.moved d).Pairwise fun a b => a.pair ≠ b.pair := by
  refine List.pairwise_map.2 (List.Pairwise.filter _ ?_)
  refine Std.ExtTreeMap.distinct_keys_toList.imp fun {a b} h hab => h ?_
  simp only at hab
  simp [hab]

/-! ## The first candidates -/

variable [Std.TransOrd N] [LT N] [DecidableLT N]

omit [Add N] [DecidableEq N] in
/-- At the start every pair that occurs waits. -/
theorem mem_queue_ofCensus [Std.LawfulEqOrd N] {census : Census N} :
    c ∈ (ofCensus census).queue ↔ census.counts[c.pair]? = some c.count ∧ 0 < c.count := by
  obtain ⟨n, p⟩ := c
  refine Candidates.mem_ofList.trans ?_
  simp only [List.mem_filter, List.mem_map, decide_eq_true_eq, Prod.exists, Candidate.mk.injEq,
    Std.ExtTreeMap.mem_toList_iff_getElem?_eq_some]
  constructor
  · rintro ⟨⟨p, n, hp, rfl, rfl⟩, hpos⟩
    exact ⟨hp, hpos⟩
  · rintro ⟨hp, hpos⟩
    exact ⟨⟨p, n, hp, rfl, rfl⟩, hpos⟩

/-! ## The tally after a draft -/

theorem getElem?_counts_settle (t : Tally N) (d : Draft N) (q : Pair) :
    (t.settle d).counts[q]? =
      if d.netOf q = 0 then t.counts[q]?
      else if 0 < t.countAfter d q then some (t.countAfter d q) else none := by
  have hf (m : Std.ExtTreeMap Pair N) (c : Candidate N) (q : Pair) :
      (if 0 < c.count then m.insert c.pair c.count else m.erase c.pair)[q]? =
        if c.pair = q then (if 0 < c.count then some c.count else none) else m[q]? := by
    by_cases h : 0 < c.count <;>
      simp only [h, ↓reduceIte, Std.ExtTreeMap.getElem?_insert, Std.ExtTreeMap.getElem?_erase,
        Std.LawfulEqCmp.compare_eq_iff_eq]
  by_cases h : d.netOf q = 0
  · rw [if_pos h]
    refine getElem?_foldl_of_notMem (g := fun c _ => if 0 < c.count then some c.count else none)
      hf (fun c hc hq => ?_) t.counts
    exact (mem_moved.1 hc).1 (by rw [hq, h])
  · rw [if_neg h]
    exact getElem?_foldl_of_mem (g := fun c _ => if 0 < c.count then some c.count else none)
      (c := ⟨t.countAfter d q, q⟩) hf (pairwise_moved t d) (mem_moved.2 ⟨h, rfl⟩) t.counts

theorem count_settle (t : Tally N) (d : Draft N) (q : Pair) :
    (t.settle d).count q =
      if d.netOf q = 0 then t.count q
      else if 0 < t.countAfter d q then t.countAfter d q else 0 := by
  rw [Census.count, Std.ExtTreeMap.getD_eq_getD_getElem?, getElem?_counts_settle, Census.count,
    Std.ExtTreeMap.getD_eq_getD_getElem?]
  split
  · rfl
  · split <;> rfl

theorem mem_counts_settle :
    q ∈ (t.settle d).counts ↔ if d.netOf q = 0 then q ∈ t.counts else 0 < t.countAfter d q := by
  simp only [Std.ExtTreeMap.mem_iff_isSome_getElem?, getElem?_counts_settle]
  split
  · rfl
  · split <;> simp_all

/-- A pair whose count is used up has no holders any more. The others keep those of the draft. -/
theorem mem_sequencesWith_settle :
    j ∈ (t.settle d).sequencesWith q ↔
      j ∈ d.holders.getD q ∅ ∧ (d.netOf q = 0 ∨ 0 < t.countAfter d q) := by
  have hf (m : Std.ExtTreeMap Pair (Std.ExtTreeSet Nat)) (c : Candidate N) (q : Pair) :
      (if 0 < c.count then m else m.erase c.pair)[q]? =
        if c.pair = q then (if 0 < c.count then m[q]? else none) else m[q]? := by
    by_cases h : 0 < c.count <;>
      simp only [h, ↓reduceIte, Std.ExtTreeMap.getElem?_erase, Std.LawfulEqCmp.compare_eq_iff_eq,
        ite_self]
  have hholders : (t.settle d).holders[q]? =
      if d.netOf q = 0 ∨ 0 < t.countAfter d q then d.holders[q]? else none := by
    by_cases h : d.netOf q = 0
    · rw [if_pos (.inl h)]
      refine getElem?_foldl_of_notMem (g := fun c v => if 0 < c.count then v else none) hf
        (fun c hc hq => ?_) d.holders
      exact (mem_moved.1 hc).1 (by rw [hq, h])
    · simp only [h, false_or]
      exact getElem?_foldl_of_mem (g := fun c v => if 0 < c.count then v else none)
        (c := ⟨t.countAfter d q, q⟩) hf (pairwise_moved t d) (mem_moved.2 ⟨h, rfl⟩) d.holders
  rw [Census.mem_sequencesWith, Std.ExtTreeMap.getD_eq_getD_getElem?, hholders,
    Std.ExtTreeMap.getD_eq_getD_getElem?]
  split <;> simp_all

/-- A pair whose count moves waits with its new count, if that is positive. -/
theorem mem_queue_settle [Std.LawfulEqOrd N] :
    c ∈ (t.settle d).queue ↔
      c ∈ t.queue ∨ d.netOf c.pair ≠ 0 ∧ c.count = t.countAfter d c.pair ∧ 0 < c.count := by
  have h : c ∈ (t.settle d).queue ↔ c ∈ t.queue ∨ c ∈ (t.moved d).filter (0 < ·.count) :=
    Candidates.mem_add
  rw [h, List.mem_filter, mem_moved, decide_eq_true_eq, and_assoc]

end BytePair.Tally
