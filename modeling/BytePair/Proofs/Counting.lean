import BytePair.Tally.Census

/-!
# What a census counts

* `Census.countTo`: a natural number in the numbers that the census counts in.
* `Census.Describes`: a census belongs to a list of sequences with their positions: it has their
  pair counts, just the pairs that occur, and for every pair the positions that hold it.
* `Census.Describes.union`: two groups together are described by the union.
* `Census.describes_ofSequences`: counting one by one or by halves describes all sequences.
-/

namespace BytePair

namespace Census

variable {N : Type} [Add N] [OfNat N 0]

/-! ## Counts and holders as maps -/

theorem mem_raise {counts : Std.ExtTreeMap Pair N} {p q : Pair} {n : N} :
    q ∈ raise counts p n ↔ q ∈ counts ∨ p = q := by
  rw [raise, Std.ExtTreeMap.mem_alter]
  by_cases h : p = q <;> simp [h]

theorem mem_addHolder {holders : Std.ExtTreeMap Pair (Std.ExtTreeSet Nat)} {p q : Pair}
    {i j : Nat} :
    j ∈ (addHolder holders p i).getD q ∅ ↔ j ∈ holders.getD q ∅ ∨ p = q ∧ i = j := by
  simp only [addHolder, Std.ExtTreeMap.getD_eq_getD_getElem?, Std.ExtTreeMap.getElem?_alter]
  by_cases h : p = q
  · subst h
    simp [or_comm]
  · simp [h]

theorem mem_foldl_raise {l : List (Pair × N)} {counts : Std.ExtTreeMap Pair N} {q : Pair} :
    q ∈ l.foldl (fun m e => raise m e.1 e.2) counts ↔ q ∈ counts ∨ ∃ e ∈ l, e.1 = q := by
  induction l generalizing counts with
  | nil => simp
  | cons e l ih =>
    rw [List.foldl_cons, ih, mem_raise]
    simp [or_assoc]

theorem getD_foldl_raise_of_ne {l : List (Pair × N)} {q : Pair} (h : ∀ e ∈ l, e.1 ≠ q)
    (counts : Std.ExtTreeMap Pair N) :
    (l.foldl (fun m e => raise m e.1 e.2) counts).getD q 0 = counts.getD q 0 := by
  induction l generalizing counts with
  | nil => rfl
  | cons e l ih =>
    rw [List.foldl_cons, ih fun d hd => h d (List.mem_cons_of_mem _ hd), getD_raise,
      if_neg (h e List.mem_cons_self)]

theorem getD_foldl_raise_of_mem {l : List (Pair × N)}
    (hl : l.Pairwise fun a b => ¬compare a.1 b.1 = .eq) {q : Pair} {n : N} (h : (q, n) ∈ l)
    (counts : Std.ExtTreeMap Pair N) :
    (l.foldl (fun m e => raise m e.1 e.2) counts).getD q 0 = counts.getD q 0 + n := by
  induction l generalizing counts with
  | nil => simp at h
  | cons e l ih =>
    obtain ⟨he, hl⟩ := List.pairwise_cons.1 hl
    rw [List.foldl_cons]
    rcases List.mem_cons.1 h with rfl | h
    · rw [getD_foldl_raise_of_ne fun d hd hq => he d hd (by simp [hq]), getD_raise, if_pos rfl]
    · have hne : e.1 ≠ q := fun hq => he _ h (by simp [hq])
      rw [ih hl h, getD_raise, if_neg hne]

/-- The entries of a map raise every count by its own, since a pair has at most one. -/
theorem getD_foldl_raise_toList [Std.LawfulIdentity (fun a b : N => a + b) 0]
    (counts more : Std.ExtTreeMap Pair N) (q : Pair) :
    (more.toList.foldl (fun m e => raise m e.1 e.2) counts).getD q 0 =
      counts.getD q 0 + more.getD q 0 := by
  rw [Std.ExtTreeMap.getD_eq_getD_getElem? (t := more)]
  cases h : more[q]? with
  | some n =>
    exact getD_foldl_raise_of_mem Std.ExtTreeMap.distinct_keys_toList
      (Std.ExtTreeMap.mem_toList_iff_getElem?_eq_some.2 h) counts
  | none =>
    have hnone : counts.getD q 0 + 0 = counts.getD q 0 := Std.LawfulRightIdentity.right_id _
    rw [Option.getD_none, hnone]
    refine getD_foldl_raise_of_ne (fun e he hq => ?_) counts
    have := Std.ExtTreeMap.mem_toList_iff_getElem?_eq_some.1 (show (e.1, e.2) ∈ _ from he)
    rw [hq, h] at this
    cases this

variable {c d : Census N} {p q : Pair} {i j : Nat}

omit [Add N] [OfNat N 0] in
theorem mem_sequencesWith : i ∈ c.sequencesWith p ↔ i ∈ c.holders.getD p ∅ :=
  Std.ExtTreeSet.mem_toList

omit [Add N] [OfNat N 0] in
theorem pairwise_sequencesWith (c : Census N) (p : Pair) : (c.sequencesWith p).Pairwise (· < ·) :=
  Std.ExtTreeSet.ordered_toList.imp fun h => Std.compare_eq_lt.1 h

/-! ## One sequence -/

section

variable [OfNat N 1]

/-- The number that counting comes to after `n` steps. -/
def countTo : Nat → N
  | 0 => 0
  | n + 1 => 1 + countTo n

theorem countTo_int (n : Nat) : countTo n = (n : Int) := by
  induction n with
  | zero => rfl
  | succ n ih =>
    rw [countTo, ih]
    omega

theorem mem_counts_foldl_record {ps : List Pair} :
    q ∈ (ps.foldl (record i) c).counts ↔ q ∈ c.counts ∨ q ∈ ps := by
  induction ps generalizing c with
  | nil => simp
  | cons p ps ih =>
    rw [List.foldl_cons, ih, record, mem_raise, List.mem_cons, or_assoc, eq_comm (a := p)]

theorem mem_holders_foldl_record {ps : List Pair} :
    j ∈ (ps.foldl (record i) c).holders.getD q ∅ ↔ j ∈ c.holders.getD q ∅ ∨ i = j ∧ q ∈ ps := by
  induction ps generalizing c with
  | nil => simp
  | cons p ps ih =>
    rw [List.foldl_cons, ih, record, mem_addHolder, List.mem_cons]
    grind

variable [Std.Associative fun a b : N => a + b] [Std.LawfulIdentity (fun a b : N => a + b) 0]

theorem countTo_add (m n : Nat) : (countTo (m + n) : N) = countTo m + countTo n := by
  induction m with
  | zero =>
    rw [Nat.zero_add, countTo]
    ac_rfl
  | succ m ih =>
    rw [Nat.succ_add, countTo, countTo, ih]
    ac_rfl

theorem count_foldl_record (i : Nat) (c : Census N) (ps : List Pair) (q : Pair) :
    (ps.foldl (record i) c).count q = c.count q + countTo (ps.count q) := by
  induction ps generalizing c with
  | nil =>
    rw [List.foldl_nil, List.count_nil, countTo]
    ac_rfl
  | cons p ps ih =>
    rw [List.foldl_cons, ih, List.count_cons]
    simp only [count, record, getD_raise, beq_iff_eq]
    split
    · rw [countTo]
      ac_rfl
    · rfl

end

/-! ## Two groups -/

theorem count_union [Std.LawfulIdentity (fun a b : N => a + b) 0] (c d : Census N) (q : Pair) :
    (c.union d).count q = c.count q + d.count q := by
  rw [count, union, Std.ExtTreeMap.foldl_eq_foldl_toList]
  exact getD_foldl_raise_toList c.counts d.counts q

theorem mem_counts_union : q ∈ (c.union d).counts ↔ q ∈ c.counts ∨ q ∈ d.counts := by
  simp only [union, Std.ExtTreeMap.foldl_eq_foldl_toList, mem_foldl_raise]
  refine or_congr_right ⟨?_, fun h => ?_⟩
  · rintro ⟨e, he, rfl⟩
    rw [Std.ExtTreeMap.mem_iff_isSome_getElem?, Std.ExtTreeMap.mem_toList_iff_getElem?_eq_some.1 he]
    rfl
  · obtain ⟨n, hn⟩ := Option.isSome_iff_exists.1 (Std.ExtTreeMap.mem_iff_isSome_getElem?.1 h)
    exact ⟨(q, n), Std.ExtTreeMap.mem_toList_iff_getElem?_eq_some.2 hn, rfl⟩

theorem mem_foldl_addHolder {is : List Nat} {holders : Std.ExtTreeMap Pair (Std.ExtTreeSet Nat)} :
    j ∈ (is.foldl (fun m i => addHolder m p i) holders).getD q ∅ ↔
      j ∈ holders.getD q ∅ ∨ p = q ∧ j ∈ is := by
  induction is generalizing holders with
  | nil => simp
  | cons i is ih =>
    rw [List.foldl_cons, ih, mem_addHolder, List.mem_cons]
    grind

theorem mem_foldl_foldl_addHolder {l : List (Pair × Std.ExtTreeSet Nat)}
    {holders : Std.ExtTreeMap Pair (Std.ExtTreeSet Nat)} :
    j ∈ (l.foldl (fun m e => e.2.foldl (fun m i => addHolder m e.1 i) m) holders).getD q ∅ ↔
      j ∈ holders.getD q ∅ ∨ ∃ held, (q, held) ∈ l ∧ j ∈ held := by
  induction l generalizing holders with
  | nil => simp
  | cons e l ih =>
    rw [List.foldl_cons, ih, Std.ExtTreeSet.foldl_eq_foldl_toList, mem_foldl_addHolder]
    obtain ⟨p, held⟩ := e
    simp only [Std.ExtTreeSet.mem_toList, List.mem_cons, Prod.mk.injEq]
    grind

theorem mem_holders_union :
    j ∈ (c.union d).holders.getD q ∅ ↔ j ∈ c.holders.getD q ∅ ∨ j ∈ d.holders.getD q ∅ := by
  simp only [union, Std.ExtTreeMap.foldl_eq_foldl_toList, mem_foldl_foldl_addHolder,
    Std.ExtTreeMap.mem_toList_iff_getElem?_eq_some]
  rw [Std.ExtTreeMap.getD_eq_getD_getElem? (t := d.holders)]
  cases d.holders[q]? <;> simp

/-! ## All sequences -/

variable [OfNat N 1]

/-- The pairs of sequences that stand at some positions, with repetitions. -/
def placedPairs (placed : List (Sequence × Nat)) : List Pair :=
  placed.flatMap fun x => adjacentPairs x.1

/-- The census counts the pairs of these sequences and knows which of them hold a pair. -/
structure Describes (c : Census N) (placed : List (Sequence × Nat)) : Prop where
  count_eq (p : Pair) : c.count p = countTo ((placedPairs placed).count p)
  mem_counts (p : Pair) : p ∈ c.counts ↔ p ∈ placedPairs placed
  held (p : Pair) (i : Nat) :
    i ∈ c.holders.getD p ∅ ↔ ∃ s, (s, i) ∈ placed ∧ p ∈ adjacentPairs s

theorem describes_empty : (empty : Census N).Describes [] where
  count_eq p := by simp [count, empty, placedPairs, countTo]
  mem_counts p := by simp [empty, placedPairs]
  held p i := by simp [empty]

variable [Std.Associative fun a b : N => a + b] [Std.LawfulIdentity (fun a b : N => a + b) 0]

theorem describes_ofSequence (i : Nat) (s : Sequence) :
    (ofSequence i s : Census N).Describes [(s, i)] where
  count_eq p := by
    rw [ofSequence, count_foldl_record, describes_empty.count_eq, ← countTo_add]
    simp [placedPairs]
  mem_counts p := by
    rw [ofSequence, mem_counts_foldl_record, describes_empty.mem_counts]
    simp [placedPairs]
  held p j := by
    rw [ofSequence, mem_holders_foldl_record, describes_empty.held]
    simp only [List.not_mem_nil, false_and, exists_false, false_or, List.mem_singleton,
      Prod.mk.injEq]
    grind

theorem Describes.union {xs ys : List (Sequence × Nat)} (hc : c.Describes xs)
    (hd : d.Describes ys) : (c.union d).Describes (xs ++ ys) where
  count_eq p := by
    rw [count_union, hc.count_eq, hd.count_eq, placedPairs, placedPairs, placedPairs,
      List.flatMap_append, List.count_append, countTo_add]
  mem_counts p := by
    rw [mem_counts_union, hc.mem_counts, hd.mem_counts, placedPairs, placedPairs, placedPairs,
      List.flatMap_append, List.mem_append]
  held p i := by
    rw [mem_holders_union, hc.held, hd.held]
    simp only [List.mem_append, or_and_right, exists_or]

theorem describes_oneByOne (start : Nat) (seqs : List Sequence) :
    (oneByOne start seqs : Census N).Describes (seqs.zipIdx start) := by
  have hfold (placed done : List (Sequence × Nat)) (c : Census N) (hc : c.Describes done) :
      (placed.foldl (fun c x => c.union (ofSequence x.2 x.1)) c).Describes (done ++ placed) := by
    induction placed generalizing done c with
    | nil => simpa using hc
    | cons x placed ih =>
      have hx := hc.union (describes_ofSequence x.2 x.1)
      have h := ih (done ++ [x]) (c.union (ofSequence x.2 x.1)) hx
      simpa using h
  exact hfold _ [] empty describes_empty

theorem describes_byHalves (start : Nat) (seqs : List Sequence) :
    (byHalves start seqs : Census N).Describes (seqs.zipIdx start) := by
  fun_induction @byHalves N _ _ _ start seqs with
  | case1 start => exact describes_empty
  | case2 start s => exact describes_ofSequence start s
  | case3 start s t rest half first second =>
    have h := first.union second
    have hlen : ((s :: t :: rest).take half).length = half := by
      simp only [List.length_take, List.length_cons]
      omega
    rw [← List.take_append_drop half (s :: t :: rest), List.zipIdx_append, hlen]
    simpa using h

/-- Counting one by one and counting by halves describe the same sequences. -/
theorem describes_ofSequences (parallel : Bool) (seqs : Array Sequence) :
    (ofSequences parallel seqs : Census N).Describes seqs.toList.zipIdx := by
  cases parallel with
  | true => exact describes_byHalves 0 seqs.toList
  | false => exact describes_oneByOne 0 seqs.toList

end Census

end BytePair
