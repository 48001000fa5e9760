import BytePair.Sequence
import Mathlib.Algebra.Ring.Int.Defs

/-!
# What a merge does to the pairs of a sequence

A merge writes its result from left to right. Halfway there is a list in between: what is written,
followed by what is still to be read. Every replacement turns one such list into the next one, and
the changes it reports are the difference between the pairs of the two.

* `netChange`: what a list of changes adds up to for one pair.
* `count_adjacentPairs_merge`: the report of a merge is the difference between the pair counts
  after and before it.
* `gain_of_mem_adjacentPairs_merge`: a pair that was not there before is reported with a gain.
* `merge_of_notMem`: where the pair does not stand, nothing happens and nothing is reported.
-/

namespace BytePair

/-! ## Pairs around one place -/

theorem adjacentPairs_append_cons (xs : List TokenId) (y : TokenId) (ys : List TokenId) :
    adjacentPairs (xs ++ y :: ys) = adjacentPairs (xs ++ [y]) ++ adjacentPairs (y :: ys) := by
  induction xs with
  | nil => rfl
  | cons x xs ih => cases xs with
    | nil => rfl
    | cons z zs => simpa using ih

theorem adjacentPairs_cons (x : TokenId) (ys : List TokenId) :
    adjacentPairs (x :: ys) = ys.head?.toList.map (⟨x, ·⟩) ++ adjacentPairs ys := by
  cases ys <;> rfl

theorem adjacentPairs_reverse_append_singleton (xs : List TokenId) (y : TokenId) :
    adjacentPairs (xs.reverse ++ [y]) =
      adjacentPairs xs.reverse ++ xs.head?.toList.map (⟨·, y⟩) := by
  cases xs with
  | nil => rfl
  | cons x xs =>
    have h := adjacentPairs_append_cons xs.reverse x [y]
    simpa using h

/-- The pairs of a list around one of its tokens; the tokens before it are given in reverse. -/
theorem adjacentPairs_reverse_append_cons (xs : List TokenId) (y : TokenId) (ys : List TokenId) :
    adjacentPairs (xs.reverse ++ y :: ys) =
      adjacentPairs xs.reverse ++ xs.head?.toList.map (⟨·, y⟩) ++
        (ys.head?.toList.map (⟨y, ·⟩) ++ adjacentPairs ys) := by
  rw [adjacentPairs_append_cons, adjacentPairs_reverse_append_singleton, adjacentPairs_cons]

/-- Fewer than two tokens make no pair. -/
theorem adjacentPairs_eq_nil {xs : List TokenId} (h : ∀ x y rest, xs = x :: y :: rest → False) :
    adjacentPairs xs = [] := by
  match xs with
  | [] => rfl
  | [_] => rfl
  | x :: y :: rest => exact (h x y rest rfl).elim

/-- A pair stands at the front of a list or behind its first token. -/
theorem mem_adjacentPairs_cons {x : TokenId} {xs : List TokenId} {p : Pair} :
    p ∈ adjacentPairs (x :: xs) ↔ x = p.left ∧ xs.head? = some p.right ∨ p ∈ adjacentPairs xs := by
  obtain ⟨l, r⟩ := p
  rw [adjacentPairs_cons, List.mem_append]
  refine or_congr_left ?_
  cases xs with
  | nil => simp
  | cons y xs =>
    simp only [List.head?_cons, Option.toList_some, List.map_cons, List.map_nil,
      List.mem_singleton, Pair.mk.injEq, Option.some_inj]
    rw [eq_comm, eq_comm (a := y)]

theorem mem_of_mem_adjacentPairs {xs : List TokenId} {p : Pair} (h : p ∈ adjacentPairs xs) :
    p.left ∈ xs ∧ p.right ∈ xs := by
  induction xs with
  | nil => simp at h
  | cons x xs ih =>
    rcases mem_adjacentPairs_cons.1 h with ⟨rfl, hright⟩ | h
    · exact ⟨List.mem_cons_self, List.mem_cons_of_mem _ (List.mem_of_head? hright)⟩
    · exact ⟨List.mem_cons_of_mem _ (ih h).1, List.mem_cons_of_mem _ (ih h).2⟩

namespace Sequence

/-! ## Net changes -/

/-- What the changes add up to for the pair `q`. -/
def netChange (cs : List (Change Int)) (q : Pair) : Int :=
  (cs.map fun c => if c.pair = q then c.delta else 0).sum

@[simp]
theorem netChange_nil (q : Pair) : netChange [] q = 0 := rfl

@[simp]
theorem netChange_cons (c : Change Int) (cs : List (Change Int)) (q : Pair) :
    netChange (c :: cs) q = (if c.pair = q then c.delta else 0) + netChange cs q := rfl

theorem netChange_append (cs ds : List (Change Int)) (q : Pair) :
    netChange (cs ++ ds) q = netChange cs q + netChange ds q := by
  simp [netChange]

/-! ## One replacement -/

variable {p q : Pair} {new : TokenId}

/-- A replacement changes the pairs of the list in between by just what it reports. -/
theorem count_replacement (p : Pair) (new : TokenId) (q : Pair) (written behind : List TokenId) :
    ((adjacentPairs (written.reverse ++ new :: behind)).count q : Int) =
      (adjacentPairs (written.reverse ++ p.left :: p.right :: behind)).count q +
        netChange (replacementChanges p new written.head? behind.head?) q := by
  obtain ⟨a, b⟩ := p
  simp only [adjacentPairs_reverse_append_cons, adjacentPairs_cons b, List.head?_cons,
    Option.toList_some, List.map_cons, List.map_nil, List.count_append, List.count_cons,
    List.count_nil, beq_iff_eq]
  cases written.head? <;> cases behind.head? <;>
    simp only [replacementChanges, netChange_cons, netChange_nil, Option.toList_none,
      Option.toList_some, List.map_nil, List.map_cons, List.count_nil, List.count_cons,
      beq_iff_eq] <;>
    grind

/-- A pair that a replacement brings into the list in between is reported with a gain. -/
theorem gain_of_mem_replacement {written behind : List TokenId}
    (h : q ∈ adjacentPairs (written.reverse ++ new :: behind)) :
    q ∈ adjacentPairs (written.reverse ++ p.left :: p.right :: behind) ∨
      ⟨q, 1⟩ ∈ replacementChanges p new written.head? behind.head? := by
  simp only [adjacentPairs_reverse_append_cons, adjacentPairs_cons p.right, List.mem_append] at h ⊢
  rcases h with (h | h) | h | h
  · exact .inl (.inl (.inl h))
  · refine .inr ?_
    cases hw : written.head? with
    | none => simp [hw] at h
    | some w => cases behind.head? <;> simp_all [replacementChanges]
  · refine .inr ?_
    cases hb : behind.head? with
    | none => simp [hb] at h
    | some b => cases written.head? <;> simp_all [replacementChanges]
  · exact .inl (.inr (.inr (.inr h)))

/-! ## A whole merge -/

/-- What every replacement keeps true of the list in between and the changes so far, a merge keeps
true. -/
theorem mergeOnto_keeps {σ : Type} {step : σ → Change Int → σ} {motive : Sequence → σ → Prop}
    (keeps : ∀ (written behind : List TokenId) acc,
      motive (written.reverse ++ p.left :: p.right :: behind) acc →
      motive (written.reverse ++ new :: behind)
        ((replacementChanges p new written.head? behind.head?).foldl step acc))
    (written : List TokenId) (acc : σ) (s : Sequence) (start : motive (written.reverse ++ s) acc) :
    motive (mergeOnto p new step written acc s).1 (mergeOnto p new step written acc s).2 := by
  fun_induction mergeOnto p new step written acc s with
  | case1 => simpa using start
  | case2 => simpa using start
  | case3 written acc behind ih =>
    refine ih ?_
    have h := keeps written behind acc start
    simpa using h
  | case4 written acc y behind hy ih => exact ih (by simpa using start)
  | case5 written acc x rest hx ih => exact ih (by simpa using start)

/-- Induction along a merge: its replacements one after another, each with the changes that it
reports. -/
theorem merge_keeps {motive : Sequence → List (Change Int) → Prop} {s : Sequence}
    (start : motive s [])
    (keeps : ∀ (written behind : List TokenId) cs,
      motive (written.reverse ++ p.left :: p.right :: behind) cs →
      motive (written.reverse ++ new :: behind)
        (cs ++ replacementChanges p new written.head? behind.head?)) :
    motive (merge p new s).1 (merge p new s).2 := by
  show motive (mergeOnto p new (fun cs c => c :: cs) [] [] s).1
    (mergeOnto p new (fun cs c => c :: cs) [] [] s).2.reverse
  refine mergeOnto_keeps (motive := fun s (cs : List (Change Int)) => motive s cs.reverse)
    ?_ [] [] s start
  intro written behind cs h
  simpa using keeps written behind cs.reverse h

/-- The report of a merge adds up to the difference between the pair counts after and before. -/
theorem count_adjacentPairs_merge (p : Pair) (new : TokenId) (s : Sequence) (q : Pair) :
    ((adjacentPairs (merge p new s).1).count q : Int) =
      (adjacentPairs s).count q + netChange (merge p new s).2 q := by
  refine merge_keeps (motive := fun t cs =>
    ((adjacentPairs t).count q : Int) = (adjacentPairs s).count q + netChange cs q) (by simp) ?_
  intro written behind cs h
  have hr := count_replacement p new q written behind
  rw [netChange_append]
  omega

/-- A pair that stands in the result and did not stand in the sequence is reported with a gain. -/
theorem gain_of_mem_adjacentPairs_merge {s : Sequence} (h : q ∈ adjacentPairs (merge p new s).1)
    (hs : q ∉ adjacentPairs s) : ∃ c ∈ (merge p new s).2, c.pair = q ∧ 0 < c.delta := by
  have hgain : q ∈ adjacentPairs (merge p new s).1 → ⟨q, 1⟩ ∈ (merge p new s).2 := by
    refine merge_keeps (motive := fun t cs => q ∈ adjacentPairs t → ⟨q, 1⟩ ∈ cs)
      (fun h => absurd h hs) ?_
    intro written behind cs ih hq
    rcases gain_of_mem_replacement hq with hq | hq
    · exact List.mem_append_left _ (ih hq)
    · exact List.mem_append_right _ hq
  exact ⟨⟨q, 1⟩, hgain h, rfl, Int.one_pos⟩

/-- Where the pair does not stand, nothing is replaced and nothing is reported. -/
theorem merge_of_notMem {s : Sequence} (h : p ∉ adjacentPairs s) (new : TokenId) :
    merge p new s = (s, []) := by
  have hkept : (merge p new s).1 = s ∧ (merge p new s).2 = [] := by
    refine merge_keeps (motive := fun t cs => t = s ∧ cs = []) ⟨rfl, rfl⟩ ?_
    rintro written behind cs ⟨hs, -⟩
    refine absurd ?_ h
    rw [← hs, adjacentPairs_reverse_append_cons, adjacentPairs_cons]
    simp
  exact Prod.ext hkept.1 hkept.2

/-! ## What a replacement leaves -/

theorem replace_of_notMem {s : Sequence} (h : p ∉ adjacentPairs s) (new : TokenId) :
    replace p new s = s := by
  rw [← merge_fst, merge_of_notMem h]

theorem eq_or_mem_of_mem_replace {s : Sequence} {x : TokenId} (h : x ∈ replace p new s) :
    x = new ∨ x ∈ s := by
  fun_induction replace p new s with
  | case1 x y rest _ ih => grind
  | case2 x y rest _ ih => grind
  | case3 => exact .inr h

theorem length_replace_le (p : Pair) (new : TokenId) (s : Sequence) :
    (replace p new s).length ≤ s.length := by
  fun_induction replace p new s with
  | case1 x y rest _ ih => simp only [List.length_cons]; omega
  | case2 x y rest _ ih => simpa using ih
  | case3 => exact Nat.le_refl _

/-- Where the pair stands, a replacement makes the sequence shorter. -/
theorem length_replace_lt {s : Sequence} (h : p ∈ adjacentPairs s) (new : TokenId) :
    (replace p new s).length < s.length := by
  fun_induction replace p new s with
  | case1 x y rest _ ih =>
    have := length_replace_le p new rest
    simp only [List.length_cons]
    omega
  | case2 x y rest hne ih =>
    rw [adjacentPairs_cons_cons, List.mem_cons] at h
    rcases h with rfl | h
    · exact absurd ⟨rfl, rfl⟩ hne
    · simpa using ih h
  | case3 s hs =>
    rw [adjacentPairs_eq_nil hs] at h
    exact absurd h List.not_mem_nil

theorem head?_replace (p : Pair) (new : TokenId) (s : Sequence) :
    (replace p new s).head? = s.head? ∨ (replace p new s).head? = some new := by
  unfold replace
  split
  · split
    · exact .inr rfl
    · exact .inl rfl
  · exact .inl rfl

/-- A pair does not come back while it is replaced by a token that it does not have. -/
theorem notMem_adjacentPairs_replace (hleft : new ≠ p.left) (hright : new ≠ p.right)
    (s : Sequence) : p ∉ adjacentPairs (replace p new s) := by
  fun_induction replace p new s with
  | case1 x y rest _ ih =>
    rw [mem_adjacentPairs_cons]
    rintro (⟨h, -⟩ | h)
    · exact hleft h
    · exact ih h
  | case2 x y rest hne ih =>
    rw [mem_adjacentPairs_cons]
    rintro (⟨hx, hhead⟩ | h)
    · rcases head?_replace p new (y :: rest) with hy | hy
      · rw [hhead, List.head?_cons, Option.some_inj] at hy
        exact hne ⟨hx, hy.symm⟩
      · rw [hhead, Option.some_inj] at hy
        exact hright hy.symm
    · exact ih h
  | case3 s hs =>
    rw [adjacentPairs_eq_nil hs]
    exact List.not_mem_nil

end Sequence

end BytePair
