import BytePair.Proofs.Replay

/-!
# What a merge replaces and reports

A merge goes through a sequence once, from left to right. What it has to leave can be said without a
way to go: the pair is replaced at its leftmost place, and behind that place everything starts anew.

* `Sequence.Replaced`: the greedy replacement of a pair, told by the places where the pair stands.
* `Sequence.replaced_iff`: `Sequence.replace` is this replacement, and there is no other one.
* `Sequence.merge_replaces_and_reports`: a merge leaves it, and reports exactly how the counts of
  the pairs have moved.
-/

namespace BytePair.Sequence

variable {p : Pair} {new x : TokenId} {s t before behind : Sequence}

/-! ## The leftmost place -/

/-- The second sequence is the first one with the pair replaced by `new`: at its leftmost place, where
no token before the place begins a pair, and then in the same way behind it. -/
inductive Replaced (p : Pair) (new : TokenId) : Sequence → Sequence → Prop
  | nowhere {s : Sequence} (hnone : p ∉ adjacentPairs s) : Replaced p new s s
  | leftmost {before behind replaced : Sequence} (hbefore : p ∉ adjacentPairs (before ++ [p.left]))
    (later : Replaced p new behind replaced) :
    Replaced p new (before ++ p.left :: p.right :: behind) (before ++ new :: replaced)

/-- What follows the first token of a place does not matter to the tokens before it. -/
theorem head?_append_cons (before behind : Sequence) (x : TokenId) :
    (before ++ x :: behind).head? = (before ++ [x]).head? := by
  cases before <;> rfl

/-- A token with which no pair begins can be put before a replacement. -/
theorem Replaced.cons (h : Replaced p new s t) (hx : ¬(x = p.left ∧ s.head? = some p.right)) :
    Replaced p new (x :: s) (x :: t) := by
  cases h with
  | nowhere hnone =>
    refine .nowhere fun hp => ?_
    exact (mem_adjacentPairs_cons.1 hp).elim hx hnone
  | @leftmost before behind replaced hbefore later =>
    rw [head?_append_cons] at hx
    refine @Replaced.leftmost p new (x :: before) behind replaced (fun hp => ?_) later
    exact (mem_adjacentPairs_cons.1 hp).elim hx hbefore

/-- The replacement goes on to the leftmost place and replaces the pair there. -/
theorem replace_append_of_leftmost (hbefore : p ∉ adjacentPairs (before ++ [p.left]))
    (new : TokenId) (behind : Sequence) :
    replace p new (before ++ p.left :: p.right :: behind) = before ++ new :: replace p new behind := by
  induction before with
  | nil => exact replace_pair p new behind
  | cons x before ih =>
    rw [List.cons_append, mem_adjacentPairs_cons, not_or] at hbefore
    obtain ⟨hx, hbefore⟩ := hbefore
    rw [← head?_append_cons before (p.right :: behind)] at hx
    rw [List.cons_append, replace_cons_of_not hx, ih hbefore, List.cons_append]

/-- `replace` is the greedy replacement, and there is no other one. -/
theorem replaced_iff : Replaced p new s t ↔ t = replace p new s := by
  constructor
  · intro h
    induction h with
    | nowhere hnone => exact (replace_of_notMem hnone new).symm
    | leftmost hbefore _ ih => rw [replace_append_of_leftmost hbefore, ih]
  · rintro rfl
    fun_induction replace p new s with
    | case1 x y rest hxy ih =>
      obtain ⟨rfl, rfl⟩ := hxy
      exact @Replaced.leftmost p new [] rest _ List.not_mem_nil ih
    | case2 x y rest hxy ih => exact ih.cons (by simpa using hxy)
    | case3 s hs =>
      refine .nowhere ?_
      rw [adjacentPairs_eq_nil hs]
      exact List.not_mem_nil

/-! ## The report -/

/-- **What a merge replaces and reports.** For any pair and any token in its place, a merge leaves the
greedy replacement and nothing else. Its report adds up, for every pair, to the difference between the
counts after and before; a pair that was not there before is reported with a gain. Where the merged
pair does not stand, the sequence stays and the report is empty. -/
theorem merge_replaces_and_reports (p : Pair) (new : TokenId) (s : Sequence) :
    let after := (merge p new s).1
    let report := (merge p new s).2
    (∀ t, Replaced p new s t ↔ t = after) ∧
      (∀ q, netChange report q = (adjacentPairs after).count q - (adjacentPairs s).count q) ∧
      (∀ q ∈ adjacentPairs after, q ∉ adjacentPairs s → ∃ c ∈ report, c.pair = q ∧ 0 < c.delta) ∧
      (p ∉ adjacentPairs s → after = s ∧ report = []) := by
  intro after report
  refine ⟨fun t => ?_, fun q => ?_, fun q hq hs => ?_, fun hnone => ?_⟩
  · have hafter : after = replace p new s := merge_fst p new s
    rw [hafter]
    exact replaced_iff
  · have hcount : ((adjacentPairs after).count q : Int) =
        (adjacentPairs s).count q + netChange report q := count_adjacentPairs_merge p new s q
    omega
  · exact gain_of_mem_adjacentPairs_merge hq hs
  · have hmerge := merge_of_notMem hnone new
    exact ⟨congrArg Prod.fst hmerge, congrArg Prod.snd hmerge⟩

/-- In a run of one token the places overlap. The pair of the new token and the old one stands only
halfway, in what is written and still to be read: it is reported as gained and as lost again. -/
example : merge ⟨1, 1⟩ 5 [1, 1, 1, 1] = ([5, 5],
    [⟨⟨1, 1⟩, -1⟩, ⟨⟨1, 1⟩, -1⟩, ⟨⟨5, 1⟩, 1⟩,
      ⟨⟨1, 1⟩, -1⟩, ⟨⟨5, 1⟩, -1⟩, ⟨⟨5, 5⟩, 1⟩]) := by
  decide

end BytePair.Sequence
