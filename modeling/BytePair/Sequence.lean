import BytePair.Token

/-!
# Sequences

A document as a list of tokens. Merging a pair replaces it by one token and reports how the counts
of its adjacent pairs moved, so that nobody has to count again.

* `Sequence.replace`: the greedy replacement of a pair by one token.
* `Sequence.merge`: the same replacement in one tail-recursive pass, with its `Change`s.
* `Sequence.mergeFold`: the same, with the changes folded as they are made instead of listed.
-/

namespace BytePair

/-- A document cut into tokens. -/
abbrev Sequence := List TokenId

/-- A step by which the count of a pair moves. -/
structure Change (N : Type) where
  pair : Pair
  delta : N
  deriving DecidableEq, Repr

namespace Sequence

/-- The pair replaced by `new` wherever it stands, from left to right and without overlaps. -/
def replace (p : Pair) (new : TokenId) : Sequence → Sequence
  | x :: y :: rest =>
    if x = p.left ∧ y = p.right then new :: replace p new rest
    else x :: replace p new (y :: rest)
  | s => s

/-- What one replacement does to the counts: the pair goes, and so do its pairs with the tokens
before and after it; `new` takes their place. -/
def replacementChanges (p : Pair) (new : TokenId) (before? after? : Option TokenId) :
    List (Change Int) :=
  let after : List (Change Int) := match after? with
    | some a => [⟨⟨p.right, a⟩, -1⟩, ⟨⟨new, a⟩, 1⟩]
    | none => []
  ⟨p, -1⟩ ::
    match before? with
    | some b => ⟨⟨b, p.left⟩, -1⟩ :: ⟨⟨b, new⟩, 1⟩ :: after
    | none => after

/-- The rest of a merge, with what it has written so far, newest first, and the changes so far,
folded by `step`. The token before a replacement is the last one written, which may be `new`. -/
def mergeOnto {σ : Type} (p : Pair) (new : TokenId) (step : σ → Change Int → σ)
    (written : List TokenId) (acc : σ) : Sequence → Sequence × σ
  | [] => (written.reverse, acc)
  | x :: rest =>
    if x = p.left then
      match rest with
      | [] => ((x :: written).reverse, acc)
      | y :: behind =>
        if y = p.right then
          mergeOnto p new step (new :: written)
            ((replacementChanges p new written.head? behind.head?).foldl step acc) behind
        else mergeOnto p new step (x :: written) acc (y :: behind)
    else mergeOnto p new step (x :: written) acc rest

/-- Replaces the pair by `new` from left to right, and folds the changes of the pair counts in the
order in which they are made. -/
def mergeFold {σ : Type} (p : Pair) (new : TokenId) (step : σ → Change Int → σ) (acc : σ)
    (s : Sequence) : Sequence × σ :=
  mergeOnto p new step [] acc s

/-- Replaces the pair by `new` from left to right, and reports the changes of the pair counts in
the order in which they were made. -/
def merge (p : Pair) (new : TokenId) (s : Sequence) : Sequence × List (Change Int) :=
  let (s, newestFirst) := mergeFold p new (fun cs c => c :: cs) [] s
  (s, newestFirst.reverse)

theorem replace_cons_of_ne {p : Pair} {x : TokenId} (h : x ≠ p.left) (new : TokenId)
    (rest : Sequence) : replace p new (x :: rest) = x :: replace p new rest := by
  cases rest <;> simp [replace, h]

theorem mergeOnto_cons_of_ne {σ : Type} {p : Pair} {new : TokenId} {step : σ → Change Int → σ}
    {written : List TokenId} {acc : σ} {x : TokenId} {rest : Sequence} (h : x ≠ p.left) :
    mergeOnto p new step written acc (x :: rest) =
      mergeOnto p new step (x :: written) acc rest := by
  cases rest <;> simp [mergeOnto, h]

theorem mergeOnto_fst {σ : Type} (p : Pair) (new : TokenId) (step : σ → Change Int → σ)
    (written : List TokenId) (acc : σ) (s : Sequence) :
    (mergeOnto p new step written acc s).1 = written.reverse ++ replace p new s := by
  fun_induction mergeOnto p new step written acc s with
  | case1 => simp [replace]
  | case2 => simp [replace]
  | case3 written acc behind ih => rw [ih]; simp [replace]
  | case4 written acc y behind hy ih => rw [ih]; simp [replace, hy]
  | case5 written acc x rest hx ih => rw [ih, replace_cons_of_ne hx]; simp

/-- Two folds of the changes stay together if they do so at every single change. -/
theorem mergeOnto_snd_map {σ τ : Type} (p : Pair) (new : TokenId) (step : σ → Change Int → σ)
    (step' : τ → Change Int → τ) (f : σ → τ) (hf : ∀ acc c, f (step acc c) = step' (f acc) c)
    (written : List TokenId) (acc : σ) (s : Sequence) :
    f (mergeOnto p new step written acc s).2 = (mergeOnto p new step' written (f acc) s).2 := by
  have hfold (cs : List (Change Int)) (acc : σ) :
      f (cs.foldl step acc) = cs.foldl step' (f acc) := by
    induction cs generalizing acc with
    | nil => rfl
    | cons c cs ih => simp only [List.foldl_cons, ih, hf]
  fun_induction mergeOnto p new step written acc s with
  | case1 => simp [mergeOnto]
  | case2 => simp [mergeOnto]
  | case3 written acc behind ih => rw [ih, hfold]; simp [mergeOnto]
  | case4 written acc y behind hy ih => rw [ih]; simp [mergeOnto, hy]
  | case5 written acc x rest hx ih => rw [ih, mergeOnto_cons_of_ne hx]

/-- What a merge leaves is the greedy replacement. -/
@[simp]
theorem merge_fst (p : Pair) (new : TokenId) (s : Sequence) :
    (merge p new s).1 = replace p new s := by
  simp [merge, mergeFold, mergeOnto_fst]

/-- Folding the changes as they are made is folding the report. -/
theorem mergeFold_eq {σ : Type} (p : Pair) (new : TokenId) (step : σ → Change Int → σ) (acc : σ)
    (s : Sequence) :
    mergeFold p new step acc s = (replace p new s, (merge p new s).2.foldl step acc) := by
  have h := mergeOnto_snd_map p new (fun cs c => c :: cs) step
    (List.foldr (fun c acc => step acc c) acc) (fun _ _ => rfl) [] [] s
  refine Prod.ext (by simp [mergeFold, mergeOnto_fst]) ?_
  simp only [merge, mergeFold, List.foldl_reverse]
  exact h.symm

end Sequence

end BytePair
