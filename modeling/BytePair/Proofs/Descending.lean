import BytePair.Event
import BytePair.Proofs.Minting
import Mathlib.Data.List.Chain

/-!
# Later merges are rarer

After a merge there are pairs that were there before, none of which occurs more often now, and pairs
of the new token. Of these, none occurs more often than the new token does, which stands where the
merged pair stood. So no pair that may be merged overtakes the one that was.

* `Sequence.count_adjacentPairs_replace_le`, `Sequence.count_replace_new_le`: the two bounds for one
  sequence.
* `Corpus.Canonical.count_merged_le`: no pair that may be merged next occurs more often than the one
  that was merged. That the new token stands nowhere before is needed here.
* `Corpus.merge_counts_descend`: so the counts that a run reports never increase.
-/

namespace BytePair

open Naive (IsBest Mergeable Runs)
open Sequence (replace)

/-! ## Pairs and tokens of a list -/

section

variable {q : Pair} {x : TokenId}

theorem map_left_adjacentPairs :
    (s : List TokenId) → (adjacentPairs s).map Pair.left = s.dropLast
  | [] => rfl
  | [_] => rfl
  | x :: y :: rest => congrArg (x :: ·) (map_left_adjacentPairs (y :: rest))

theorem map_right_adjacentPairs :
    (s : List TokenId) → (adjacentPairs s).map Pair.right = s.tail
  | [] => rfl
  | [_] => rfl
  | _ :: y :: rest => congrArg (y :: ·) (map_right_adjacentPairs (y :: rest))

/-- A pair stands in a list at most as often as each of its tokens. -/
theorem count_adjacentPairs_le (h : q.left = x ∨ q.right = x) (s : List TokenId) :
    (adjacentPairs s).count q ≤ s.count x := by
  rcases h with rfl | rfl
  · calc (adjacentPairs s).count q
      _ ≤ ((adjacentPairs s).map Pair.left).count q.left := List.count_le_count_map
      _ = s.dropLast.count q.left := by rw [map_left_adjacentPairs]
      _ ≤ s.count q.left := s.dropLast_sublist.count_le _
  · calc (adjacentPairs s).count q
      _ ≤ ((adjacentPairs s).map Pair.right).count q.right := List.count_le_count_map
      _ = s.tail.count q.right := by rw [map_right_adjacentPairs]
      _ ≤ s.count q.right := s.tail_sublist.count_le _

end

namespace Sequence

/-! ## Counts through a merge -/

variable {p q : Pair} {new : TokenId} {s : Sequence}

/-- A replacement adds no pair without the new token, and uses up one occurrence of its pair. -/
theorem count_replacement_le (hleft : q.left ≠ new) (hright : q.right ≠ new) (p : Pair)
    (written behind : List TokenId) :
    (adjacentPairs (written.reverse ++ new :: behind)).count q + (if p = q then 1 else 0) ≤
      (adjacentPairs (written.reverse ++ p.left :: p.right :: behind)).count q := by
  obtain ⟨l, r⟩ := p
  have hbefore : (written.head?.toList.map fun b => (⟨b, new⟩ : Pair)).count q = 0 := by
    refine List.count_eq_zero.2 fun h => ?_
    obtain ⟨b, -, rfl⟩ := List.mem_map.1 h
    exact hright rfl
  have hafter : (behind.head?.toList.map fun a => (⟨new, a⟩ : Pair)).count q = 0 := by
    refine List.count_eq_zero.2 fun h => ?_
    obtain ⟨a, -, rfl⟩ := List.mem_map.1 h
    exact hleft rfl
  simp only [adjacentPairs_reverse_append_cons, adjacentPairs_cons r, List.head?_cons,
    Option.toList_some, List.map_cons, List.map_nil, List.count_append, List.count_cons,
    List.count_nil, beq_iff_eq, hbefore, hafter]
  omega

/-- A pair without the new token does not gain in a merge. -/
theorem count_adjacentPairs_replace_le (hleft : q.left ≠ new) (hright : q.right ≠ new) (p : Pair)
    (s : Sequence) : (adjacentPairs (replace p new s)).count q ≤ (adjacentPairs s).count q := by
  rw [← merge_fst]
  refine merge_keeps (motive := fun t _ => (adjacentPairs t).count q ≤ (adjacentPairs s).count q)
    (Nat.le_refl _) fun written behind _ h => ?_
  have hle := count_replacement_le hleft hright p written behind
  omega

/-- A new token stands in a sequence at most as often as the merged pair did. -/
theorem count_replace_new_le (hs : new ∉ s) (hleft : p.left ≠ new) (hright : p.right ≠ new) :
    (replace p new s).count new ≤ (adjacentPairs s).count p := by
  -- each replacement brings in the token once and uses up an occurrence of the pair
  have hsum : (merge p new s).1.count new + (adjacentPairs (merge p new s).1).count p ≤
      (adjacentPairs s).count p := by
    refine merge_keeps (motive := fun t _ =>
      t.count new + (adjacentPairs t).count p ≤ (adjacentPairs s).count p) ?_ ?_
    · rw [List.count_eq_zero.2 hs, Nat.zero_add]
    · intro written behind _ h
      have hle := count_replacement_le hleft hright p written behind
      simp only [List.count_append, List.count_cons, beq_iff_eq, hleft, hright, if_true,
        if_false] at h hle ⊢
      omega
  rw [merge_fst] at hsum
  omega

end Sequence

/-! ## Counts through a round -/

theorem Naive.count_map_le {f : Sequence → Sequence} {seqs : Array Sequence} {q q' : Pair}
    (h : ∀ s ∈ seqs, (adjacentPairs (f s)).count q ≤ (adjacentPairs s).count q') :
    count (seqs.map f) q ≤ count seqs q' := by
  unfold count allPairs
  rw [Array.toList_map, List.flatMap_map, List.count_flatMap, List.count_flatMap]
  exact Int.ofNat_le.2 (List.sum_le_sum fun s hs => h s (Array.mem_toList_iff.1 hs))

/-- The first merge of a run is that of a best pair. -/
theorem Naive.Runs.isBest_head {config : Config} {c : Corpus} {o : Training.Outcome} {m : Merge}
    (h : Runs config c o) (hm : m ∈ o.merges.head?) : IsBest config c ⟨m.count, m.rule.pair⟩ := by
  cases h with
  | sizeReached | noPairsLeft | belowMinFrequency => cases hm
  | merge _ hbest _ _ =>
    cases hm
    exact hbest

namespace Corpus

variable {config : Config} {c : Corpus} {docs : List Bytes} {best : Candidate Int} {p q : Pair}

/-- The token of a merge stands in no document yet. -/
theorem Canonical.new_notMem (h : c.Canonical docs) (hc : c.Sound)
    (hp : p ∈ Naive.allPairs c.sequences) {s : Sequence} (hs : s ∈ c.sequences) :
    (c.vocabulary.addRule p).2.new ∉ s := by
  intro hmem
  rw [Vocabulary.addRule_snd (h.id?_pairBytes hc hp)] at hmem
  obtain ⟨-, bs, hbs, -⟩ := hc.spelled s hs _ hmem
  exact Nat.lt_irrefl _ (Vocabulary.lt_size_of_bytes? hbs)

/-- No pair that may be merged next occurs more often than the one that was merged. -/
theorem Canonical.count_merged_le (h : c.Canonical docs) (hc : c.Sound)
    (hbest : IsBest config c best) (hq : Mergeable config (c.merged best.pair) q) :
    Naive.count (c.merged best.pair).sequences q ≤ best.count := by
  have hp := hbest.mergeable.mem
  obtain ⟨hleft, hright⟩ := hc.new_ne hp
  by_cases hnew : q.left = (c.vocabulary.addRule best.pair).2.new ∨
      q.right = (c.vocabulary.addRule best.pair).2.new
  · rw [hbest.count_eq]
    refine Naive.count_map_le fun s hs => (count_adjacentPairs_le hnew _).trans ?_
    exact Sequence.count_replace_new_le (h.new_notMem hc hp hs) hleft.symm hright.symm
  · obtain ⟨hql, hqr⟩ := not_or.1 hnew
    have hle : Naive.count (c.merged best.pair).sequences q ≤ Naive.count c.sequences q :=
      Naive.count_map_le fun s _ => Sequence.count_adjacentPairs_replace_le hql hqr _ s
    -- the pair could have been merged before, but the best one came first
    rcases hbest.leads q (Training.mergeable_of_merged hq hle) with hlt | ⟨heq, -⟩
    · omega
    · omega

/-- The counts of a run never increase from one merge to the next. -/
theorem Canonical.pairwise_counts {o : Training.Outcome} (h : c.Canonical docs) (hc : c.Sound)
    (hruns : Runs config c o) : (o.merges.map Merge.count).Pairwise (· ≥ ·) := by
  rw [← List.isChain_iff_pairwise, List.isChain_map]
  induction hruns with
  | sizeReached | noPairsLeft | belowMinFrequency => exact List.isChain_nil
  | merge _ hbest _ later ih =>
    have hp := hbest.mergeable.mem
    refine List.isChain_cons.2 ⟨fun m hm => ?_, ih (h.merged hc hp) (hc.merged hp)⟩
    have hnext := later.isBest_head hm
    have hle := h.count_merged_le hc hbest hnext.mergeable
    rwa [← hnext.count_eq] at hle

end Corpus

/-! ## What a run reports -/

/-- The count in the record of a merge. -/
def Event.mergeCount? : Event → Option Int
  | merged _ merge => some merge.count
  | _ => none

theorem Training.filterMap_mergeCount_events (t : Training) (o : Training.Outcome) :
    (t.events o).filterMap Event.mergeCount? = o.merges.map Merge.count := by
  simp only [events, Event.mergeCount?, List.filterMap_cons, List.filterMap_append,
    List.filterMap_map, List.filterMap_nil, List.append_nil]
  have hmerged : (Event.mergeCount? ∘ fun x : Merge × Nat => Event.merged x.2 x.1) =
      some ∘ (Merge.count ∘ Prod.fst) := rfl
  rw [hmerged, List.filterMap_eq_map, ← List.map_map, List.zipIdx_map_fst]

/-- **Later merges are rarer.** After any training runs on any documents, a further run merges the
most frequent pair again and again. It reports how often each of them occurred, and none of these
counts is greater than one before it. -/
theorem Corpus.merge_counts_descend (docs : List Bytes) (configs : List Config) (config : Config) :
    let c := (ofDocuments docs).trainAll configs
    let o := c.train config
    Runs config c o ∧
      ((Training.start config c).events o).filterMap Event.mergeCount? =
        o.merges.map Merge.count ∧
      (o.merges.map Merge.count).Pairwise (· ≥ ·) := by
  intro c o
  have hc : c.Sound := ((reachable_ofDocuments docs).trainAll configs).sound
  have hruns : Runs config c o := hc.train_runs config
  have hcanonical : c.Canonical docs := canonical_trainAll docs configs
  exact ⟨hruns, Training.filterMap_mergeCount_events _ o, hcanonical.pairwise_counts hc hruns⟩

/-- A document that comes in later can bring back a pair whose token stands elsewhere already: then
a count may rise. -/
example :
    let config : Config := { minFrequency := 1, parallel := false }
    let first := Corpus.fresh.ingest [97, 98, 99]
    let c := (first.train { config with vocabularySize := 5 }).corpus.ingest [97, 98, 99]
    (c.train config).merges.map Merge.count = [1, 2] := by
  cbv

end BytePair
