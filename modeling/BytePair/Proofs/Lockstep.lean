import BytePair.Proofs.Stages

/-!
# Runs in lockstep

A round looks at the pair counts, at the lengths of tokens and at the size of the table. Where two
corpora agree in these, it does the same to both; where it leaves them alike again, so does a run.

* `Corpus.Alike`: corpora between which a round cannot tell.
* `Naive.Lockstep`: a relation of such corpora that merges keep, and `Naive.Lockstep.train`: training
  keeps it, with the same merges and the same reason to stop.
* `Corpus.reorder`: a corpus with its documents in another order.
* `Corpus.train_reorder`: so the order of the documents has no influence on training.
-/

namespace BytePair

open Naive (IsBest Mergeable Runs allPairs)
open Sequence (replace)

/-! ## What a round looks at -/

/-- Nothing that a round looks at differs between the corpora. -/
structure Corpus.Alike (c d : Corpus) : Prop where
  size_eq : d.vocabulary.size = c.vocabulary.size
  length_eq (id : TokenId) : d.vocabulary.length id = c.vocabulary.length id
  count_eq (p : Pair) : Naive.count d.sequences p = Naive.count c.sequences p

namespace Corpus.Alike

variable {config : Config} {c d : Corpus} {p : Pair} {best : Candidate Int}

theorem mergeable_iff (h : c.Alike d) : Mergeable config d p ↔ Mergeable config c p := by
  constructor
  · rintro ⟨hoccurs, hshort⟩
    rw [h.count_eq] at hoccurs
    rw [h.length_eq, h.length_eq] at hshort
    exact ⟨hoccurs, hshort⟩
  · rintro ⟨hoccurs, hshort⟩
    refine ⟨by rwa [h.count_eq], ?_⟩
    rwa [h.length_eq, h.length_eq]

theorem isBest (h : c.Alike d) (hbest : IsBest config c best) : IsBest config d best where
  count_eq := by rw [h.count_eq, hbest.count_eq]
  mergeable := h.mergeable_iff.2 hbest.mergeable
  leads q hq := by
    rw [h.count_eq]
    exact hbest.leads q (h.mergeable_iff.1 hq)

end Corpus.Alike

/-! ## Two runs -/

namespace Naive

/-- Related corpora look alike, and they do so after any merge, whose rule is the same in both. -/
structure Lockstep (R : Corpus → Corpus → Prop) : Prop where
  alike {c d : Corpus} : R c d → c.Alike d
  rule_eq {c d : Corpus} {p : Pair} : R c d → p ∈ allPairs c.sequences →
    (d.vocabulary.addRule p).2 = (c.vocabulary.addRule p).2
  merged {c d : Corpus} {p : Pair} : R c d → p ∈ allPairs c.sequences → R (c.merged p) (d.merged p)

variable {R : Corpus → Corpus → Prop} {config : Config} {c d : Corpus} {o : Training.Outcome}

/-- Every run from the one corpus has its like from the other. -/
theorem Lockstep.runs (hR : Lockstep R) (h : Runs config c o) (hcd : R c d) :
    ∃ d', R o.corpus d' ∧ Runs config d ⟨d', o.merges, o.reason⟩ := by
  induction h generalizing d with
  | sizeReached hsize =>
    rw [← (hR.alike hcd).size_eq] at hsize
    exact ⟨d, hcd, .sizeReached hsize⟩
  | noPairsLeft hsize hnone =>
    rw [← (hR.alike hcd).size_eq] at hsize
    exact ⟨d, hcd, .noPairsLeft hsize fun p hp => hnone p ((hR.alike hcd).mergeable_iff.1 hp)⟩
  | belowMinFrequency hsize hbest hseldom =>
    rw [← (hR.alike hcd).size_eq] at hsize
    exact ⟨d, hcd, .belowMinFrequency hsize ((hR.alike hcd).isBest hbest) hseldom⟩
  | merge hsize hbest hoften _ ih =>
    have hp := hbest.mergeable.mem
    obtain ⟨d', hd', later⟩ := ih (hR.merged hcd hp)
    rw [← (hR.alike hcd).size_eq] at hsize
    have hruns := Runs.merge hsize ((hR.alike hcd).isBest hbest) hoften later
    rw [hR.rule_eq hcd hp] at hruns
    exact ⟨d', hd', hruns⟩

/-- Training keeps related corpora related, by the same merges and for the same reason. -/
theorem Lockstep.train (hR : Lockstep R) (hc : c.Sound) (hd : d.Sound) (hcd : R c d)
    (config : Config) : R (c.train config).corpus (d.train config).corpus ∧
      (d.train config).merges = (c.train config).merges ∧
      (d.train config).reason = (c.train config).reason := by
  obtain ⟨d', hd', hruns⟩ := hR.runs (hc.train_runs config) hcd
  rw [(hd.train_runs config).unique hruns]
  exact ⟨hd', rfl, rfl⟩

end Naive

/-! ## The order of the documents -/

namespace Corpus

variable {c : Corpus} {order : List Nat}

/-- The corpus with its documents in the given order, which names each of them by its position. -/
def reorder (c : Corpus) (order : List Nat) : Corpus :=
  ⟨c.vocabulary, (order.map (c.sequences.getD · [])).toArray⟩

/-- Positions in another order name the same documents. -/
theorem perm_reorder (horder : order.Perm (List.range c.size)) :
    (c.reorder order).sequences.toList.Perm c.sequences.toList := by
  have hperm := horder.map (c.sequences.getD · [])
  rwa [size, map_getD_range] at hperm

theorem alike_reorder (horder : order.Perm (List.range c.size)) : c.Alike (c.reorder order) where
  size_eq := rfl
  length_eq _ := rfl
  count_eq p := by
    have hperm := (perm_reorder horder).flatMap_right adjacentPairs
    exact congrArg Nat.cast (hperm.count_eq p)

/-- It is all the same whether a pair is merged before the documents are put in order or after. -/
theorem merged_reorder (c : Corpus) (order : List Nat) (p : Pair) :
    (c.merged p).reorder order = (c.reorder order).merged p := by
  have hgetD (new : TokenId) (i : Nat) :
      (c.sequences.map (replace p new)).getD i [] = replace p new (c.sequences.getD i []) := by
    rw [Array.getD_eq_getD_getElem?, Array.getD_eq_getD_getElem?, Array.getElem?_map]
    cases c.sequences[i]? <;> rfl
  simp only [reorder, merged, hgetD, List.map_toArray, List.map_map, Function.comp_def]

theorem Sound.reorder (h : c.Sound) (horder : order.Perm (List.range c.size)) :
    (c.reorder order).Sound where
  consistent := h.consistent
  spelled s hs := by
    have hs := (perm_reorder horder).mem_iff.1 (Array.mem_toList_iff.2 hs)
    exact h.spelled s (Array.mem_toList_iff.1 hs)

/-- Corpora with the same documents in another order stay in lockstep. -/
theorem lockstep_reorder (order : List Nat) : Naive.Lockstep fun c d =>
    order.Perm (List.range c.size) ∧ d = c.reorder order where
  alike := by
    rintro c d ⟨horder, rfl⟩
    exact alike_reorder horder
  rule_eq := by
    rintro c d p ⟨-, rfl⟩ -
    rfl
  merged := by
    rintro c d p ⟨horder, rfl⟩ -
    rw [size_merged]
    exact ⟨horder, (merged_reorder c order p).symm⟩

/-- **The order of the documents has no influence.** From every reachable corpus, with its documents
put in any order, training records the same rules with the same counts, stops for the same reason and
leaves the same vocabulary. The documents that it leaves are those of the other run, in that order. -/
theorem train_reorder (h : c.Reachable) (horder : order.Perm (List.range c.size))
    (config : Config) :
    let o := c.train config
    (c.reorder order).train config = ⟨o.corpus.reorder order, o.merges, o.reason⟩ ∧
      (c.reorder order).sequences.toList.Perm c.sequences.toList ∧ o.corpus.size = c.size := by
  intro o
  have hcd : order.Perm (List.range c.size) ∧ c.reorder order = c.reorder order := ⟨horder, rfl⟩
  obtain ⟨⟨-, hcorpus⟩, hmerges, hreason⟩ :=
    (lockstep_reorder order).train h.sound (h.sound.reorder horder) hcd config
  refine ⟨?_, perm_reorder horder, ?_⟩
  · rw [← hcorpus, ← hmerges, ← hreason]
  · exact (h.sound.train_runs config).keeps (motive := fun d => d.size = c.size) rfl
      fun d best _ _ hd => (size_merged d best.pair).trans hd

/-- Three documents, of which two came after a first training, in another order. -/
theorem train_reorder_rotated :
    let c := (((Corpus.fresh.ingest [97, 98, 97, 98, 97]).train {}).corpus.ingest [97, 98, 99]).ingest
      [98, 99, 98, 99]
    let order := [2, 0, 1]
    let config : Config := { minFrequency := 1, vocabularySize := 7 }
    let o := (c.reorder order).train config
    c.Reachable ∧ order.Perm (List.range c.size) ∧
      c.sequences.toList = [[3, 3, 1], [1, 2, 4], [2, 4, 2, 4]] ∧
      (c.reorder order).sequences.toList = [[2, 4, 2, 4], [3, 3, 1], [1, 2, 4]] ∧
      o.merges = [⟨⟨⟨2, 4⟩, 5⟩, 3⟩, ⟨⟨⟨1, 5⟩, 6⟩, 1⟩] ∧ o.reason = .sizeReached ∧
      o.corpus.sequences.toList = [[5, 5], [3, 3, 1], [6]] := by
  intro c order config o
  have hfirst : (Corpus.fresh.ingest [97, 98, 97, 98, 97]).Reachable := .ingest .fresh _
  have hc : c.Reachable := .ingest (.ingest (.train hfirst _) _) _
  have hcorpus : c = _ := congrArg
    (fun o : Training.Outcome => (o.corpus.ingest [97, 98, 99]).ingest [98, 99, 98, 99])
    (hfirst.sound.train_eq {})
  have horder : order.Perm (List.range c.size) := by
    rw [hcorpus]
    decide +kernel
  have ho : o = _ := (train_reorder hc horder config).1
  refine ⟨hc, horder, ?_⟩
  rw [ho, hc.sound.train_eq, hcorpus]
  decide +kernel

end Corpus

end BytePair
