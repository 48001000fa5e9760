import BytePair.Proofs.Documents

/-!
# Training comes to an end

The loop of training goes on until there is a reason to stop, and none of these has to do with how
long it takes. What bounds it is the length of the documents: a round merges a pair that really stands
in one of them, so it takes a token away. The size of the table would not do, since a rule can lead to
a token that is there already.

* `Training.Steps`: rounds one after another, without a bound on their number.
* `Training.Ready.step`: what one round does; `Training.Steps.spend`: what any rounds of a run cost.
* `Training.Ready.steps_rounds`: a bounded run with enough rounds ends by itself.
* `Corpus.training_ends`: so training ends, and a document has at least one token left then.
-/

namespace BytePair

open Naive (allPairs)
open Sequence (replace)

/-! ## Documents that are not empty -/

theorem Sequence.isEmpty_replace (p : Pair) (new : TokenId) (s : Sequence) :
    (replace p new s).isEmpty = s.isEmpty := by
  fun_cases replace p new s <;> rfl

namespace Corpus

variable {c : Corpus}

/-- The number of documents that are not empty. -/
def filledCount (c : Corpus) : Nat := c.sequences.toList.countP fun s => !s.isEmpty

/-- A merge never empties a document. -/
theorem filledCount_merged (c : Corpus) (p : Pair) : (c.merged p).filledCount = c.filledCount := by
  rw [filledCount, merged, Array.toList_map, List.countP_map]
  refine List.countP_congr fun s _ => ?_
  simp only [Function.comp_apply, Sequence.isEmpty_replace]

/-- Every one of them has a token at least. -/
theorem filledCount_le (c : Corpus) : c.filledCount ≤ c.symbolCount := by
  rw [symbolCount_eq, filledCount]
  induction c.sequences.toList with
  | nil => exact Nat.le_refl 0
  | cons s l ih =>
    rw [List.countP_cons, List.map_cons, List.sum_cons]
    cases s with
    | nil => simpa using ih
    | cons x s =>
      simp only [List.isEmpty_cons, Bool.not_false, if_true, List.length_cons]
      omega

/-- Real tokens spell something. -/
theorem Sound.isEmpty_decode (h : c.Sound) {s : Sequence} (hs : s ∈ c.sequences) :
    (c.vocabulary.decode s).isEmpty = s.isEmpty := by
  cases s with
  | nil => rfl
  | cons x s =>
    obtain ⟨hne, bs, hbs, hempty⟩ := h.spelled _ hs x List.mem_cons_self
    rw [Vocabulary.decode_cons, Vocabulary.decode_singleton hne hbs]
    cases bs with
    | nil => exact absurd rfl hempty
    | cons b bs => rfl

/-- The documents that are not empty are those that were taken in so. -/
theorem filledCount_after (ops : List Operation) : (after ops).filledCount =
    (ops.filterMap Operation.document?).countP fun d => !d.isEmpty := by
  rw [← decode_after, List.countP_map, filledCount]
  refine List.countP_congr fun s hs => ?_
  have hs := (reachable_after ops).sound.isEmpty_decode (Array.mem_toList_iff.1 hs)
  simp only [Function.comp_apply, hs]

end Corpus

namespace Training

variable {config : Config} {t t' : Training} {best : Candidate Int} {tally : Tally Int}
  {ms : List Merge}

/-! ## Rounds without a bound -/

/-- Rounds one after another, with the merges that they make. The run may go on behind them. -/
inductive Steps (config : Config) (t : Training) : List Merge → Training → Prop
  | refl : Steps config t [] t
  | round {ms : List Merge} {t' : Training} {best : Candidate Int} {tally : Tally Int}
    (before : Steps config t ms t') (hchoose : choose config t' = .ok (best, tally)) :
    Steps config t (ms ++ [(perform best tally t'.corpus).2]) (perform best tally t'.corpus).1

/-- A round merges a pair that stands in a document, in all documents, and the next one can follow. -/
theorem Ready.step (h : t.Ready config) (hchoose : choose config t = .ok (best, tally)) :
    best.pair ∈ allPairs t.corpus.sequences ∧
      (Training.perform best tally t.corpus).1.corpus = t.corpus.merged best.pair ∧
      (Training.perform best tally t.corpus).1.Ready config := by
  rcases h.round with ⟨reason, herror, -⟩ | ⟨best', tally', hok, hadvance, hready⟩
  · rw [hchoose] at herror
    cases herror
  · rw [hchoose] at hok
    cases hok
    rcases Naive.advance_cases config t.corpus with
      ⟨reason, herror, -⟩ | ⟨found, -, hbest, -, hfound⟩
    · rw [hadvance] at herror
      cases herror
    · rw [hadvance] at hfound
      injection hfound with hfound
      obtain ⟨hcorpus, hmerge⟩ := Prod.mk.inj hfound
      have hpair : best.pair = found.pair := congrArg (fun m : Merge => m.rule.pair) hmerge
      rw [hpair]
      exact ⟨hbest.mergeable.mem, hcorpus, hready⟩

theorem Ready.symbolCount_step (h : t.Ready config)
    (hchoose : choose config t = .ok (best, tally)) :
    (Training.perform best tally t.corpus).1.corpus.symbolCount < t.corpus.symbolCount := by
  obtain ⟨hp, hcorpus, -⟩ := h.step hchoose
  rw [hcorpus]
  exact Corpus.symbolCount_merged_lt hp

theorem Steps.ready (h : Steps config t ms t') (ht : t.Ready config) : t'.Ready config := by
  induction h with
  | refl => exact ht
  | round _ hchoose ih => exact (ih.step hchoose).2.2

/-- Every merge is paid for with a token, and the last token of a document is never spent. -/
theorem Steps.spend (h : Steps config t ms t') (ht : t.Ready config) :
    ms.length + t'.corpus.symbolCount ≤ t.corpus.symbolCount ∧
      t'.corpus.filledCount = t.corpus.filledCount := by
  induction h with
  | refl => exact ⟨Nat.le_of_eq (Nat.zero_add _), rfl⟩
  | round before hchoose ih =>
    have hready := before.ready ht
    have hless := hready.symbolCount_step hchoose
    obtain ⟨-, hcorpus, -⟩ := hready.step hchoose
    obtain ⟨hspent, hfilled⟩ := ih
    refine ⟨?_, ?_⟩
    · rw [List.length_append, List.length_singleton]
      omega
    · rw [hcorpus, Corpus.filledCount_merged, hfilled]

theorem Steps.length_add_filledCount_le (h : Steps config t ms t') (ht : t.Ready config) :
    ms.length + t.corpus.filledCount ≤ t.corpus.symbolCount := by
  obtain ⟨hspent, hfilled⟩ := h.spend ht
  have hleft := t'.corpus.filledCount_le
  omega

/-- With more rounds than the documents have tokens, a run comes to a round that gives a reason to
stop. -/
theorem Ready.steps_rounds {start : Training} {n : Nat} (hn : t.corpus.symbolCount < n)
    (h : t.Ready config) (done : List Merge) (before : Steps config start done.reverse t) :
    ∃ t', Steps config start (rounds config n t done).merges t' ∧
      choose config t' = .error (rounds config n t done).reason ∧
      t'.corpus = (rounds config n t done).corpus := by
  induction n generalizing t done with
  | zero => omega
  | succ n ih =>
    rw [rounds]
    cases hchoose : choose config t with
    | error reason => exact ⟨t, before, hchoose, rfl⟩
    | ok found =>
      obtain ⟨best, tally⟩ := found
      have hless := h.symbolCount_step hchoose
      refine ih (by omega) (h.step hchoose).2.2 _ ?_
      rw [List.reverse_cons]
      exact before.round hchoose

end Training

namespace Corpus

open Training (Steps choose perform start)

/-- **Training comes to an end.** Let documents and training runs have come in any order, and a further
run go on for as long as it finds no reason to stop. Every round of it makes the documents shorter. So
there are at most as many rounds as there are tokens, less one for every document that is not empty;
the run ends with one that gives a reason; and it has then recorded just the rules of its rounds. -/
theorem training_ends (ops : List Operation) (config : Config) :
    let c := after ops
    let o := c.train config
    let filled := (ops.filterMap Operation.document?).countP fun d => !d.isEmpty
    (∀ ms t, Steps config (start config c) ms t →
      ms.length + filled ≤ c.symbolCount ∧
        ∀ best tally, choose config t = .ok (best, tally) →
          (perform best tally t.corpus).1.corpus.symbolCount < t.corpus.symbolCount) ∧
      (∃ t, Steps config (start config c) o.merges t ∧ choose config t = .error o.reason ∧
        t.corpus = o.corpus) ∧
      o.corpus.vocabulary.rules.toList = c.vocabulary.rules.toList ++ o.merges.map Merge.rule ∧
      o.merges.length + filled ≤ c.symbolCount := by
  intro c o filled
  have hc : c.Sound := (reachable_after ops).sound
  have hready : (start config c).Ready config := Training.ready_start hc config
  have hbound (ms : List Merge) (t : Training) (h : Steps config (start config c) ms t) :
      ms.length + filled ≤ c.symbolCount := by
    have hfilled : c.filledCount = filled := filledCount_after ops
    rw [← hfilled]
    exact h.length_add_filledCount_le hready
  obtain ⟨t, hsteps, hchoose, hcorpus⟩ :=
    hready.steps_rounds (Nat.lt_succ_self c.symbolCount) [] .refl
  refine ⟨fun ms t h => ⟨hbound ms t h, fun best tally => ?_⟩, ⟨t, hsteps, hchoose, hcorpus⟩,
    (hc.train_runs config).rules_eq, hbound _ t hsteps⟩
  exact (h.ready hready).symbolCount_step

/-- A document that comes in later can bring back a pair whose token is there already. The first merge
of the second run records the rule again, and the table stays as it is. -/
example :
    let config : Config := { minFrequency := 1, parallel := false }
    let first := Corpus.fresh.ingest [97, 98, 99]
    let c := (first.train { config with vocabularySize := 5 }).corpus.ingest [97, 98, 99]
    c.vocabulary.rules.toList = [⟨⟨1, 2⟩, 4⟩] ∧ c.vocabulary.size = 5 ∧
      (c.train config).merges.map Merge.rule = [⟨⟨1, 2⟩, 4⟩, ⟨⟨4, 3⟩, 5⟩] ∧
      (c.train config).corpus.vocabulary.size = 6 := by
  cbv

end Corpus

end BytePair
