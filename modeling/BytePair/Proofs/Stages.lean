import BytePair.Proofs.Replay

/-!
# Training in stages

All that a run knows is in the corpus: it can stop at any round, and another run that counts the
pairs afresh goes on with the very merge that would have come next.

* `Naive.Runs.rules_eq`, `Naive.Runs.sequences_eq`: a run adds its merges to the rules, and replaces
  their pairs in every document by itself.
* `Config.Outlasts`: a run under one configuration goes at least as far as under another one.
* `Naive.Runs.append`: rounds under the stricter configuration, followed by a run under the other
  one, are one run under the other one.
* `train_in_stages`: so training in two stages is training once.
-/

namespace BytePair

open Vocabulary (replaceAll)

/-- Training under `config'` stops no sooner than training under `config`: the same merges are allowed,
the table may become as large, and pairs may be as rare. -/
structure Config.Outlasts (config' config : Config) : Prop where
  maxTokenLength_eq : config.maxTokenLength = config'.maxTokenLength
  vocabularySize_le : config.vocabularySize ≤ config'.vocabularySize
  minFrequency_le : max config'.minFrequency 1 ≤ max config.minFrequency 1

namespace Naive

variable {config config' : Config} {c : Corpus} {o o' : Training.Outcome} {p : Pair}
  {best : Candidate Int}

/-! ## What a run leaves -/

/-- The merges of a run are its rules, behind those that were there before. -/
theorem Runs.rules_eq (h : Runs config c o) : o.corpus.vocabulary.rules.toList =
    c.vocabulary.rules.toList ++ o.merges.map Merge.rule := by
  induction h with
  | sizeReached | noPairsLeft | belowMinFrequency => exact (List.append_nil _).symm
  | @merge c best o _ _ _ _ ih =>
    have hmerged : (c.merged best.pair).vocabulary.rules.toList =
        c.vocabulary.rules.toList ++ [(c.vocabulary.addRule best.pair).2] := by
      rw [Corpus.vocabulary_merged, Vocabulary.rules_addRule, Array.toList_push]
    rw [ih, hmerged, List.append_assoc]
    rfl

/-- The documents are those of before, with the pairs of the new rules replaced in each of them. -/
theorem Runs.sequences_eq (h : Runs config c o) :
    o.corpus.sequences = c.sequences.map (replaceAll (o.merges.map Merge.rule)) := by
  induction h with
  | sizeReached | noPairsLeft | belowMinFrequency => exact (Array.map_id _).symm
  | @merge c best o _ _ _ _ ih =>
    rw [ih, Corpus.merged, Array.map_map]
    rfl

/-! ## Two runs -/

/-- Which pairs may be merged depends on the longest token alone, -/
theorem mergeable_congr (h : config.maxTokenLength = config'.maxTokenLength) :
    Mergeable config c p ↔ Mergeable config' c p := by
  constructor
  · rintro ⟨hoccurs, hshort⟩
    exact ⟨hoccurs, fun limit hlimit => hshort limit (h.trans hlimit)⟩
  · rintro ⟨hoccurs, hshort⟩
    exact ⟨hoccurs, fun limit hlimit => hshort limit (h.symm.trans hlimit)⟩

/-- and so does which one comes next. -/
theorem IsBest.congr (h : config.maxTokenLength = config'.maxTokenLength)
    (hbest : IsBest config c best) : IsBest config' c best where
  count_eq := hbest.count_eq
  mergeable := (mergeable_congr h).1 hbest.mergeable
  leads q hq := hbest.leads q ((mergeable_congr h).2 hq)

/-- A run under the stricter configuration and then one under the other one make a run under the
other one: each merge of the first run is one of the second configuration, too. -/
theorem Runs.append (houtlasts : config'.Outlasts config) (h : Runs config c o)
    (h' : Runs config' o.corpus o') :
    Runs config' c { o' with merges := o.merges ++ o'.merges } := by
  induction h with
  | sizeReached | noPairsLeft | belowMinFrequency => exact h'
  | merge hsize hbest hoften _ ih =>
    have hsize' := Nat.lt_of_lt_of_le hsize houtlasts.vocabularySize_le
    have hoften' := houtlasts.minFrequency_le
    exact .merge hsize' (hbest.congr houtlasts.maxTokenLength_eq) (by omega) (ih h')

end Naive

/-- **Training in stages.** From every reachable corpus, training that stops early and then goes on
under a configuration that outlasts the first one ends with the corpus and the reason to stop that
training under the second one alone has. The merges are those of the two runs in order, so the rules
of the first run are the first ones of the whole. -/
theorem train_in_stages {c : Corpus} {config config' : Config} (h : c.Reachable)
    (houtlasts : config'.Outlasts config) :
    let first := c.train config
    let second := first.corpus.train config'
    let whole := c.train config'
    second.corpus = whole.corpus ∧ second.reason = whole.reason ∧
      whole.merges = first.merges ++ second.merges ∧
      first.corpus.vocabulary.rules.toList =
        c.vocabulary.rules.toList ++ first.merges.map Merge.rule ∧
      whole.corpus.vocabulary.rules.toList =
        first.corpus.vocabulary.rules.toList ++ second.merges.map Merge.rule := by
  intro first second whole
  have hfirst : Naive.Runs config c first := h.sound.train_runs config
  have hsecond : Naive.Runs config' first.corpus second := (h.train config).sound.train_runs config'
  have hwhole : whole = { second with merges := first.merges ++ second.merges } :=
    (h.sound.train_runs config').unique (hfirst.append houtlasts hsecond)
  rw [hwhole]
  exact ⟨rfl, rfl, rfl, hfirst.rules_eq, hsecond.rules_eq⟩

/-- A run that stops at a size and one that goes on to rarer pairs, over documents of which the last
one came after training. -/
theorem train_in_stages_again :
    let c := ((Corpus.fresh.ingest [97, 98, 97, 98, 97]).train {}).corpus.ingest [97, 98, 99]
    let early : Config := { vocabularySize := 6, minFrequency := 1 }
    let late : Config := { minFrequency := 0 }
    c.Reachable ∧ late.Outlasts early ∧
      ((c.train early).corpus.train late).corpus = (c.train late).corpus ∧
      (c.train early).merges = [⟨⟨⟨1, 2⟩, 3⟩, 1⟩, ⟨⟨⟨3, 1⟩, 5⟩, 1⟩] ∧
      (c.train late).merges =
        (c.train early).merges ++ [⟨⟨⟨3, 4⟩, 6⟩, 1⟩, ⟨⟨⟨3, 5⟩, 7⟩, 1⟩] := by
  intro c early late
  have hfirst : (Corpus.fresh.ingest [97, 98, 97, 98, 97]).Reachable := .ingest .fresh _
  have hc : c.Reachable := .ingest (.train hfirst _) _
  have houtlasts : late.Outlasts early := ⟨rfl, by decide, by decide⟩
  have hcorpus : c = _ := congrArg (fun o : Training.Outcome => o.corpus.ingest [97, 98, 99])
    (hfirst.sound.train_eq {})
  refine ⟨hc, houtlasts, (train_in_stages hc houtlasts).1, ?_⟩
  rw [hc.sound.train_eq, hc.sound.train_eq, hcorpus]
  decide +kernel

end BytePair
