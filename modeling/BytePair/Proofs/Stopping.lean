import BytePair.Proofs.Rounds

/-!
# Why training stops

A run decides by what its queue still offers. What it reports is said here of the documents that it
leaves, with all their pairs counted again.

* `Config.Allows`: a merge is short enough.
* `StopReason.Holds`: what a reason to stop says of a corpus. No two reasons hold of the same one.
* `Naive.Runs.holds`: the reason of a run holds where the run ends; `Naive.Runs.size_le`,
  `Naive.Runs.length_le`: the table has not become larger than allowed, nor its new tokens longer.
* `Corpus.stop_reason_truthful`: so all of this is true of training.
-/

namespace BytePair

open Naive (Mergeable Runs allPairs)

/-! ## Reasons to stop -/

/-- The merge of the pair is not longer than a token may be. -/
def Config.Allows (config : Config) (v : Vocabulary) (p : Pair) : Prop :=
  ∀ limit, config.maxTokenLength = some limit → (v.pairBytes p).length ≤ limit

/-- The reason to stop is true of the corpus. -/
def StopReason.Holds (config : Config) (c : Corpus) : StopReason → Prop
  | sizeReached => config.vocabularySize ≤ c.vocabulary.size
  | belowMinFrequency => c.vocabulary.size < config.vocabularySize ∧
      (∃ p ∈ allPairs c.sequences, config.Allows c.vocabulary p) ∧
      ∀ p, config.Allows c.vocabulary p → Naive.count c.sequences p < max config.minFrequency 1
  | noPairsLeft => c.vocabulary.size < config.vocabularySize ∧
      ∀ p ∈ allPairs c.sequences, ¬config.Allows c.vocabulary p

variable {config : Config} {c : Corpus} {o : Training.Outcome} {p : Pair}

/-- There is at most one reason to stop. -/
theorem StopReason.Holds.unique {reason reason' : StopReason} (h : reason.Holds config c)
    (h' : reason'.Holds config c) : reason = reason' := by
  cases reason <;> cases reason'
  case sizeReached.sizeReached | belowMinFrequency.belowMinFrequency | noPairsLeft.noPairsLeft => rfl
  case sizeReached.belowMinFrequency | sizeReached.noPairsLeft => exact absurd h (Nat.not_le.2 h'.1)
  case belowMinFrequency.sizeReached | noPairsLeft.sizeReached => exact absurd h' (Nat.not_le.2 h.1)
  case belowMinFrequency.noPairsLeft =>
    obtain ⟨p, hp, hallows⟩ := h.2.1
    exact absurd hallows (h'.2 p hp)
  case noPairsLeft.belowMinFrequency =>
    obtain ⟨p, hp, hallows⟩ := h'.2.1
    exact absurd hallows (h.2 p hp)

namespace Naive

/-- A pair may be merged if it stands in a document and its merge is short enough. -/
theorem mergeable_iff : Mergeable config c p ↔
    p ∈ allPairs c.sequences ∧ config.Allows c.vocabulary p := by
  unfold Config.Allows
  rw [Vocabulary.length_pairBytes]
  exact ⟨fun h => ⟨h.mem, h.short⟩, fun h => ⟨count_pos_iff.2 h.1, h.2⟩⟩

/-- Where the best pair is too rare, every other one is. -/
theorem IsBest.count_lt {best : Candidate Int} (h : IsBest config c best)
    (hseldom : best.count < max config.minFrequency 1) (hp : config.Allows c.vocabulary p) :
    count c.sequences p < max config.minFrequency 1 := by
  by_cases hmem : p ∈ allPairs c.sequences
  · rcases h.leads p (mergeable_iff.2 ⟨hmem, hp⟩) with hlt | ⟨heq, -⟩
    · omega
    · omega
  · have hnone : count c.sequences p = 0 := Int.natCast_eq_zero.2 (List.count_eq_zero.2 hmem)
    omega

/-- The reason of a run holds of the corpus at its end. -/
theorem Runs.holds (h : Runs config c o) : o.reason.Holds config o.corpus := by
  induction h with
  | sizeReached hsize => exact hsize
  | noPairsLeft hsize hnone =>
    exact ⟨hsize, fun p hp hallows => hnone p (mergeable_iff.2 ⟨hp, hallows⟩)⟩
  | belowMinFrequency hsize hbest hseldom =>
    exact ⟨hsize, ⟨_, mergeable_iff.1 hbest.mergeable⟩, fun p => hbest.count_lt hseldom⟩
  | merge _ _ _ _ ih => exact ih

/-- A run makes tokens only as long as the table is too small. -/
theorem Runs.size_le (h : Runs config c o) :
    o.corpus.vocabulary.size ≤ max c.vocabulary.size config.vocabularySize := by
  refine h.keeps (motive := fun d => d.vocabulary.size ≤ max c.vocabulary.size config.vocabularySize)
    (Nat.le_max_left _ _) fun d best hsize _ _ => ?_
  have hstep := d.vocabulary.size_addRule_le best.pair
  rw [Corpus.vocabulary_merged]
  omega

/-- The tokens that a run makes are not longer than allowed. -/
theorem Runs.length_le {limit : Nat} {id : TokenId} {bs : Bytes} (h : Runs config c o)
    (hlimit : config.maxTokenLength = some limit) (hid : c.vocabulary.size ≤ id)
    (hbs : o.corpus.vocabulary.bytes? id = some bs) : bs.length ≤ limit := by
  refine h.keeps (motive := fun d => ∀ id bs, c.vocabulary.size ≤ id →
    d.vocabulary.bytes? id = some bs → bs.length ≤ limit) ?_ ?_ id bs hid hbs
  · intro id bs hid hbs
    exact absurd (Vocabulary.lt_size_of_bytes? hbs) (Nat.not_lt.2 hid)
  · intro d best _ hbest ih id bs hid hbs
    rw [Corpus.vocabulary_merged, Vocabulary.bytes?_addRule] at hbs
    split at hbs
    · rw [← Option.some.inj hbs]
      exact (mergeable_iff.1 hbest.mergeable).2 limit hlimit
    · exact ih id bs hid hbs

end Naive

/-- **The reason to stop is the true one.** From every reachable corpus, training leaves a table no
larger than before or than was asked for, and makes no token that is too long. The reason that it
gives is the one that holds of the corpus at the end, where all pairs are counted again. -/
theorem Corpus.stop_reason_truthful (h : c.Reachable) (config : Config) :
    let o := c.train config
    o.corpus.vocabulary.size ≤ max c.vocabulary.size config.vocabularySize ∧
      (∀ id bs limit, c.vocabulary.size ≤ id → o.corpus.vocabulary.bytes? id = some bs →
        config.maxTokenLength = some limit → bs.length ≤ limit) ∧
      ∀ reason : StopReason, o.reason = reason ↔ reason.Holds config o.corpus := by
  intro o
  have hruns : Runs config c o := h.sound.train_runs config
  refine ⟨hruns.size_le, fun id bs limit hid hbs hlimit => hruns.length_le hlimit hid hbs, ?_⟩
  intro reason
  constructor
  · rintro rfl
    exact hruns.holds
  · exact hruns.holds.unique

/-- A run that goes on until the tokens would become too long: the two tokens that still meet in a
document have five bytes together. -/
theorem stop_reason_truthful_at_length :
    let c := ((Corpus.fresh.ingest [97, 98, 97, 98, 97]).train {}).corpus.ingest [97, 98, 99]
    let config : Config := { minFrequency := 0, maxTokenLength := some 3 }
    let o := c.train config
    c.Reachable ∧ o.corpus.sequences.toList = [[3, 5], [6]] ∧
      o.corpus.vocabulary.size ≤ max c.vocabulary.size 4096 ∧
      (∀ id bs, c.vocabulary.size ≤ id → o.corpus.vocabulary.bytes? id = some bs → bs.length ≤ 3) ∧
      o.reason = .noPairsLeft ∧ ¬config.Allows o.corpus.vocabulary ⟨3, 5⟩ := by
  intro c config o
  have hfirst : (Corpus.fresh.ingest [97, 98, 97, 98, 97]).Reachable := .ingest .fresh _
  have hc : c.Reachable := .ingest (.train hfirst _) _
  obtain ⟨hsize, hlength, hreason⟩ := Corpus.stop_reason_truthful hc config
  have hcorpus : c = _ := congrArg (fun o : Training.Outcome => o.corpus.ingest [97, 98, 99])
    (hfirst.sound.train_eq {})
  have hend : o.corpus.sequences.toList = [[3, 5], [6]] ∧ o.reason = .noPairsLeft := by
    show (c.train config).corpus.sequences.toList = _ ∧ (c.train config).reason = _
    rw [hc.sound.train_eq, hcorpus]
    decide +kernel
  refine ⟨hc, hend.1, hsize, fun id bs hid hbs => hlength id bs 3 hid hbs rfl, hend.2, ?_⟩
  refine ((hreason .noPairsLeft).1 hend.2).2 ⟨3, 5⟩ ?_
  rw [allPairs, hend.1]
  decide

end BytePair
