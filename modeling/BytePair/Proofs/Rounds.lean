import BytePair.Proofs.Soundness
import BytePair.Proofs.Tracking

/-!
# Training agrees with counting again

* `Naive.IsBest`, `Naive.Runs`: the rounds of training, told without a tally and without a bound on
  their number.
* `Training.Ready`: a run between two rounds. The tally is current, and every pair that may be
  merged waits with its current count.
* `Training.Ready.rounds_eq`: from there on a run makes the rounds of `Naive.rounds`.
* `train_eq_naive`: training any reachable corpus is counting again in every round.
-/

namespace BytePair

open Naive (allPairs)
open Sequence (replace)

namespace Naive

variable {config : Config} {c : Corpus} {b d : Candidate Int} {p : Pair}

/-! ## Rounds without a tally -/

/-- The pair may be merged: it occurs, and the token is not too long. -/
structure Mergeable (config : Config) (c : Corpus) (p : Pair) : Prop where
  occurs : 0 < count c.sequences p
  short (limit : Nat) : config.maxTokenLength = some limit →
    c.vocabulary.length p.left + c.vocabulary.length p.right ≤ limit

/-- The pair is merged next: of those that may be merged it occurs most often, and it is the
smallest of those that occur as often. -/
structure IsBest (config : Config) (c : Corpus) (best : Candidate Int) : Prop where
  count_eq : best.count = count c.sequences best.pair
  mergeable : Mergeable config c best.pair
  leads (q : Pair) : Mergeable config c q →
    count c.sequences q < best.count ∨
      count c.sequences q = best.count ∧
        (best.pair.left < q.left ∨ best.pair.left = q.left ∧ best.pair.right ≤ q.right)

/-- A run of rounds, each of which counts everything again, and how it ends. -/
inductive Runs (config : Config) : Corpus → Training.Outcome → Prop
  | sizeReached {c : Corpus} (hsize : config.vocabularySize ≤ c.vocabulary.size) :
    Runs config c ⟨c, [], .sizeReached⟩
  | noPairsLeft {c : Corpus} (hsize : c.vocabulary.size < config.vocabularySize)
    (hnone : ∀ p, ¬Mergeable config c p) : Runs config c ⟨c, [], .noPairsLeft⟩
  | belowMinFrequency {c : Corpus} {best : Candidate Int}
    (hsize : c.vocabulary.size < config.vocabularySize) (hbest : IsBest config c best)
    (hseldom : best.count < max config.minFrequency 1) : Runs config c ⟨c, [], .belowMinFrequency⟩
  | merge {c : Corpus} {best : Candidate Int} {o : Training.Outcome}
    (hsize : c.vocabulary.size < config.vocabularySize) (hbest : IsBest config c best)
    (hoften : max config.minFrequency 1 ≤ best.count)
    (later : Runs config (c.merged best.pair) o) :
    Runs config c
      { o with merges := ⟨(c.vocabulary.addRule best.pair).2, best.count⟩ :: o.merges }

theorem Mergeable.mem (h : Mergeable config c p) : p ∈ allPairs c.sequences :=
  count_pos_iff.1 h.occurs

theorem fits_iff {v : Vocabulary} : Training.fits config v p ↔
    ∀ limit, config.maxTokenLength = some limit → v.length p.left + v.length p.right ≤ limit := by
  unfold Training.fits
  cases config.maxTokenLength <;> simp

theorem mem_candidates :
    d ∈ candidates config c ↔ d.count = count c.sequences d.pair ∧ Mergeable config c d.pair := by
  obtain ⟨n, q⟩ := d
  simp only [candidates, List.mem_map, List.mem_filter, Candidate.mk.injEq]
  constructor
  · rintro ⟨q, ⟨hq, hfits⟩, rfl, rfl⟩
    exact ⟨rfl, count_pos_iff.2 hq, fits_iff.1 hfits⟩
  · rintro ⟨rfl, hq, hshort⟩
    exact ⟨q, ⟨count_pos_iff.1 hq, fits_iff.2 hshort⟩, rfl, rfl⟩

theorem isBest_iff :
    IsBest config c b ↔ b ∈ candidates config c ∧ ∀ d ∈ candidates config c, b.precedes d := by
  constructor
  · rintro ⟨hcount, hmergeable, hleads⟩
    refine ⟨mem_candidates.2 ⟨hcount, hmergeable⟩, fun d hd => ?_⟩
    obtain ⟨hd, hmd⟩ := mem_candidates.1 hd
    rw [Candidate.precedes_iff, Pair.compare_isLE_iff, hd]
    exact (hleads d.pair hmd).imp_right fun h => ⟨h.1.symm, h.2⟩
  · rintro ⟨hb, hfirst⟩
    obtain ⟨hcount, hmergeable⟩ := mem_candidates.1 hb
    refine ⟨hcount, hmergeable, fun q hq => ?_⟩
    have h := hfirst ⟨count c.sequences q, q⟩ (mem_candidates.2 ⟨rfl, hq⟩)
    rw [Candidate.precedes_iff, Pair.compare_isLE_iff] at h
    exact h.imp_right fun h => ⟨h.1.symm, h.2⟩

theorem IsBest.unique (hb : IsBest config c b) (hd : IsBest config c d) : b = d := by
  rw [isBest_iff] at hb hd
  exact Candidate.precedes_antisymm (hb.2 d hd.1) (hd.2 b hb.1)

/-- A run has one end only. -/
theorem Runs.unique {o o' : Training.Outcome} (h : Runs config c o) (h' : Runs config c o') :
    o = o' := by
  induction h generalizing o' with
  | sizeReached hsize => cases h' <;> first | rfl | omega
  | noPairsLeft hsize hnone =>
    cases h' with
    | sizeReached => omega
    | noPairsLeft => rfl
    | belowMinFrequency _ hbest _ => exact absurd hbest.mergeable (hnone _)
    | merge _ hbest _ _ => exact absurd hbest.mergeable (hnone _)
  | belowMinFrequency hsize hbest hseldom =>
    cases h' with
    | sizeReached => omega
    | noPairsLeft _ hnone => exact absurd hbest.mergeable (hnone _)
    | belowMinFrequency => rfl
    | merge _ hbest' hoften _ =>
      obtain rfl := hbest.unique hbest'
      omega
  | merge hsize hbest hoften _ ih =>
    cases h' with
    | sizeReached => omega
    | noPairsLeft _ hnone => exact absurd hbest.mergeable (hnone _)
    | belowMinFrequency _ hbest' hseldom =>
      obtain rfl := hbest.unique hbest'
      omega
    | merge _ hbest' _ later =>
      obtain rfl := hbest.unique hbest'
      rw [ih later]

/-- What every merge of a best pair keeps, a run keeps. -/
theorem Runs.keeps {o : Training.Outcome} {motive : Corpus → Prop} (h : Runs config c o)
    (start : motive c)
    (merged : ∀ (c : Corpus) (best : Candidate Int), c.vocabulary.size < config.vocabularySize →
      IsBest config c best → motive c → motive (c.merged best.pair)) : motive o.corpus := by
  induction h with
  | sizeReached | noPairsLeft | belowMinFrequency => exact start
  | merge hsize hbest _ _ ih => exact ih (merged _ _ hsize hbest start)

/-! ## The first candidate of a list -/

theorem best?_eq_none_iff {cs : List (Candidate Int)} : best? cs = none ↔ cs = [] := by
  cases cs with
  | nil => simp [best?]
  | cons c cs => cases h : best? cs <;> simp [best?, h]

theorem first_of_best? {cs : List (Candidate Int)} (h : best? cs = some b) :
    b ∈ cs ∧ ∀ d ∈ cs, b.precedes d := by
  induction cs generalizing b with
  | nil => simp [best?] at h
  | cons c cs ih =>
    have hrefl : c.precedes c := by simpa using c.precedes_total c
    rw [best?] at h
    cases hd : best? cs with
    | none =>
      rw [hd] at h
      cases h
      rw [best?_eq_none_iff.1 hd]
      simp [hrefl]
    | some d =>
      obtain ⟨hmem, hfirst⟩ := ih hd
      rw [hd] at h
      simp only [Option.some.injEq] at h
      split at h
      · rename_i hcd
        subst h
        refine ⟨List.mem_cons_self, List.forall_mem_cons.2 ⟨hrefl, fun e he => ?_⟩⟩
        exact Candidate.precedes_trans _ _ _ hcd (hfirst e he)
      · rename_i hcd
        subst h
        refine ⟨List.mem_cons_of_mem _ hmem, List.forall_mem_cons.2 ⟨?_, hfirst⟩⟩
        simpa [hcd] using c.precedes_total d

theorem best?_candidates_eq_some_iff :
    best? (candidates config c) = some b ↔ IsBest config c b := by
  constructor
  · intro h
    exact isBest_iff.2 (first_of_best? h)
  · intro h
    cases hd : best? (candidates config c) with
    | none =>
      have hmem := (isBest_iff.1 h).1
      rw [best?_eq_none_iff.1 hd] at hmem
      exact absurd hmem List.not_mem_nil
    | some d => rw [(isBest_iff.2 (first_of_best? hd)).unique h]

theorem best?_candidates_eq_none_iff :
    best? (candidates config c) = none ↔ ∀ p, ¬Mergeable config c p := by
  rw [best?_eq_none_iff, List.eq_nil_iff_forall_not_mem]
  constructor
  · intro h p hp
    exact h ⟨count c.sequences p, p⟩ (mem_candidates.2 ⟨rfl, hp⟩)
  · intro h d hd
    exact h d.pair (mem_candidates.1 hd).2

/-! ## Enough rounds -/

/-- A round ends the run, or merges the best pair. -/
theorem advance_cases (config : Config) (c : Corpus) :
    (∃ reason, advance config c = .error reason ∧ Runs config c ⟨c, [], reason⟩) ∨
      ∃ best, c.vocabulary.size < config.vocabularySize ∧ IsBest config c best ∧
        max config.minFrequency 1 ≤ best.count ∧
        advance config c =
          .ok (c.merged best.pair, ⟨(c.vocabulary.addRule best.pair).2, best.count⟩) := by
  unfold advance
  split
  · exact .inl ⟨_, rfl, .sizeReached ‹_›⟩
  · rename_i hsize
    have hsize : c.vocabulary.size < config.vocabularySize := Nat.not_le.1 hsize
    split
    · exact .inl ⟨_, rfl, .noPairsLeft hsize (best?_candidates_eq_none_iff.1 ‹_›)⟩
    · rename_i best hbest
      have hbest := best?_candidates_eq_some_iff.1 hbest
      split
      · exact .inl ⟨_, rfl, .belowMinFrequency hsize hbest ‹_›⟩
      · exact .inr ⟨best, hsize, hbest, Int.not_lt.1 ‹_›, rfl⟩

/-- As many rounds as the documents have tokens are enough to come to an end. -/
theorem rounds_runs (config : Config) {n : Nat} (h : c.symbolCount < n) (done : List Merge) :
    ∃ o, Runs config c o ∧
      rounds config n c done = { o with merges := done.reverse ++ o.merges } := by
  induction n generalizing c done with
  | zero => omega
  | succ n ih =>
    rw [rounds]
    rcases advance_cases config c with ⟨reason, heq, hruns⟩ | ⟨best, hsize, hbest, hoften, heq⟩
    · refine ⟨_, hruns, ?_⟩
      rw [heq, List.append_nil]
    · have hless := Corpus.symbolCount_merged_lt hbest.mergeable.mem
      obtain ⟨o, hruns, hrounds⟩ := ih (show (c.merged best.pair).symbolCount < n by omega)
        (⟨(c.vocabulary.addRule best.pair).2, best.count⟩ :: done)
      refine ⟨_, .merge hsize hbest hoften hruns, ?_⟩
      simp only [heq, hrounds, List.reverse_cons, List.append_assoc, List.singleton_append]

theorem train_runs (config : Config) (c : Corpus) : Runs config c (train config c) := by
  obtain ⟨o, hruns, hrounds⟩ := rounds_runs config (Nat.lt_succ_self c.symbolCount) []
  have h : train config c = o := hrounds
  rwa [h]

end Naive

/-! ## Rounds with a tally -/

namespace Training

variable {config : Config} {t : Training} {best : Candidate Int}

/-- Taking a sequence out and putting its merge back is merging it in place. -/
theorem set_merged_eq (p : Pair) (new : TokenId) (seqs : Array Sequence) (i : Nat) :
    (seqs.setIfInBounds i []).setIfInBounds i (replace p new (seqs.getD i [])) =
      seqs.modify i fun s => (Sequence.merge p new s).1 := by
  refine Array.ext_getElem? fun j => ?_
  simp only [Array.getElem?_setIfInBounds, Array.size_setIfInBounds, Array.getElem?_modify,
    Sequence.merge_fst]
  by_cases hij : i = j
  · subst hij
    by_cases hi : i < seqs.size <;> simp [hi]
  · simp [hij]

/-- Merging elsewhere does not change what is reported. -/
theorem reportsIn_modify {i : Nat} {positions : List Nat} (hi : i ∉ positions) (p : Pair)
    (new : TokenId) (f : Sequence → Sequence) (seqs : Array Sequence) :
    reportsIn p new positions (seqs.modify i f) = reportsIn p new positions seqs := by
  unfold reportsIn
  refine List.flatMap_congr fun j hj => ?_
  have hij : i ≠ j := fun h => hi (h ▸ hj)
  rw [Array.getD_eq_getD_getElem?, Array.getD_eq_getD_getElem?, Array.getElem?_modify, if_neg hij]

/-- Merging at some positions, with the changes noted on the way, is merging there and noting the
reports. -/
theorem mergeAt_eq (rule : Rule) {positions : List Nat} (hnodup : positions.Nodup)
    (draft : Tally.Draft Int) (seqs : Array Sequence) :
    mergeAt rule positions draft seqs =
      (draft.noteAll (reportsIn rule.pair rule.new positions seqs),
        mergeIn rule.pair rule.new positions seqs) := by
  induction positions generalizing draft seqs with
  | nil => rfl
  | cons i positions ih =>
    obtain ⟨hi, hnodup⟩ := List.nodup_cons.1 hnodup
    have hstep : mergeAt rule (i :: positions) draft seqs =
        mergeAt rule positions
          (draft.noteAll ((Sequence.merge rule.pair rule.new (seqs.getD i [])).2.map (·, i)))
          (seqs.modify i fun s => (Sequence.merge rule.pair rule.new s).1) := by
      unfold mergeAt
      rw [List.foldl_cons]
      simp only [Sequence.mergeFold_eq, set_merged_eq, Tally.Draft.noteAll, List.foldl_map]
    rw [hstep, ih hnodup, reportsIn_modify hi, ← Tally.Draft.noteAll_append]
    rfl

/-- With a current tally, a round merges the pair in every document. -/
theorem perform_eq {c : Corpus} {tally : Tally Int} (h : tally.Tracks c.sequences)
    (best : Candidate Int) :
    perform best tally c =
      (⟨c.merged best.pair,
        tally.settle (tally.draftOf best.pair (c.vocabulary.addRule best.pair).2.new c.sequences)⟩,
        ⟨(c.vocabulary.addRule best.pair).2, best.count⟩) := by
  have hnodup := (Census.pairwise_sequencesWith tally.toCensus best.pair).imp Nat.ne_of_lt
  have hmerge := mergeAt_eq (c.vocabulary.addRule best.pair).2 hnodup tally.draft c.sequences
  have hpair : (c.vocabulary.addRule best.pair).2.pair = best.pair := rfl
  rw [hpair, h.mergeIn_eq] at hmerge
  simp only [perform, hmerge]
  rfl

/-! ## Between two rounds -/

/-- A run between two rounds: the tally is current, and every pair that may be merged waits in its
queue with its count. -/
structure Ready (config : Config) (t : Training) : Prop where
  sound : t.corpus.Sound
  tracks : t.tally.Tracks t.corpus.sequences
  waiting : ∀ d ∈ Naive.candidates config t.corpus, d ∈ t.tally.queue
  positive : ∀ d ∈ t.tally.queue, 0 < d.count

theorem mem_queue_start {c : Corpus} {d : Candidate Int} : d ∈ (start config c).tally.queue ↔
    (start config c).tally.counts[d.pair]? = some d.count ∧ 0 < d.count :=
  Tally.mem_queue_ofCensus

theorem ready_start {c : Corpus} (h : c.Sound) (config : Config) :
    (start config c).Ready config := by
  have htracks : (start config c).tally.Tracks c.sequences :=
    Tally.tracks_ofSequences config.parallel c.sequences
  refine ⟨h, htracks, fun d hd => ?_, fun d hd => (mem_queue_start.1 hd).2⟩
  obtain ⟨hcount, hmergeable⟩ := Naive.mem_candidates.1 hd
  have hcount : d.count = Naive.count c.sequences d.pair := hcount
  have hoccurs : 0 < Naive.count c.sequences d.pair := hmergeable.occurs
  rw [mem_queue_start, hcount]
  exact ⟨htracks.getElem?_counts (count_pos_iff.1 hoccurs), hoccurs⟩

/-- What waits with a current count and fits is what counting again would find. -/
theorem Ready.mem_candidates_iff (h : t.Ready config) {d : Candidate Int} :
    d ∈ Naive.candidates config t.corpus ↔ d ∈ t.tally.queue ∧
      t.tally.count d.pair = d.count ∧ fits config t.corpus.vocabulary d.pair := by
  rw [h.tracks.count_eq]
  constructor
  · intro hd
    obtain ⟨hcount, hmergeable⟩ := Naive.mem_candidates.1 hd
    exact ⟨h.waiting d hd, hcount.symm, Naive.fits_iff.2 hmergeable.short⟩
  · rintro ⟨hd, hcount, hfits⟩
    exact Naive.mem_candidates.2
      ⟨hcount.symm, hcount ▸ h.positive d hd, Naive.fits_iff.1 hfits⟩

/-- What a round finds in the queue. -/
def pick (config : Config) (t : Training) : Tally.Pick Int :=
  t.tally.pop (fits config t.corpus.vocabulary)

theorem isFirst_pick (config : Config) (t : Training) :
    Candidates.Offer.IsFirst
      ⟨(pick config t).best?, (pick config t).shown, (pick config t).rest.queue⟩
      t.tally.count (fits config t.corpus.vocabulary) t.tally.queue :=
  Candidates.isFirst_next _ _ _

theorem Ready.tracks_pick (h : t.Ready config) :
    (pick config t).rest.Tracks t.corpus.sequences :=
  h.tracks.pop _

/-- The queue offers the pair that counting again finds. -/
theorem Ready.pick_best (h : t.Ready config) :
    (pick config t).best? = Naive.best? (Naive.candidates config t.corpus) := by
  have hfirst := isFirst_pick config t
  cases hbest : (pick config t).best? with
  | none =>
    refine (Naive.best?_eq_none_iff.2 (List.eq_nil_iff_forall_not_mem.2 fun d hd => ?_)).symm
    obtain ⟨hd, hcount, hfits⟩ := h.mem_candidates_iff.1 hd
    exact hfirst.missed hbest d hd hcount hfits
  | some best =>
    refine (Naive.best?_candidates_eq_some_iff.2 (Naive.isBest_iff.2 ⟨?_, fun d hd => ?_⟩)).symm
    · exact h.mem_candidates_iff.2 (hfirst.found best hbest)
    · obtain ⟨hd, hcount, hfits⟩ := h.mem_candidates_iff.1 hd
      exact hfirst.first best hbest d hd hcount hfits

/-- A pair that may be merged after a round, and did not gain in it, could be merged before it. -/
theorem mergeable_of_merged {c : Corpus} {p q : Pair}
    (h : Naive.Mergeable config (c.merged p) q)
    (hle : Naive.count (c.merged p).sequences q ≤ Naive.count c.sequences q) :
    Naive.Mergeable config c q := by
  refine ⟨Int.lt_of_lt_of_le h.occurs hle, fun limit hlimit => ?_⟩
  have hgrows := c.vocabulary.grows_addRule p
  have hshort := h.short limit hlimit
  have hleft := hgrows.length_le q.left
  have hright := hgrows.length_le q.right
  simp only [Corpus.merged] at hshort
  omega

/-- A round leaves the run ready for the next one. -/
theorem Ready.perform (h : t.Ready config) (hbest : (pick config t).best? = some best) :
    (perform best (pick config t).rest t.corpus).1.Ready config := by
  have hfirst := isFirst_pick config t
  have hmem := Naive.isBest_iff.1 (Naive.best?_candidates_eq_some_iff.1 (h.pick_best ▸ hbest))
  have hoccurs := (Naive.mem_candidates.1 hmem.1).2.mem
  have htracks := h.tracks_pick
  rw [perform_eq htracks]
  refine ⟨h.sound.merged hoccurs, htracks.settle _ _, fun d hd => ?_, fun d hd => ?_⟩
  · obtain ⟨hcount, hmergeable⟩ := Naive.mem_candidates.1 hd
    rw [Tally.mem_queue_settle, htracks.countAfter_eq]
    -- a pair whose count moves is queued again; the others have waited since before the round
    by_cases hnet :
        ((pick config t).rest.draftOf best.pair (t.corpus.vocabulary.addRule best.pair).2.new
          t.corpus.sequences).netOf d.pair = 0
    · have hsame := htracks.count_map_replace_eq hnet
      have hbefore := Naive.mem_candidates.2
        ⟨hcount.trans hsame, mergeable_of_merged hmergeable hsame.le⟩
      obtain ⟨hqueue, hnow, hfits⟩ := h.mem_candidates_iff.1 hbefore
      refine .inl (hfirst.kept d hqueue hnow hfits fun heq => ?_)
      -- the merged pair is gone, so it is not the pair of a candidate
      obtain rfl : best = d := Option.some.inj (hbest.symm.trans heq)
      exact h.sound.notMem_merged hoccurs hmergeable.mem
    · exact .inr ⟨hnet, hcount, hcount ▸ hmergeable.occurs⟩
  · rcases Tally.mem_queue_settle.1 hd with hd | ⟨-, -, hpos⟩
    · exact h.positive d (hfirst.waited d hd)
    · exact hpos

/-- A round with a tally is a round that counts again. -/
theorem Ready.round (h : t.Ready config) :
    (∃ reason, choose config t = .error reason ∧ Naive.advance config t.corpus = .error reason) ∨
      ∃ best tally, choose config t = .ok (best, tally) ∧
        Naive.advance config t.corpus =
          .ok ((Training.perform best tally t.corpus).1.corpus,
            (Training.perform best tally t.corpus).2) ∧
        (Training.perform best tally t.corpus).1.Ready config := by
  unfold choose Naive.advance
  by_cases hsize : config.vocabularySize ≤ t.corpus.vocabulary.size
  · exact .inl ⟨_, if_pos hsize, if_pos hsize⟩
  · have hpick : t.tally.pop (fits config t.corpus.vocabulary) = pick config t := rfl
    simp only [if_neg hsize, ← h.pick_best, hpick]
    cases hbest : (pick config t).best? with
    | none => exact .inl ⟨_, rfl, rfl⟩
    | some best =>
      by_cases hseldom : best.count < max config.minFrequency 1
      · exact .inl ⟨_, if_pos hseldom, if_pos hseldom⟩
      · refine .inr ⟨best, _, if_neg hseldom, ?_, h.perform hbest⟩
        simp only [if_neg hseldom]
        rw [perform_eq h.tracks_pick]
        rfl

theorem Ready.rounds_eq (h : t.Ready config) (n : Nat) (done : List Merge) :
    rounds config n t done = Naive.rounds config n t.corpus done := by
  induction n generalizing t done with
  | zero => rfl
  | succ n ih =>
    rw [rounds, Naive.rounds]
    rcases h.round with ⟨reason, hchoose, hadvance⟩ | ⟨best, tally, hchoose, hadvance, hready⟩
    · rw [hchoose, hadvance]
    · rw [hchoose, hadvance]
      exact ih hready _

end Training

/-! ## Reachable corpora -/

namespace Corpus

variable {c : Corpus}

theorem Sound.train_eq (h : c.Sound) (config : Config) : c.train config = Naive.train config c :=
  (Training.ready_start h config).rounds_eq _ _

theorem Sound.train_runs (h : c.Sound) (config : Config) :
    Naive.Runs config c (c.train config) := by
  rw [h.train_eq]
  exact Naive.train_runs config c

theorem Sound.runs {config : Config} {o : Training.Outcome} (h : c.Sound)
    (hruns : Naive.Runs config c o) : o.corpus.Sound :=
  hruns.keeps h fun _ _ _ hbest hc => hc.merged hbest.mergeable.mem

theorem Sound.train (h : c.Sound) (config : Config) : (c.train config).corpus.Sound :=
  h.runs (h.train_runs config)

/-- What every merge of an occurring pair keeps, a run keeps. -/
theorem Sound.runs_keep {config : Config} {o : Training.Outcome} {motive : Corpus → Prop}
    (h : c.Sound) (hruns : Naive.Runs config c o) (start : motive c)
    (merged : ∀ (c : Corpus) (p : Pair), c.Sound → p ∈ allPairs c.sequences → motive c →
      motive (c.merged p)) : motive o.corpus := by
  have hkept : o.corpus.Sound ∧ motive o.corpus := by
    refine hruns.keeps (motive := fun c => c.Sound ∧ motive c) ⟨h, start⟩ ?_
    rintro d best - hbest ⟨hd, hmotive⟩
    have hp := hbest.mergeable.mem
    exact ⟨hd.merged hp, merged d best.pair hd hp hmotive⟩
  exact hkept.2

/-- Where no two tokens meet there is nothing to merge. -/
theorem Sound.train_eq_self (h : c.Sound) (hnone : allPairs c.sequences = []) (config : Config) :
    (c.train config).corpus = c := by
  refine h.runs_keep (motive := (· = c)) (h.train_runs config) rfl ?_
  rintro d p - hp rfl
  rw [hnone] at hp
  cases hp

/-- A corpus that comes from a fresh one by taking in documents and training, in any order. -/
inductive Reachable : Corpus → Prop
  | fresh : Reachable fresh
  | ingest {c : Corpus} (h : Reachable c) (document : Bytes) : Reachable (c.ingest document)
  | train {c : Corpus} (h : Reachable c) (config : Config) : Reachable (c.train config).corpus

theorem Reachable.sound (h : c.Reachable) : c.Sound := by
  induction h with
  | fresh => exact sound_fresh
  | ingest _ document ih => exact ih.ingest document
  | train _ config ih => exact ih.train config

/-- Induction over the steps that make up a reachable corpus: documents and single merges. -/
theorem Reachable.keeps {motive : Corpus → Prop} (h : c.Reachable) (start : motive Corpus.fresh)
    (ingest : ∀ (c : Corpus) (d : Bytes), c.Sound → motive c → motive (c.ingest d))
    (merged : ∀ (c : Corpus) (p : Pair), c.Sound → p ∈ allPairs c.sequences → motive c →
      motive (c.merged p)) : motive c := by
  induction h with
  | fresh => exact start
  | ingest h document ih => exact ingest _ document h.sound ih
  | train h config ih => exact h.sound.runs_keep (h.sound.train_runs config) ih merged

end Corpus

/-- **Training is counting again.** From every reachable corpus, training ends with the corpus, the
merges and the reason to stop that rounds without a tally have, and there is no other way for these
to go. -/
theorem train_eq_naive {c : Corpus} (h : c.Reachable) (config : Config) :
    c.train config = Naive.train config c ∧
      ∀ o, Naive.Runs config c o ↔ o = c.train config := by
  have hruns := h.sound.train_runs config
  refine ⟨h.sound.train_eq config, fun o => ⟨fun ho => ho.unique hruns, ?_⟩⟩
  rintro rfl
  exact hruns

/-- Training goes on from a trained corpus with a further document, up to the longest tokens that
are allowed. -/
theorem train_eq_naive_again :
    let c := ((Corpus.fresh.ingest [97, 98, 97, 98, 97]).train {}).corpus.ingest [97, 98, 99]
    let config : Config := { minFrequency := 1, maxTokenLength := some 3 }
    c.Reachable ∧ Naive.Runs config c (c.train config) ∧
      (c.train config).merges = [⟨⟨⟨1, 2⟩, 3⟩, 1⟩, ⟨⟨⟨3, 1⟩, 5⟩, 1⟩, ⟨⟨⟨3, 4⟩, 6⟩, 1⟩] := by
  intro c config
  have hfirst : (Corpus.fresh.ingest [97, 98, 97, 98, 97]).Reachable := .ingest .fresh _
  have hc : c.Reachable := .ingest (.train hfirst _) _
  obtain ⟨heq, hruns⟩ := train_eq_naive hc config
  refine ⟨hc, (hruns _).2 rfl, ?_⟩
  have hcorpus : c = _ := congrArg (fun o : Training.Outcome => o.corpus.ingest [97, 98, 99])
    (train_eq_naive hfirst {}).1
  rw [heq, hcorpus]
  decide +kernel

end BytePair
