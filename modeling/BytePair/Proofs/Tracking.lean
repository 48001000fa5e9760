import BytePair.Proofs.Settling
import BytePair.Training.Naive
import Mathlib.Data.List.Dedup
import Mathlib.Data.List.Sort

/-!
# Keeping a tally current

The tally of a list of sequences stays current while pairs are merged: only the sequences it names
are rewritten, and only their reports are taken over, but the result is the one of rewriting and
counting everything.

* `Tally.Tracks`: a tally is current. Its counts are exact, and its holders may be too many but
  none is missing.
* `Tracked.merge`: one merge of any pair into any token.
* `Tally.Tracks.settle`: taking over what a merge reports keeps a tally current.
* `tally_exact_after_merges`: after any run of merges the tally is current, and every sequence has
  taken part in every merge.
-/

namespace BytePair

open Naive (allPairs)
open Sequence (replace netChange)

variable {p q : Pair} {new : TokenId} {seqs : Array Sequence} {t : Tally Int} {i j : Nat}

/-! ## Current tallies -/

/-- The tally is current: its counts are those of the sequences, and every sequence that has a pair
is among the holders of the pair. -/
structure Tally.Tracks (t : Tally Int) (seqs : Array Sequence) : Prop where
  count_eq (p : Pair) : t.count p = Naive.count seqs p
  mem_counts (p : Pair) : p ∈ t.counts ↔ p ∈ allPairs seqs
  holds (p : Pair) (i : Nat) (hi : i < seqs.size) :
    p ∈ adjacentPairs seqs[i] → i ∈ t.sequencesWith p
  inside (p : Pair) (i : Nat) : i ∈ t.sequencesWith p → i < seqs.size

theorem placedPairs_zipIdx (seqs : Array Sequence) :
    Census.placedPairs seqs.toList.zipIdx = allPairs seqs := by
  have h := List.flatMap_map (l := seqs.toList.zipIdx) Prod.fst adjacentPairs
  rw [List.zipIdx_map_fst] at h
  exact h.symm

/-- Counting everything makes a current tally. -/
theorem Tally.tracks_ofSequences (parallel : Bool) (seqs : Array Sequence) :
    (Tally.ofSequences parallel seqs).Tracks seqs := by
  have h : (Census.ofSequences parallel seqs : Census Int).Describes seqs.toList.zipIdx :=
    Census.describes_ofSequences parallel seqs
  have hmem (p : Pair) (i : Nat) :
      i ∈ (Census.ofSequences parallel seqs : Census Int).sequencesWith p ↔
        ∃ s, seqs[i]? = some s ∧ p ∈ adjacentPairs s := by
    rw [Census.mem_sequencesWith, h.held]
    simp only [List.mk_mem_zipIdx_iff_getElem?, Array.getElem?_toList]
  refine ⟨fun p => ?_, fun p => ?_, fun p i hi hp => ?_, fun p i hi => ?_⟩
  · rw [Naive.count, ← placedPairs_zipIdx, ← Census.countTo_int]
    exact h.count_eq p
  · rw [← placedPairs_zipIdx]
    exact h.mem_counts p
  · exact (hmem p i).2 ⟨_, Array.getElem?_eq_getElem hi, hp⟩
  · obtain ⟨s, hs, -⟩ := (hmem p i).1 hi
    exact (Array.getElem?_eq_some_iff.1 hs).1

theorem Naive.count_nonneg (seqs : Array Sequence) (p : Pair) : 0 ≤ count seqs p :=
  Int.natCast_nonneg _

theorem count_pos_iff : 0 < Naive.count seqs p ↔ p ∈ allPairs seqs := by
  rw [Naive.count, Int.natCast_pos, List.count_pos_iff]

theorem Tally.Tracks.getElem?_counts (h : t.Tracks seqs) (hp : p ∈ allPairs seqs) :
    t.counts[p]? = some (Naive.count seqs p) := by
  rw [← h.count_eq]
  exact Std.ExtTreeMap.getElem?_eq_some_getD ((h.mem_counts p).2 hp)

/-- A look at the queue leaves the census alone. -/
theorem Tally.Tracks.pop (h : t.Tracks seqs) (accept : Pair → Bool) :
    (t.pop accept).rest.Tracks seqs :=
  ⟨h.count_eq, h.mem_counts, h.holds, h.inside⟩

theorem mem_allPairs : p ∈ allPairs seqs ↔ ∃ s ∈ seqs, p ∈ adjacentPairs s := by
  simp [allPairs]

/-! ## Merging in some sequences -/

/-- The sequences after the pair is merged in those at the given positions. -/
def mergeIn (p : Pair) (new : TokenId) (positions : List Nat) (seqs : Array Sequence) :
    Array Sequence :=
  positions.foldl (fun seqs i => seqs.modify i fun s => (Sequence.merge p new s).1) seqs

/-- What the merges in the sequences at the given positions report, with the position. -/
def reportsIn (p : Pair) (new : TokenId) (positions : List Nat) (seqs : Array Sequence) :
    List (Tally.PlacedChange Int) :=
  positions.flatMap fun i => (Sequence.merge p new (seqs.getD i [])).2.map (·, i)

theorem getElem?_mergeIn {positions : List Nat} (hnodup : positions.Nodup) (seqs : Array Sequence)
    (j : Nat) : (mergeIn p new positions seqs)[j]? =
      if j ∈ positions then seqs[j]?.map (replace p new) else seqs[j]? := by
  unfold mergeIn
  induction positions generalizing seqs with
  | nil => simp
  | cons i positions ih =>
    obtain ⟨hi, hnodup⟩ := List.nodup_cons.1 hnodup
    rw [List.foldl_cons, ih hnodup]
    simp only [Sequence.merge_fst, Array.getElem?_modify, List.mem_cons]
    grind

/-- A current tally names all the sequences that a merge would change. -/
theorem Tally.Tracks.mergeIn_eq (h : t.Tracks seqs) (p : Pair) (new : TokenId) :
    mergeIn p new (t.sequencesWith p) seqs = seqs.map (replace p new) := by
  refine Array.ext_getElem? fun j => ?_
  have hnodup := (Census.pairwise_sequencesWith t.toCensus p).imp fun h => Nat.ne_of_lt h
  rw [getElem?_mergeIn hnodup, Array.getElem?_map]
  split
  · rfl
  · rename_i hj
    cases hs : seqs[j]? with
    | none => rfl
    | some s =>
      obtain ⟨hlt, rfl⟩ := Array.getElem?_eq_some_iff.1 hs
      rw [Option.map_some, Sequence.replace_of_notMem (mt (h.holds p j hlt) hj)]

theorem flatMap_filter {α β : Type} {l : List α} {f : α → List β} {keep : α → Bool}
    (h : ∀ a ∈ l, keep a = false → f a = []) : (l.filter keep).flatMap f = l.flatMap f := by
  induction l with
  | nil => rfl
  | cons a l ih =>
    have ih := ih fun b hb => h b (List.mem_cons_of_mem _ hb)
    rw [List.filter_cons, List.flatMap_cons]
    split
    · rw [List.flatMap_cons, ih]
    · rename_i hkeep
      rw [ih, h a List.mem_cons_self (by simpa using hkeep), List.nil_append]

/-- A current tally names all the sequences in which a merge has something to report. -/
theorem Tally.Tracks.reportsIn_eq (h : t.Tracks seqs) (p : Pair) (new : TokenId) :
    reportsIn p new (t.sequencesWith p) seqs = reportsIn p new (List.range seqs.size) seqs := by
  have hsorted := Census.pairwise_sequencesWith t.toCensus p
  have hnamed : (List.range seqs.size).filter (· ∈ t.sequencesWith p) = t.sequencesWith p := by
    refine ((List.pairwise_lt_range).filter _).eq_of_mem_iff hsorted fun i => ?_
    simp only [List.mem_filter, List.mem_range, decide_eq_true_eq, and_iff_right_iff_imp]
    exact h.inside p i
  rw [← hnamed]
  refine flatMap_filter fun i hi hnot => ?_
  have hlt := List.mem_range.1 hi
  have hp : p ∉ adjacentPairs (seqs.getD i []) := by
    rw [← Array.getElem_eq_getD (h := hlt)]
    exact mt (h.holds p i hlt) (by simpa using hnot)
  rw [Sequence.merge_of_notMem hp]
  rfl

/-! ## Taking over the reports -/

theorem map_getD_range (seqs : Array Sequence) :
    (List.range seqs.size).map (seqs.getD · []) = seqs.toList := by
  refine List.ext_getElem (by simp) fun i h _ => ?_
  simp only [List.length_map, List.length_range] at h
  simp [h]

theorem map_fst_reportsIn_range (p : Pair) (new : TokenId) (seqs : Array Sequence) :
    (reportsIn p new (List.range seqs.size) seqs).map (·.1) =
      seqs.toList.flatMap fun s => (Sequence.merge p new s).2 := by
  rw [← map_getD_range, List.flatMap_map, reportsIn, List.map_flatMap]
  simp [Function.comp_def]

/-- All reports together are the difference between the counts after and before. -/
theorem count_map_replace (p : Pair) (new : TokenId) (seqs : Array Sequence) (q : Pair) :
    Naive.count (seqs.map (replace p new)) q = Naive.count seqs q +
      netChange ((reportsIn p new (List.range seqs.size) seqs).map (·.1)) q := by
  rw [map_fst_reportsIn_range, Naive.count, Naive.count, allPairs, allPairs, Array.toList_map]
  induction seqs.toList with
  | nil => rfl
  | cons s l ih =>
    have hs := Sequence.count_adjacentPairs_merge p new s q
    rw [Sequence.merge_fst] at hs
    simp only [List.map_cons, List.flatMap_cons, List.count_append, Sequence.netChange_append]
    push_cast
    omega

theorem mem_reportsIn_range {c : Change Int} :
    (c, i) ∈ reportsIn p new (List.range seqs.size) seqs ↔
      ∃ s, seqs[i]? = some s ∧ c ∈ (Sequence.merge p new s).2 := by
  simp only [reportsIn, List.mem_flatMap, List.mem_range, List.mem_map, Prod.mk.injEq,
    Array.getElem?_eq_some_iff]
  constructor
  · rintro ⟨j, hj, c, hc, rfl, rfl⟩
    exact ⟨seqs[j], ⟨hj, rfl⟩, by simpa [hj] using hc⟩
  · rintro ⟨s, ⟨hi, rfl⟩, hc⟩
    exact ⟨i, hi, c, by simpa [hi] using hc, rfl, rfl⟩

/-- What the merges of a pair report, noted in a draft of a current tally. -/
def Tally.draftOf (t : Tally Int) (p : Pair) (new : TokenId) (seqs : Array Sequence) :
    Tally.Draft Int :=
  t.draft.noteAll (reportsIn p new (t.sequencesWith p) seqs)

/-- The counts after the draft are those of counting again. -/
theorem Tally.Tracks.countAfter_eq (h : t.Tracks seqs) (p : Pair) (new : TokenId) (q : Pair) :
    t.countAfter (t.draftOf p new seqs) q = Naive.count (seqs.map (replace p new)) q := by
  have hnet := Draft.netOf_noteAll t.draft (reportsIn p new (t.sequencesWith p) seqs) q
  rw [Tally.countAfter, draftOf, hnet, count_map_replace, h.count_eq, h.reportsIn_eq]
  simp [Draft.netOf, Tally.draft]

/-- A pair without a net change occurs as often as before. -/
theorem Tally.Tracks.count_map_replace_eq (h : t.Tracks seqs)
    (hq : (t.draftOf p new seqs).netOf q = 0) :
    Naive.count (seqs.map (replace p new)) q = Naive.count seqs q := by
  rw [← h.countAfter_eq, Tally.countAfter, hq, h.count_eq, Int.add_zero]

/-- The draft holds what the tally held, and the sequences that gain a pair. -/
theorem Tally.Tracks.mem_holders_draftOf (h : t.Tracks seqs) :
    i ∈ (t.draftOf p new seqs).holders.getD q ∅ ↔ i ∈ t.sequencesWith q ∨
      ∃ s c, seqs[i]? = some s ∧ c ∈ (Sequence.merge p new s).2 ∧ c.pair = q ∧ 0 < c.delta := by
  rw [draftOf, h.reportsIn_eq, Draft.mem_holders_noteAll, Census.mem_sequencesWith]
  refine or_congr Iff.rfl ?_
  constructor
  · rintro ⟨c, hc, hgain⟩
    obtain ⟨s, hs, hc⟩ := mem_reportsIn_range.1 hc
    exact ⟨s, c, hs, hc, hgain⟩
  · rintro ⟨s, c, hs, hc, hgain⟩
    exact ⟨c, mem_reportsIn_range.2 ⟨s, hs, hc⟩, hgain⟩

/-- A tally that takes over what the merges of a pair report is current again. -/
theorem Tally.Tracks.settle (h : t.Tracks seqs) (p : Pair) (new : TokenId) :
    (t.settle (t.draftOf p new seqs)).Tracks (seqs.map (replace p new)) := by
  refine ⟨fun q => ?_, fun q => ?_, fun q i hi hq => ?_, fun q i hi => ?_⟩
  · rw [count_settle, h.countAfter_eq, h.count_eq]
    have hnonneg := Naive.count_nonneg (seqs.map (replace p new)) q
    split
    · exact (h.count_map_replace_eq ‹_›).symm
    · split <;> omega
  · rw [mem_counts_settle, h.countAfter_eq, h.mem_counts]
    split
    · rw [← count_pos_iff, ← count_pos_iff, h.count_map_replace_eq ‹_›]
    · exact count_pos_iff
  · rw [mem_sequencesWith_settle, h.countAfter_eq, h.mem_holders_draftOf]
    refine ⟨?_, .inr (count_pos_iff.2 (mem_allPairs.2 ⟨_, Array.getElem_mem hi, hq⟩))⟩
    rw [Array.size_map] at hi
    rw [Array.getElem_map, ← Sequence.merge_fst] at hq
    -- a pair that the sequence had before is held already, and a new one is among its gains
    by_cases hold : q ∈ adjacentPairs seqs[i]
    · exact .inl (h.holds q i hi hold)
    · obtain ⟨c, hc, hgain⟩ := Sequence.gain_of_mem_adjacentPairs_merge hq hold
      exact .inr ⟨_, c, Array.getElem?_eq_getElem hi, hc, hgain⟩
  · rw [Array.size_map]
    rw [mem_sequencesWith_settle, h.mem_holders_draftOf] at hi
    rcases hi.1 with hi | ⟨s, c, hs, -⟩
    · exact h.inside q i hi
    · exact (Array.getElem?_eq_some_iff.1 hs).1

/-! ## Runs of merges -/

/-- Sequences with a tally of their pairs. -/
structure Tracked where
  sequences : Array Sequence
  tally : Tally Int

namespace Tracked

/-- The sequences with all their pairs counted. -/
def start (parallel : Bool) (seqs : Array Sequence) : Tracked :=
  ⟨seqs, Tally.ofSequences parallel seqs⟩

/-- Merges the pair in just the sequences that the tally names, and takes over all reports at
once. -/
def merge (t : Tracked) (p : Pair) (new : TokenId) : Tracked :=
  let positions := t.tally.sequencesWith p
  ⟨mergeIn p new positions t.sequences, t.tally.apply (reportsIn p new positions t.sequences)⟩

/-- Merges one pair after another, each with the token that it becomes. -/
def mergeAll (t : Tracked) (merges : List (Pair × TokenId)) : Tracked :=
  merges.foldl (fun t (p, new) => t.merge p new) t

end Tracked

/-- The sequences after every one of them takes part in all merges. -/
def mergeEverywhere (merges : List (Pair × TokenId)) (seqs : Array Sequence) : Array Sequence :=
  merges.foldl (fun seqs (p, new) => seqs.map fun s => (Sequence.merge p new s).1) seqs

/-- A merge keeps the tally current, and does to every sequence what merging in it would do. -/
theorem Tracked.merge_tracks {t : Tracked} (h : t.tally.Tracks t.sequences) (p : Pair)
    (new : TokenId) : (t.merge p new).sequences = t.sequences.map (replace p new) ∧
      (t.merge p new).tally.Tracks (t.merge p new).sequences := by
  have hseqs : (t.merge p new).sequences = t.sequences.map (replace p new) := h.mergeIn_eq p new
  refine ⟨hseqs, ?_⟩
  rw [hseqs]
  exact h.settle p new

theorem Tracked.mergeAll_tracks {t : Tracked} (h : t.tally.Tracks t.sequences)
    (merges : List (Pair × TokenId)) :
    (t.mergeAll merges).sequences = mergeEverywhere merges t.sequences ∧
      (t.mergeAll merges).tally.Tracks (t.mergeAll merges).sequences := by
  induction merges generalizing t with
  | nil => exact ⟨rfl, h⟩
  | cons m merges ih =>
    obtain ⟨p, new⟩ := m
    obtain ⟨hseqs, htracks⟩ := merge_tracks h p new
    have hrest := ih htracks
    rw [hseqs] at hrest
    refine ⟨hrest.1.trans ?_, hrest.2⟩
    simp only [mergeEverywhere, List.foldl_cons, Sequence.merge_fst]

/-- A current tally has as many entries as there are distinct pairs. -/
theorem Tally.Tracks.size_eq (h : t.Tracks seqs) : t.size = (allPairs seqs).dedup.length := by
  have hperm : t.counts.keys.Perm (allPairs seqs).dedup := by
    refine (List.perm_ext_iff_of_nodup ?_ (List.nodup_dedup _)).2 fun p => ?_
    · refine Std.ExtTreeMap.distinct_keys.imp fun {p q} hne heq => hne ?_
      simp [heq]
    · rw [Std.ExtTreeMap.mem_keys, List.mem_dedup, h.mem_counts]
  rw [← hperm.length_eq, Std.ExtTreeMap.length_keys]
  rfl

/-- **Counts without counting again.** After any run of merges, of any pairs into any tokens, the
tally of the first count has the exact counts of the sequences as they are then, and its holders
miss no sequence; the sequences are those of merging in all of them. -/
theorem tally_exact_after_merges (parallel : Bool) (seqs : Array Sequence)
    (merges : List (Pair × TokenId)) :
    let t := (Tracked.start parallel seqs).mergeAll merges
    (∀ p, t.tally.count p = (allPairs t.sequences).count p) ∧
      t.tally.size = (allPairs t.sequences).dedup.length ∧
      (∀ p, (t.tally.sequencesWith p).Pairwise (· < ·) ∧
        (∀ i ∈ t.tally.sequencesWith p, i < t.sequences.size) ∧
        ∀ i (hi : i < t.sequences.size), p ∈ adjacentPairs t.sequences[i] →
          i ∈ t.tally.sequencesWith p) ∧
      t.sequences = mergeEverywhere merges seqs := by
  have hstart : (Tracked.start parallel seqs).tally.Tracks seqs :=
    Tally.tracks_ofSequences parallel seqs
  obtain ⟨hseqs, h⟩ := Tracked.mergeAll_tracks hstart merges
  refine ⟨h.count_eq, h.size_eq, fun p => ⟨?_, h.inside p, h.holds p⟩, hseqs⟩
  exact Census.pairwise_sequencesWith _ p

end BytePair
