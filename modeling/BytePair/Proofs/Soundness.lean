import BytePair.Proofs.Growth
import BytePair.Proofs.Merging
import BytePair.Training.Naive
import Mathlib.Algebra.GroupWithZero.Nat
import Mathlib.Algebra.Order.BigOperators.Group.List
import Mathlib.Algebra.Order.Group.Nat

/-!
# Sound corpora

* `Corpus.Sound`: the vocabulary is consistent, and every token in a document is a real one that
  stands for at least one byte.
* `Corpus.merged`: a corpus after one merge; `Corpus.Sound.merged` keeps it sound.
* `Corpus.Sound.new_ne`: the token of a merge is longer than its operands, so it is none of them,
  and the merged pair is gone.
-/

namespace BytePair

open Naive (allPairs)
open Sequence (replace)

namespace Corpus

variable {c : Corpus} {p : Pair}

/-- The vocabulary is consistent, and the documents consist of its real tokens. -/
structure Sound (c : Corpus) : Prop where
  consistent : c.vocabulary.Consistent
  spelled : ∀ s ∈ c.sequences, ∀ id ∈ s,
    id ≠ unknown ∧ ∃ bs, c.vocabulary.bytes? id = some bs ∧ bs ≠ []

theorem sound_fresh : fresh.Sound where
  consistent := Vocabulary.consistent_fresh
  spelled := by simp [fresh]

theorem Sound.ingest (h : c.Sound) (document : Bytes) : (c.ingest document).Sound where
  consistent := h.consistent.atomize document
  spelled s hs id hid := by
    have hgrows := c.vocabulary.grows_atomize document
    rcases Array.mem_push.1 hs with hs | rfl
    · obtain ⟨hne, bs, hbs, hempty⟩ := h.spelled s hs id hid
      exact ⟨hne, bs, hgrows.bytes? hbs, hempty⟩
    · obtain ⟨hne, b, hbs⟩ := h.consistent.bytes?_of_mem_atomize hid
      exact ⟨hne, [b], hbs, by simp⟩

/-! ## One merge -/

/-- The corpus after the pair is recorded as a rule and merged in every document. -/
def merged (c : Corpus) (p : Pair) : Corpus :=
  ⟨(c.vocabulary.addRule p).1, c.sequences.map (replace p (c.vocabulary.addRule p).2.new)⟩

@[simp]
theorem vocabulary_merged (c : Corpus) (p : Pair) :
    (c.merged p).vocabulary = (c.vocabulary.addRule p).1 := rfl

@[simp]
theorem size_merged (c : Corpus) (p : Pair) : (c.merged p).size = c.size :=
  Array.size_map

theorem Sound.bytes?_of_mem (h : c.Sound) (hp : p ∈ allPairs c.sequences) :
    (∃ bs, c.vocabulary.bytes? p.left = some bs ∧ bs ≠ []) ∧
      ∃ bs, c.vocabulary.bytes? p.right = some bs ∧ bs ≠ [] := by
  obtain ⟨s, hs, hp⟩ := List.mem_flatMap.1 hp
  obtain ⟨hl, hr⟩ := mem_of_mem_adjacentPairs hp
  have hs := Array.mem_toList_iff.1 hs
  exact ⟨(h.spelled s hs _ hl).2, (h.spelled s hs _ hr).2⟩

/-- The token of a merge has the bytes of both operands. -/
theorem Sound.bytes?_new (h : c.Sound) (p : Pair) :
    (c.vocabulary.addRule p).1.bytes? (c.vocabulary.addRule p).2.new =
      some (c.vocabulary.pairBytes p) :=
  h.consistent.bytes?_insert_snd _

theorem Sound.merged (h : c.Sound) (hp : p ∈ allPairs c.sequences) : (c.merged p).Sound where
  consistent := h.consistent.addRule p
  spelled s hs id hid := by
    obtain ⟨t, ht, rfl⟩ := Array.mem_map.1 hs
    rcases Sequence.eq_or_mem_of_mem_replace hid with rfl | hid
    · refine ⟨h.consistent.insert_snd_ne _, _, h.bytes?_new p, ?_⟩
      obtain ⟨bs, hbs, hne⟩ := (h.bytes?_of_mem hp).1
      simp [Vocabulary.pairBytes, hbs, hne]
    · obtain ⟨hne, bs, hbs, hempty⟩ := h.spelled t ht id hid
      exact ⟨hne, bs, (c.vocabulary.grows_addRule p).bytes? hbs, hempty⟩

/-- The token of a merge is longer than both operands, and so it is a different one. -/
theorem Sound.new_ne (h : c.Sound) (hp : p ∈ allPairs c.sequences) :
    (c.vocabulary.addRule p).2.new ≠ p.left ∧ (c.vocabulary.addRule p).2.new ≠ p.right := by
  obtain ⟨⟨l, hl, hl0⟩, r, hr, hr0⟩ := h.bytes?_of_mem hp
  have hnew := h.bytes?_new p
  have hgrows := c.vocabulary.grows_addRule p
  simp only [Vocabulary.pairBytes, hl, hr, Option.getD_some] at hnew
  constructor
  · intro heq
    rw [heq, hgrows.bytes? hl, Option.some_inj] at hnew
    exact hr0 (by simpa using hnew)
  · intro heq
    rw [heq, hgrows.bytes? hr, Option.some_inj] at hnew
    exact hl0 (by simpa using hnew)

/-- The merged pair stands nowhere any more. -/
theorem Sound.notMem_merged (h : c.Sound) (hp : p ∈ allPairs c.sequences) :
    p ∉ allPairs (c.merged p).sequences := by
  intro hmem
  obtain ⟨s, hs, hmem⟩ := List.mem_flatMap.1 hmem
  obtain ⟨s, -, rfl⟩ := Array.mem_map.1 (Array.mem_toList_iff.1 hs)
  exact Sequence.notMem_adjacentPairs_replace (h.new_ne hp).1 (h.new_ne hp).2 s hmem

theorem symbolCount_eq (c : Corpus) : c.symbolCount = (c.sequences.toList.map List.length).sum := by
  have hfold (l : List Sequence) (n : Nat) :
      l.foldl (fun n s => n + s.length) n = n + (l.map List.length).sum := by
    induction l generalizing n with
    | nil => rfl
    | cons s l ih =>
      rw [List.foldl_cons, ih, List.map_cons, List.sum_cons, Nat.add_assoc]
  rw [symbolCount, ← Array.foldl_toList, hfold, Nat.zero_add]

/-- A merge makes the documents shorter. -/
theorem symbolCount_merged_lt (hp : p ∈ allPairs c.sequences) :
    (c.merged p).symbolCount < c.symbolCount := by
  obtain ⟨s, hs, hp⟩ := List.mem_flatMap.1 hp
  rw [symbolCount_eq, symbolCount_eq, merged, Array.toList_map, List.map_map]
  refine List.sum_lt_sum _ _ (fun t _ => Sequence.length_replace_le p _ t) ⟨s, hs, ?_⟩
  exact Sequence.length_replace_lt hp _

end Corpus

end BytePair
