import BytePair.Proofs.Rounds
import BytePair.Vocabulary.Encoding
import Mathlib.Data.List.Induction

/-!
# Encoding replays training

* `toList_compactFrom`: the pass of a rule in place, with its two positions, is the greedy
  replacement of what it has not read yet behind what it has written.
* `Vocabulary.encode_eq`: encoding replaces the pairs of all rules, one after the other; to stop
  at a short text changes nothing.
* `Corpus.Replays`: every document is what encoding its bytes gives. Merging keeps this.
* `Corpus.sequences_eq_encode`: so do any number of training runs.
-/

namespace BytePair

open Sequence (replace)

/-! ## One rule -/

namespace Sequence

variable {p : Pair} {new x : TokenId} {s : Sequence}

theorem replace_pair (p : Pair) (new : TokenId) (s : Sequence) :
    replace p new (p.left :: p.right :: s) = new :: replace p new s := by
  rw [replace, if_pos ⟨rfl, rfl⟩]

/-- A token with which no occurrence of the pair begins stays. -/
theorem replace_cons_of_not (h : ¬(x = p.left ∧ s.head? = some p.right)) :
    replace p new (x :: s) = x :: replace p new s := by
  cases s with
  | nil => rfl
  | cons y s =>
    rw [replace, if_neg]
    simpa using h

theorem replace_of_length_lt (h : s.length < 2) : replace p new s = s := by
  match s, h with
  | [], _ => rfl
  | [x], _ => rfl
  | x :: y :: s, h => exact absurd h (by simp)

end Sequence

section Pass

variable {ids : Array TokenId} {x : TokenId} {read write : Nat}

/-- A write makes the written part one token longer, -/
theorem take_write (h : write < ids.size) :
    (ids.setIfInBounds write x).toList.take (write + 1) = ids.toList.take write ++ [x] := by
  rw [Array.toList_setIfInBounds, List.take_succ_eq_append_getElem (by simpa using h),
    List.take_set_of_le (Nat.le_refl write), List.getElem_set_self]

/-- and leaves what is not read yet alone. -/
theorem drop_write (h : write < read) :
    (ids.setIfInBounds write x).toList.drop read = ids.toList.drop read := by
  rw [Array.toList_setIfInBounds, List.drop_set_of_lt h]

end Pass

/-- What a pass has written stays as it is, and what it has not read yet is replaced. -/
theorem toList_compactFrom (rule : Rule) (ids : Array TokenId) (read write : Nat)
    (h : write ≤ read) : (compactFrom rule ids read write).toList =
      ids.toList.take write ++ replace rule.pair rule.new (ids.toList.drop read) := by
  fun_induction compactFrom rule ids read write with
  | case1 ids read write hread hpair ih =>
    obtain ⟨hleft, hright⟩ := hpair
    obtain ⟨hlt, hright⟩ := Array.getElem?_eq_some_iff.1 hright
    have hdrop : ids.toList.drop read =
        rule.pair.left :: rule.pair.right :: ids.toList.drop (read + 2) := by
      rw [List.drop_eq_getElem_cons (by simpa using hread),
        List.drop_eq_getElem_cons (by simpa using hlt), Array.getElem_toList,
        Array.getElem_toList, hleft, hright]
    rw [ih (by omega), take_write (by omega), drop_write (by omega), hdrop, Sequence.replace_pair,
      List.append_assoc, List.singleton_append]
  | case2 ids read write hread hpair ih =>
    have hhead : (ids.toList.drop (read + 1)).head? = ids[read + 1]? := by
      rw [List.head?_drop, Array.getElem?_toList]
    have hdrop : ids.toList.drop read = ids[read] :: ids.toList.drop (read + 1) :=
      List.drop_eq_getElem_cons (by simpa using hread)
    rw [ih (by omega), take_write (by omega), drop_write (by omega), hdrop,
      Sequence.replace_cons_of_not (hhead ▸ hpair), List.append_assoc, List.singleton_append]
  | case3 ids read write hread =>
    have hdrop : ids.toList.drop read = [] :=
      List.drop_eq_nil_of_le (by simpa using Nat.le_of_not_lt hread)
    rw [hdrop, Array.toList_shrink, Sequence.replace_of_length_lt (by simp), List.append_nil]

/-- A pass in place leaves the greedy replacement. -/
theorem toList_compact (rule : Rule) (ids : Array TokenId) :
    (compact rule ids).toList = replace rule.pair rule.new ids.toList :=
  toList_compactFrom rule ids 0 0 (Nat.le_refl 0)

/-! ## All rules -/

namespace Vocabulary

/-- The pairs of all rules replaced, one rule after the other. -/
def replaceAll (rules : List Rule) (s : Sequence) : Sequence :=
  rules.foldl (fun s rule => replace rule.pair rule.new s) s

variable {v w : Vocabulary} {d : Bytes}

/-- What the replacement of every rule keeps, all of them together keep. -/
theorem replaceAll_keeps {motive : Sequence → Prop} {rules : List Rule} {s : Sequence}
    (start : motive s) (keeps : ∀ r ∈ rules, ∀ t, motive t → motive (replace r.pair r.new t)) :
    motive (replaceAll rules s) :=
  List.foldlRecOn rules _ start fun t ht r hr => keeps r hr t ht

theorem replaceAll_of_length_lt {s : Sequence} (h : s.length < 2) (rules : List Rule) :
    replaceAll rules s = s := by
  refine replaceAll_keeps (motive := (· = s)) rfl ?_
  rintro r - t rfl
  exact Sequence.replace_of_length_lt h

theorem toList_replay (rules : List Rule) (ids : Array TokenId) :
    (replay rules ids).toList = replaceAll rules ids.toList := by
  induction rules generalizing ids with
  | nil => rfl
  | cons rule rules ih =>
    rw [replay]
    split
    · rename_i hshort
      exact (replaceAll_of_length_lt hshort _).symm
    · rw [ih, toList_compact]
      rfl

theorem encode_eq (v : Vocabulary) (text : Bytes) :
    v.encode text = replaceAll v.rules.toList (v.atoms text) :=
  toList_replay _ _

/-- All bytes of the document have a token. -/
def Knows (v : Vocabulary) (d : Bytes) : Prop := ∀ b ∈ d, ∃ id, v.atom? b = some id

theorem Knows.of_grows (h : v.Knows d) (hgrows : v.Grows w) : w.Knows d := by
  intro b hb
  obtain ⟨id, hid⟩ := h b hb
  exact ⟨id, hgrows.id? hid⟩

theorem Knows.atoms_eq (h : v.Knows d) (hgrows : v.Grows w) : w.atoms d = v.atoms d := by
  refine List.map_congr_left fun b hb => ?_
  obtain ⟨id, hid⟩ := h b hb
  have hid' : w.atom? b = some id := hgrows.id? hid
  rw [hid, hid']

theorem knows_atomize (v : Vocabulary) (d : Bytes) : (v.atomize d).1.Knows d := by
  intro b hb
  have hmem := List.mem_map_of_mem (f := (v.atomize d).1.atom?) hb
  rw [map_atom?_atomize] at hmem
  obtain ⟨id, -, hid⟩ := List.mem_map.1 hmem
  exact ⟨id, hid.symm⟩

/-- A recorded rule is one more replacement at the end. -/
theorem Knows.encode_addRule (h : v.Knows d) (p : Pair) :
    (v.addRule p).1.encode d = replace p (v.addRule p).2.new (v.encode d) := by
  rw [encode_eq, rules_addRule, h.atoms_eq (v.grows_addRule p), Array.toList_push, replaceAll,
    List.foldl_append, encode_eq]
  rfl

/-- The tokens that a document gets are those of its text. -/
theorem atoms_atomize (v : Vocabulary) (d : Bytes) :
    (v.atomize d).1.atoms d = (v.atomize d).2 := by
  have hmap : (v.atomize d).1.atoms d =
      (d.map (v.atomize d).1.atom?).map fun id? => id?.getD unknown := by
    rw [List.map_map]
    rfl
  rw [hmap, map_atom?_atomize, List.map_map]
  exact List.map_id _

end Vocabulary

/-! ## Documents through training -/

namespace Corpus

variable {c : Corpus} {docs : List Bytes} {config : Config}

/-- The corpus of the documents before any training. -/
def ofDocuments (docs : List Bytes) : Corpus := docs.foldl ingest fresh

/-- The corpus after training runs, one after the other. -/
def trainAll (configs : List Config) (c : Corpus) : Corpus :=
  configs.foldl (fun c config => (c.train config).corpus) c

theorem reachable_ofDocuments (docs : List Bytes) : (ofDocuments docs).Reachable := by
  unfold ofDocuments
  induction docs using List.reverseRecOn with
  | nil => exact .fresh
  | append_singleton docs d ih =>
    rw [List.foldl_append]
    exact ih.ingest d

theorem Reachable.trainAll (h : c.Reachable) (configs : List Config) :
    (c.trainAll configs).Reachable := by
  unfold Corpus.trainAll
  induction configs generalizing c with
  | nil => exact h
  | cons config configs ih => exact ih (h.train config)

/-- The documents are what the vocabulary makes of their bytes, all of which it knows. -/
structure Replays (c : Corpus) (docs : List Bytes) : Prop where
  knows : ∀ d ∈ docs, c.vocabulary.Knows d
  sequences_eq : c.sequences.toList = docs.map c.vocabulary.encode

/-- Before the first rule a document is what it was cut into. -/
theorem Replays.ingest (h : c.Replays docs) (hrules : c.vocabulary.rules = #[]) (d : Bytes) :
    (c.ingest d).Replays (docs ++ [d]) := by
  have hgrows := c.vocabulary.grows_atomize d
  have hencode (e : Bytes) :
      (c.ingest d).vocabulary.encode e = (c.vocabulary.atomize d).1.atoms e := by
    rw [Vocabulary.encode_eq]
    show Vocabulary.replaceAll (c.vocabulary.atomize d).1.rules.toList _ = _
    rw [Vocabulary.rules_atomize, hrules]
    rfl
  constructor
  · intro e he
    rcases List.mem_append.1 he with he | he
    · exact (h.knows e he).of_grows hgrows
    · rw [List.mem_singleton.1 he]
      exact c.vocabulary.knows_atomize d
  · have hseqs : (c.ingest d).sequences.toList =
        c.sequences.toList ++ [(c.vocabulary.atomize d).2] := Array.toList_push
    rw [hseqs, h.sequences_eq, List.map_append, List.map_singleton, hencode,
      Vocabulary.atoms_atomize]
    congr 1
    refine List.map_congr_left fun e he => ?_
    rw [hencode, (h.knows e he).atoms_eq hgrows, Vocabulary.encode_eq, hrules]
    rfl

theorem replays_ofDocuments (docs : List Bytes) :
    (ofDocuments docs).Replays docs ∧ (ofDocuments docs).vocabulary.rules = #[] := by
  unfold ofDocuments
  induction docs using List.reverseRecOn with
  | nil => exact ⟨⟨by simp, rfl⟩, rfl⟩
  | append_singleton docs d ih =>
    obtain ⟨h, hrules⟩ := ih
    rw [List.foldl_append]
    exact ⟨h.ingest hrules d, (Vocabulary.rules_atomize _ d).trans hrules⟩

/-- A merge does to the documents what its rule does to their bytes. -/
theorem Replays.merged (h : c.Replays docs) (p : Pair) : (c.merged p).Replays docs := by
  have hgrows := c.vocabulary.grows_addRule p
  refine ⟨fun d hd => (h.knows d hd).of_grows hgrows, ?_⟩
  have hseqs : (c.merged p).sequences.toList =
      c.sequences.toList.map (replace p (c.vocabulary.addRule p).2.new) := Array.toList_map
  rw [hseqs, h.sequences_eq, List.map_map]
  refine List.map_congr_left fun d hd => ?_
  exact ((h.knows d hd).encode_addRule p).symm

/-- What every merge of an occurring pair keeps, any number of training runs keeps. -/
theorem Reachable.trainAll_keeps {motive : Corpus → Prop} (h : c.Reachable) (start : motive c)
    (merged : ∀ (c : Corpus) (p : Pair), c.Sound → p ∈ Naive.allPairs c.sequences → motive c →
      motive (c.merged p)) (configs : List Config) : motive (c.trainAll configs) := by
  unfold Corpus.trainAll
  induction configs generalizing c with
  | nil => exact start
  | cons config configs ih =>
    exact ih (h.train config) (h.sound.runs_keep (h.sound.train_runs config) start merged)

theorem Replays.trainAll (h : c.Replays docs) (hc : c.Reachable) (configs : List Config) :
    (c.trainAll configs).Replays docs :=
  hc.trainAll_keeps (motive := fun c => c.Replays docs) h (fun _ p _ _ h => h.merged p) configs

/-- **Encoding replays training.** After any training runs on any documents, encoding the bytes of
a document gives the tokens that training has left of it. -/
theorem sequences_eq_encode (docs : List Bytes) (configs : List Config) :
    let c := (ofDocuments docs).trainAll configs
    c.sequences.toList = docs.map c.vocabulary.encode :=
  ((replays_ofDocuments docs).1.trainAll (reachable_ofDocuments docs) configs).sequences_eq

end Corpus

end BytePair
