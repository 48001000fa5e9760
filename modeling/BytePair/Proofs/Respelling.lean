import BytePair.Proofs.Documents
import BytePair.Proofs.Lockstep
import Mathlib.Logic.Equiv.Defs

/-!
# Training does not read bytes

Bytes get their tokens in the order in which they come first, and from then on only tokens are
compared. So it does not matter which bytes a document is written in, as long as different bytes stay
different.

* `Vocabulary.Respelled`: a vocabulary with the same tokens and rules in renamed bytes. Every operation
  keeps two vocabularies so, and they encode texts alike (`Vocabulary.Respelled.encode_eq`).
* `Corpus.lockstep_respelled`: training goes in lockstep on renamed documents.
* `Corpus.reports`: what the training runs among some operations report.
* `Corpus.training_ignores_spelling`: so the bytes have no influence on any run.
-/

namespace BytePair

open Naive (allPairs)

variable {f : Equiv.Perm UInt8}

/-! ## Vocabularies in renamed bytes -/

namespace Vocabulary

variable {v w : Vocabulary} {p : Pair} {id : TokenId} {bs : Bytes}

/-- The second vocabulary has the tokens of the first one at the same places, with their bytes renamed,
and the same rules. The text of the unknown token stands for no bytes and stays. -/
structure Respelled (f : Equiv.Perm UInt8) (v w : Vocabulary) : Prop where
  size_eq : w.size = v.size
  bytes?_unknown : w.bytes? unknown = v.bytes? unknown
  bytes?_eq (id : TokenId) : id ≠ unknown → w.bytes? id = (v.bytes? id).map (List.map f)
  id?_eq (bs : Bytes) : w.id? (bs.map f) = v.id? bs
  rules_eq : w.rules = v.rules

theorem respelled_fresh (f : Equiv.Perm UInt8) : fresh.Respelled f fresh where
  size_eq := rfl
  bytes?_unknown := rfl
  bytes?_eq id hne := by
    have hnone : fresh.bytes? id = none :=
      Array.getElem?_eq_none (Nat.one_le_iff_ne_zero.2 hne)
    rw [hnone, Option.map_none]
  id?_eq bs := by
    show (∅ : Std.ExtTreeMap Bytes TokenId)[bs.map f]? = (∅ : Std.ExtTreeMap Bytes TokenId)[bs]?
    rw [Std.ExtTreeMap.getElem?_empty, Std.ExtTreeMap.getElem?_empty]
  rules_eq := rfl

namespace Respelled

/-- Renamed tokens are as long as they were. -/
theorem length_eq (h : v.Respelled f w) (id : TokenId) : w.length id = v.length id := by
  unfold length
  by_cases hid : id = unknown
  · rw [hid, h.bytes?_unknown]
  · rw [h.bytes?_eq id hid]
    cases v.bytes? id with
    | none => rfl
    | some bs => exact List.length_map f

/-- Bytes get the same token whatever they are called, -/
theorem insert_snd (h : v.Respelled f w) (bs : Bytes) :
    (w.insert (bs.map f)).2 = (v.insert bs).2 := by
  unfold Vocabulary.insert
  rw [h.id?_eq, h.size_eq]
  cases v.id? bs <;> rfl

/-- and are new in both vocabularies or in none. -/
theorem insert (h : v.Respelled f w) (hv : v.Consistent) (bs : Bytes) :
    (v.insert bs).1.Respelled f (w.insert (bs.map f)).1 where
  size_eq := by
    unfold Vocabulary.insert
    rw [h.id?_eq]
    cases v.id? bs with
    | none =>
      show (w.tokens.push (bs.map f)).size = (v.tokens.push bs).size
      rw [Array.size_push, Array.size_push]
      exact congrArg (· + 1) h.size_eq
    | some id => exact h.size_eq
  bytes?_unknown := by
    have hne : unknown ≠ v.size := Nat.ne_of_lt hv.size_pos
    rw [bytes?_insert, bytes?_insert, h.size_eq, if_neg fun hnew => hne hnew.2,
      if_neg fun hnew => hne hnew.2, h.bytes?_unknown]
  bytes?_eq id hid := by
    rw [bytes?_insert, bytes?_insert, h.id?_eq, h.size_eq]
    split
    · rfl
    · exact h.bytes?_eq id hid
  id?_eq cs := by
    -- different bytes have different names
    have hiff : cs.map f = bs.map f ↔ cs = bs := (List.map_injective_iff.2 f.injective).eq_iff
    rw [id?_insert, id?_insert, h.insert_snd, h.id?_eq]
    simp only [hiff]
  rules_eq := by rw [rules_insert, rules_insert, h.rules_eq]

theorem atomize (h : v.Respelled f w) (hv : v.Consistent) (d : Bytes) :
    (w.atomize (d.map f)).2 = (v.atomize d).2 ∧
      (v.atomize d).1.Respelled f (w.atomize (d.map f)).1 := by
  induction d generalizing v w with
  | nil => exact ⟨rfl, h⟩
  | cons b d ih =>
    have hb : (w.insert [f b]).2 = (v.insert [b]).2 := h.insert_snd [b]
    obtain ⟨hd, hrest⟩ := ih (h.insert hv [b]) (hv.insert [b])
    have hd : ((w.insert [f b]).1.atomize (d.map f)).2 = ((v.insert [b]).1.atomize d).2 := hd
    rw [List.map_cons, atomize_cons, atomize_cons, hb, hd]
    exact ⟨rfl, hrest⟩

/-- The merge of two real tokens is renamed like any other one. -/
theorem pairBytes_eq (h : v.Respelled f w) (hleft : p.left ≠ unknown) (hright : p.right ≠ unknown) :
    w.pairBytes p = (v.pairBytes p).map f := by
  unfold pairBytes
  rw [h.bytes?_eq _ hleft, h.bytes?_eq _ hright, List.map_append]
  cases v.bytes? p.left <;> cases v.bytes? p.right <;> rfl

theorem addRule (h : v.Respelled f w) (hv : v.Consistent) (hleft : p.left ≠ unknown)
    (hright : p.right ≠ unknown) :
    (w.addRule p).2 = (v.addRule p).2 ∧ (v.addRule p).1.Respelled f (w.addRule p).1 := by
  have hbytes := h.pairBytes_eq hleft hright
  have hrule : (w.addRule p).2 = (v.addRule p).2 := by
    show Rule.mk p (w.insert (w.pairBytes p)).2 = Rule.mk p (v.insert (v.pairBytes p)).2
    rw [hbytes, h.insert_snd]
  have hinsert : (v.insert (v.pairBytes p)).1.Respelled f (w.insert (w.pairBytes p)).1 := by
    rw [hbytes]
    exact h.insert hv _
  refine ⟨hrule, hinsert.size_eq, hinsert.bytes?_unknown, hinsert.bytes?_eq, hinsert.id?_eq, ?_⟩
  rw [rules_addRule, rules_addRule, hrule, h.rules_eq]

/-- A renamed text has the tokens of the text. -/
theorem encode_eq (h : v.Respelled f w) (text : Bytes) : w.encode (text.map f) = v.encode text := by
  have hatoms : w.atoms (text.map f) = v.atoms text := by
    unfold atoms
    rw [List.map_map]
    exact List.map_congr_left fun b _ => congrArg (·.getD unknown) (h.id?_eq [b])
  rw [Vocabulary.encode_eq, Vocabulary.encode_eq, hatoms, h.rules_eq]

end Respelled

end Vocabulary

/-! ## Renamed documents -/

namespace Corpus

variable {c d : Corpus}

/-- The second corpus has the same documents of tokens, whose bytes are renamed. -/
structure Respelled (f : Equiv.Perm UInt8) (c d : Corpus) : Prop where
  vocabulary : c.vocabulary.Respelled f d.vocabulary
  sequences_eq : d.sequences = c.sequences

theorem Respelled.ingest (h : c.Respelled f d) (hc : c.Sound) (document : Bytes) :
    (c.ingest document).Respelled f (d.ingest (document.map f)) := by
  obtain ⟨hsequence, hvocabulary⟩ := h.vocabulary.atomize hc.consistent document
  refine ⟨hvocabulary, ?_⟩
  show d.sequences.push (d.vocabulary.atomize (document.map f)).2 =
    c.sequences.push (c.vocabulary.atomize document).2
  rw [h.sequences_eq, hsequence]

/-- The tokens of a document are real ones, so a merge does not tell the spellings apart. -/
theorem lockstep_respelled (f : Equiv.Perm UInt8) :
    Naive.Lockstep fun c d => c.Sound ∧ c.Respelled f d where
  alike := by
    rintro c d ⟨-, h⟩
    exact ⟨h.vocabulary.size_eq, h.vocabulary.length_eq, fun p => by rw [h.sequences_eq]⟩
  rule_eq := by
    rintro c d p ⟨hc, h⟩ hp
    obtain ⟨hleft, hright⟩ := hc.ne_unknown_of_mem hp
    exact (h.vocabulary.addRule hc.consistent hleft hright).1
  merged := by
    rintro c d p ⟨hc, h⟩ hp
    obtain ⟨hleft, hright⟩ := hc.ne_unknown_of_mem hp
    obtain ⟨hrule, hvocabulary⟩ := h.vocabulary.addRule hc.consistent hleft hright
    refine ⟨hc.merged hp, hvocabulary, ?_⟩
    simp only [Corpus.merged, h.sequences_eq, hrule]

/-! ## Any operations -/

/-- The operation with the bytes of its document renamed. -/
def Operation.respell (f : Equiv.Perm UInt8) : Operation → Operation
  | ingest document => ingest (document.map f)
  | train config => train config

/-- What an operation reports if it is a training run: the merges, and why there are no more. -/
def Operation.report? (c : Corpus) : Operation → Option (List Merge × StopReason)
  | ingest _ => none
  | train config => some ((c.train config).merges, (c.train config).reason)

/-- What the training runs among the operations report, one after another. -/
def reports (c : Corpus) : List Operation → List (List Merge × StopReason)
  | [] => []
  | op :: ops => (op.report? c).toList ++ reports (op.perform c) ops

theorem Respelled.perform (h : c.Respelled f d) (hc : c.Sound) (hd : d.Sound) (op : Operation) :
    (op.perform c).Respelled f ((op.respell f).perform d) ∧
      (op.respell f).report? d = op.report? c := by
  cases op with
  | ingest document => exact ⟨h.ingest hc document, rfl⟩
  | train config =>
    obtain ⟨⟨-, hcorpus⟩, hmerges, hreason⟩ := (lockstep_respelled f).train hc hd ⟨hc, h⟩ config
    refine ⟨hcorpus, ?_⟩
    simp only [Operation.respell, Operation.report?, hmerges, hreason]

theorem Respelled.performAll (h : c.Respelled f d) (hc : c.Reachable) (hd : d.Reachable)
    (ops : List Operation) :
    (ops.foldl Operation.perform c).Respelled f
        ((ops.map (Operation.respell f)).foldl Operation.perform d) ∧
      reports d (ops.map (Operation.respell f)) = reports c ops := by
  induction ops generalizing c d with
  | nil => exact ⟨h, rfl⟩
  | cons op ops ih =>
    obtain ⟨hcorpus, hreport⟩ := h.perform hc.sound hd.sound op
    obtain ⟨hend, hlater⟩ := ih hcorpus (hc.perform op) (hd.perform (op.respell f))
    refine ⟨hend, ?_⟩
    rw [List.map_cons, reports, reports, hreport, hlater]

/-- **Training does not read bytes.** Let documents and training runs come in any order, and rename the
bytes of all documents, different ones to different ones. Then every run merges the same pairs of
tokens equally often and stops for the same reason; the documents are the same tokens; the vocabulary
has the same rules, and the tokens at the same places with their bytes renamed. Every text, renamed
too, has the same tokens. -/
theorem training_ignores_spelling (f : Equiv.Perm UInt8) (ops : List Operation) :
    let c := after ops
    let d := after (ops.map (Operation.respell f))
    reports fresh (ops.map (Operation.respell f)) = reports fresh ops ∧
      d.sequences = c.sequences ∧ c.vocabulary.Respelled f d.vocabulary ∧
      ∀ text, d.vocabulary.encode (text.map f) = c.vocabulary.encode text := by
  intro c d
  have hfresh : fresh.Respelled f fresh := ⟨Vocabulary.respelled_fresh f, rfl⟩
  obtain ⟨h, hreports⟩ := hfresh.performAll .fresh .fresh ops
  exact ⟨hreports, h.sequences_eq, h.vocabulary, h.vocabulary.encode_eq⟩

end Corpus

end BytePair
