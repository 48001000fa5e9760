import BytePair.Proofs.Spelling
import BytePair.Proofs.Stages

/-!
# Documents through all operations

Documents come in and are trained on in any order, and rules may be recorded twice or lead to tokens
that are there already. Whatever happens, the tokens of a document spell it.

* `Corpus.Operation`, `Corpus.after`: the corpus that some operations lead to.
* `Corpus.Extends`: a corpus with the documents of another one, each rewritten by itself, and further
  ones behind them. Every operation leads to such a corpus (`Reachable.extends_perform`).
* `Corpus.Extends.decode_eq`: so the old documents spell what they did, and the new ones themselves.
* `Corpus.documents_spelled`: the documents of any corpus are those that were taken in.
-/

namespace BytePair

open Vocabulary (replaceAll)

namespace Vocabulary

variable {v w : Vocabulary} {d : Bytes} {s : Sequence}

/-- Tokens of the table spell what they did before it grew. -/
theorem Grows.decode_eq (h : v.Grows w) (hs : ∀ id ∈ s, ∃ bs, v.bytes? id = some bs) :
    w.decode s = v.decode s := by
  refine List.flatMap_congr fun id hid => ?_
  obtain ⟨bs, hbs⟩ := hs id hid
  rw [hbs, h.bytes? hbs]

theorem Knows.decode_atoms (hknows : v.Knows d) (h : v.Consistent) : v.decode (v.atoms d) = d := by
  rw [h.decode_atoms, List.filter_eq_self]
  intro b hb
  obtain ⟨id, hid⟩ := hknows b hb
  rw [hid, Option.isSome_some]

end Vocabulary

namespace Corpus

/-! ## One operation -/

/-- What changes a corpus. -/
inductive Operation where
  | ingest (document : Bytes)
  | train (config : Config)

def Operation.perform (c : Corpus) : Operation → Corpus
  | ingest document => c.ingest document
  | train config => (c.train config).corpus

/-- The document that an operation brings. -/
def Operation.document? : Operation → Option Bytes
  | ingest document => some document
  | train _ => none

variable {c c' : Corpus} {added : List Bytes}

/-- The second corpus has the documents of the first one, in their order. The rules recorded in
between were applied to each of them by itself. Behind them come the documents that were added, cut
into their bytes. -/
structure Extends (c c' : Corpus) (added : List Bytes) : Prop where
  grows : c.vocabulary.Grows c'.vocabulary
  knows : ∀ d ∈ added, c'.vocabulary.Knows d
  rewritten : ∃ rules, c'.vocabulary.rules.toList = c.vocabulary.rules.toList ++ rules ∧
    c'.sequences.toList =
      c.sequences.toList.map (replaceAll rules) ++ added.map c'.vocabulary.atoms

theorem extends_ingest (c : Corpus) (d : Bytes) : c.Extends (c.ingest d) [d] where
  grows := c.vocabulary.grows_atomize d
  knows e he := by
    rw [List.mem_singleton.1 he]
    exact c.vocabulary.knows_atomize d
  rewritten := by
    refine ⟨[], ?_, ?_⟩
    · rw [List.append_nil]
      exact congrArg Array.toList (c.vocabulary.rules_atomize d)
    · have hseqs : (c.ingest d).sequences.toList =
          c.sequences.toList ++ [(c.vocabulary.atomize d).2] := Array.toList_push
      have hatoms : (c.ingest d).vocabulary.atoms d = (c.vocabulary.atomize d).2 :=
        c.vocabulary.atoms_atomize d
      rw [hseqs, List.map_singleton, hatoms]
      congr 1
      exact (List.map_id _).symm

theorem Sound.grows_train (h : c.Sound) (config : Config) :
    c.vocabulary.Grows (c.train config).corpus.vocabulary :=
  h.runs_keep (motive := fun d => c.vocabulary.Grows d.vocabulary) (h.train_runs config)
    (.refl _) fun d p _ _ hgrows => hgrows.trans (d.vocabulary.grows_addRule p)

theorem Sound.extends_train (h : c.Sound) (config : Config) :
    c.Extends (c.train config).corpus [] where
  grows := h.grows_train config
  knows _ hd := absurd hd List.not_mem_nil
  rewritten := by
    have hruns := h.train_runs config
    refine ⟨(c.train config).merges.map Merge.rule, hruns.rules_eq, ?_⟩
    rw [hruns.sequences_eq, Array.toList_map, List.map_nil, List.append_nil]

theorem Reachable.perform (h : c.Reachable) (op : Operation) : (op.perform c).Reachable := by
  cases op with
  | ingest d => exact h.ingest d
  | train config => exact h.train config

/-- No operation removes a document, moves it, or merges across its ends. -/
theorem Reachable.extends_perform (h : c.Reachable) (op : Operation) :
    c.Extends (op.perform c) op.document?.toList := by
  cases op with
  | ingest d => exact extends_ingest c d
  | train config => exact h.sound.extends_train config

/-- What the documents of a corpus spell, those of an extension do, and the added ones spell
themselves. -/
theorem Extends.decode_eq (h : c.Extends c' added) (hc : c.Sound) (hc' : c'.Reachable) :
    c'.sequences.toList.map c'.vocabulary.decode =
      c.sequences.toList.map c.vocabulary.decode ++ added := by
  obtain ⟨rules, hrules, hseqs⟩ := h.rewritten
  have hfits : ∀ r ∈ rules, Binary.Fits c'.vocabulary.tokens r := by
    intro r hr
    refine hc'.rulesFit r (Array.mem_toList_iff.1 ?_)
    rw [hrules]
    exact List.mem_append_right _ hr
  rw [hseqs, List.map_append, List.map_map, List.map_map]
  congr 1
  · refine List.map_congr_left fun s hs => ?_
    have hs : ∀ id ∈ s, ∃ bs, c.vocabulary.bytes? id = some bs := by
      intro id hid
      obtain ⟨-, bs, hbs, -⟩ := hc.spelled s (Array.mem_toList_iff.1 hs) id hid
      exact ⟨bs, hbs⟩
    calc c'.vocabulary.decode (replaceAll rules s)
      _ = c'.vocabulary.decode s := Vocabulary.decode_replaceAll hfits s
      _ = c.vocabulary.decode s := h.grows.decode_eq hs
  · exact (List.map_congr_left fun d hd =>
      (h.knows d hd).decode_atoms hc'.sound.consistent).trans (List.map_id _)

/-! ## All operations -/

/-- The corpus that some operations lead to. -/
def after (ops : List Operation) : Corpus := ops.foldl Operation.perform fresh

theorem after_append_singleton (ops : List Operation) (op : Operation) :
    after (ops ++ [op]) = op.perform (after ops) :=
  List.foldl_append

theorem reachable_after (ops : List Operation) : (after ops).Reachable := by
  induction ops using List.reverseRecOn with
  | nil => exact .fresh
  | append_singleton ops op ih =>
    rw [after_append_singleton]
    exact ih.perform op

theorem decode_after (ops : List Operation) :
    (after ops).sequences.toList.map (after ops).vocabulary.decode =
      ops.filterMap Operation.document? := by
  induction ops using List.reverseRecOn with
  | nil => rfl
  | append_singleton ops op ih =>
    have hc := reachable_after ops
    have hdocument : [op].filterMap Operation.document? = op.document?.toList := by
      cases op <;> rfl
    rw [after_append_singleton, (hc.extends_perform op).decode_eq hc.sound (hc.perform op), ih,
      List.filterMap_append, hdocument]

/-- **Documents are kept.** After any operations there is one list of tokens for each document that
was taken in, in the order of their arrival. It consists of real tokens of the table, whose bytes one
after the other are the document. A further operation rewrites every one of these lists by itself,
and adds a new one only for a new document. -/
theorem documents_spelled (ops : List Operation) :
    let c := after ops
    c.sequences.toList.map c.vocabulary.decode = ops.filterMap Operation.document? ∧
      (∀ s ∈ c.sequences, ∀ id ∈ s, 1 ≤ id ∧ id < c.vocabulary.size) ∧
      ∀ op : Operation, c.Extends (op.perform c) op.document?.toList := by
  intro c
  have hc : c.Reachable := reachable_after ops
  refine ⟨decode_after ops, fun s hs id hid => ?_, hc.extends_perform⟩
  obtain ⟨hne, bs, hbs, -⟩ := hc.sound.spelled s hs id hid
  exact ⟨Nat.pos_of_ne_zero hne, Vocabulary.lt_size_of_bytes? hbs⟩

end Corpus

end BytePair
