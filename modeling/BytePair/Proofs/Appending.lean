import BytePair.Proofs.BinaryForm

/-!
# Vocabularies are only appended to

A vocabulary takes in tokens, documents and rules in any order, whatever their ids. What it said
before stays at its place.

* `Vocabulary.Operation`, `Vocabulary.after`: the vocabulary that some operations lead to.
* `Vocabulary.Consistent.perform`, `Vocabulary.Operation.grows`: every operation keeps the table and
  its inverse together, and takes nothing back.
* `Vocabulary.Grows.tokens_prefix`: so the table becomes longer at its end only.
* `Vocabulary.appended_to_only`: this holds after any operations on a new vocabulary or on one that
  was read.
-/

namespace BytePair.Vocabulary

variable {v w : Vocabulary} {bs : Bytes} {id id' : TokenId}

/-! ## One operation -/

/-- What changes a vocabulary. -/
inductive Operation where
  | insert (bs : Bytes)
  | atomize (document : Bytes)
  | addRule (p : Pair)

namespace Operation

def perform (v : Vocabulary) : Operation → Vocabulary
  | insert bs => (v.insert bs).1
  | atomize document => (v.atomize document).1
  | addRule p => (v.addRule p).1

/-- The tokens that an operation answers. Recording a rule answers the token of the rule. -/
def answers (v : Vocabulary) : Operation → List TokenId
  | insert bs => [(v.insert bs).2]
  | atomize document => (v.atomize document).2
  | addRule p => [(v.addRule p).2.new]

theorem grows (op : Operation) (v : Vocabulary) : v.Grows (op.perform v) := by
  cases op with
  | insert bs => exact v.grows_insert bs
  | atomize document => exact v.grows_atomize document
  | addRule p => exact v.grows_addRule p

end Operation

theorem Consistent.perform (h : v.Consistent) (op : Operation) : (op.perform v).Consistent := by
  cases op with
  | insert bs => exact h.insert bs
  | atomize document => exact h.atomize document
  | addRule p => exact h.addRule p

/-- An operation answers real tokens only. -/
theorem Consistent.ne_of_mem_answers (h : v.Consistent) {op : Operation}
    (hid : id ∈ op.answers v) : id ≠ unknown := by
  cases op with
  | insert bs =>
    rw [List.mem_singleton.1 hid]
    exact h.insert_snd_ne bs
  | atomize document => exact (h.bytes?_of_mem_atomize hid).1
  | addRule p =>
    rw [List.mem_singleton.1 hid]
    exact h.insert_snd_ne (v.pairBytes p)

/-! ## Tables -/

/-- A table of which no token loses its bytes is the beginning of the table that it becomes. -/
theorem Grows.tokens_prefix (h : v.Grows w) : v.tokens.toList <+: w.tokens.toList := by
  rw [List.prefix_iff_getElem?]
  intro id hid
  rw [Array.getElem?_toList]
  exact h.bytes? (Array.getElem?_eq_getElem hid)

/-- Two real tokens have different bytes. -/
theorem Consistent.eq_of_bytes? (h : v.Consistent) (hid : id ≠ unknown) (hid' : id' ≠ unknown)
    (hbs : v.bytes? id = some bs) (hbs' : v.bytes? id' = some bs) : id = id' :=
  Option.some.inj <| ((h.id?_eq_some_iff bs id).2 ⟨hid, hbs⟩).symm.trans
    ((h.id?_eq_some_iff bs id').2 ⟨hid', hbs'⟩)

theorem Consistent.exists_bytes?_unknown (h : v.Consistent) : ∃ bs, v.bytes? unknown = some bs :=
  ⟨_, Array.getElem?_eq_getElem h.size_pos⟩

/-! ## All operations -/

/-- The vocabulary that some operations lead to. -/
def after (ops : List Operation) (v : Vocabulary) : Vocabulary := ops.foldl Operation.perform v

theorem Consistent.after (h : v.Consistent) (ops : List Operation) : (v.after ops).Consistent := by
  induction ops generalizing v with
  | nil => exact h
  | cons op ops ih => exact ih (h.perform op)

theorem grows_after (ops : List Operation) (v : Vocabulary) : v.Grows (v.after ops) := by
  induction ops generalizing v with
  | nil => exact Grows.refl v
  | cons op ops ih => exact (op.grows v).trans (ih (op.perform v))

theorem consistent_of_start (h : v = fresh ∨ ∃ data, ofBytes data = .ok v) : v.Consistent := by
  rcases h with rfl | ⟨data, hdata⟩
  · exact consistent_fresh
  · exact ((ofBytes_eq_ok_iff data v).1 hdata).2.toConsistent

/-- **Vocabularies are only appended to.** After any operations on a new vocabulary or on one that
was read, the inverse leads to just the real tokens of the table, no two of which have the same
bytes. The unknown token has the bytes that it had at first, and no operation answers it. Whatever
happens further, tokens and rules come behind those that are there. -/
theorem appended_to_only {start : Vocabulary}
    (hstart : start = fresh ∨ ∃ data, ofBytes data = .ok start) (ops : List Operation) :
    let v := start.after ops
    (∀ bs id, v.id? bs = some id ↔ 1 ≤ id ∧ v.bytes? id = some bs) ∧
      (∀ id id' bs, 1 ≤ id → 1 ≤ id' → v.bytes? id = some bs → v.bytes? id' = some bs → id = id') ∧
      (∃ bs, start.bytes? unknown = some bs ∧ v.bytes? unknown = some bs) ∧
      (∀ op : Operation, unknown ∉ op.answers v) ∧
      ∀ further : List Operation, v.tokens.toList <+: (v.after further).tokens.toList ∧
        v.rules.toList <+: (v.after further).rules.toList := by
  intro v
  have hv : v.Consistent := (consistent_of_start hstart).after ops
  refine ⟨fun bs id => ?_, fun id id' bs hid hid' => ?_, ?_, fun op hop => ?_, fun further => ?_⟩
  · rw [hv.id?_eq_some_iff, Nat.one_le_iff_ne_zero]
    rfl
  · exact hv.eq_of_bytes? (Nat.ne_of_gt hid) (Nat.ne_of_gt hid')
  · obtain ⟨bs, hbs⟩ := (consistent_of_start hstart).exists_bytes?_unknown
    exact ⟨bs, hbs, (grows_after ops start).bytes? hbs⟩
  · exact hv.ne_of_mem_answers hop rfl
  · have hgrows := grows_after further v
    exact ⟨hgrows.tokens_prefix, hgrows.rules⟩

/-- A table in which the bytes of the unknown token are those of a real one, too: they lead to the
real one, and the bytes of two unknown tokens become a new one. -/
theorem appended_to_only_behind_unknown :
    let start := ofTable #[[97], [97]] #[]
    let v := start.after [.addRule ⟨0, 0⟩, .addRule ⟨7, 1⟩, .atomize [98, 97]]
    ofBytes start.toBytes = .ok start ∧ v.tokens = #[[97], [97], [97, 97], [98]] ∧
      v.rules = #[⟨⟨0, 0⟩, 2⟩, ⟨⟨7, 1⟩, 1⟩] ∧ v.id? [97] = some 1 := by
  intro start v
  have hnodup : (start.tokens.toList.drop 1).Nodup := by decide
  have hread : ofBytes start.toBytes = .ok start :=
    (ofBytes_eq_ok_iff _ _).2 ⟨rfl, consistent_ofTable (by decide) hnodup,
      nodup_drop_one_iff.1 hnodup, fun r hr => absurd hr (Array.not_mem_empty r), by decide,
      by decide, by decide⟩
  have htable : v.tokens = #[[97], [97], [97, 97], [98]] ∧
      v.rules = #[⟨⟨0, 0⟩, 2⟩, ⟨⟨7, 1⟩, 1⟩] := by decide +kernel
  have hbytes : v.bytes? 1 = some [97] := by rw [bytes?, htable.1]; rfl
  have hid := ((appended_to_only (.inr ⟨_, hread⟩) _).1 [97] 1).2 ⟨Nat.le_refl 1, hbytes⟩
  exact ⟨hread, htable.1, htable.2, hid⟩

end BytePair.Vocabulary
