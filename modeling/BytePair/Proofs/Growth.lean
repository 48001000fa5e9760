import BytePair.Corpus

/-!
# Vocabularies only grow

* `Vocabulary.Consistent`: the table without its first entry and the inverse say the same.
* `Vocabulary.Grows`: nothing that a vocabulary says is taken back: tokens keep their bytes, bytes
  keep their token, rules keep their place.
* `Vocabulary.Consistent.insert`, `grows_insert` and so on: every operation keeps the one and
  does the other.
-/

namespace BytePair.Vocabulary

variable {u v w : Vocabulary} {bs cs : Bytes} {id : TokenId} {p : Pair}

/-! ## The table and its inverse -/

/-- The inverse leads to just the tokens of the table behind the first one. -/
structure Consistent (v : Vocabulary) : Prop where
  size_pos : 0 < v.size
  id?_eq_some_iff (bs : Bytes) (id : TokenId) :
    v.id? bs = some id ↔ id ≠ unknown ∧ v.bytes? id = some bs

theorem lt_size_of_bytes? (h : v.bytes? id = some bs) : id < v.size :=
  (Array.getElem?_eq_some_iff.1 h).1

theorem bytes?_size (v : Vocabulary) : v.bytes? v.size = none :=
  Array.getElem?_eq_none (Nat.le_refl _)

theorem consistent_fresh : fresh.Consistent where
  size_pos := Nat.one_pos
  id?_eq_some_iff bs id := by
    have hid : fresh.id? bs = none := Std.ExtTreeMap.getElem?_empty
    rw [hid]
    simp only [reduceCtorEq, false_iff, not_and]
    exact fun hne h => hne (Nat.lt_one_iff.1 (lt_size_of_bytes? h))

/-- The token that an insertion answers has the bytes. -/
theorem Consistent.bytes?_insert_snd (h : v.Consistent) (bs : Bytes) :
    (v.insert bs).1.bytes? (v.insert bs).2 = some bs := by
  rw [bytes?_insert]
  cases hbs : v.id? bs with
  | none => simp [insert, hbs]
  | some id =>
    have := ((h.id?_eq_some_iff bs id).1 hbs).2
    simpa [insert, hbs] using this

theorem Consistent.insert_snd_ne (h : v.Consistent) (bs : Bytes) : (v.insert bs).2 ≠ unknown := by
  cases hbs : v.id? bs with
  | none =>
    have hne : v.size ≠ unknown := Nat.ne_of_gt h.size_pos
    simpa [insert, hbs] using hne
  | some id => simpa [insert, hbs] using ((h.id?_eq_some_iff bs id).1 hbs).1

theorem Consistent.insert (h : v.Consistent) (bs : Bytes) : (v.insert bs).1.Consistent where
  size_pos := Nat.lt_of_le_of_lt (Nat.zero_le _) (lt_size_of_bytes? (h.bytes?_insert_snd bs))
  id?_eq_some_iff cs id := by
    rw [id?_insert]
    split
    · rename_i hcs
      subst hcs
      constructor
      · rintro ⟨⟩
        exact ⟨h.insert_snd_ne cs, h.bytes?_insert_snd cs⟩
      · rintro ⟨hne, hid⟩
        rw [bytes?_insert] at hid
        split at hid
        · rename_i hnew
          simp [Vocabulary.insert, hnew.1, hnew.2]
        · have hid := (h.id?_eq_some_iff cs id).2 ⟨hne, hid⟩
          simp [Vocabulary.insert, hid]
    · rename_i hcs
      rw [h.id?_eq_some_iff, bytes?_insert]
      split
      · rename_i hnew
        rw [hnew.2, bytes?_size]
        simp [Ne.symm hcs]
      · rfl

/-- The rules have no part in the consistency of the table. -/
theorem Consistent.withRules (h : v.Consistent) (rules : Array Rule) :
    ({ v with rules := rules } : Vocabulary).Consistent :=
  ⟨h.size_pos, h.id?_eq_some_iff⟩

theorem Consistent.addRule (h : v.Consistent) (p : Pair) : (v.addRule p).1.Consistent :=
  (h.insert _).withRules _

/-! ## Growth -/

/-- What the first vocabulary says, the second one says too. -/
structure Grows (v w : Vocabulary) : Prop where
  bytes? {id : TokenId} {bs : Bytes} : v.bytes? id = some bs → w.bytes? id = some bs
  id? {bs : Bytes} {id : TokenId} : v.id? bs = some id → w.id? bs = some id
  rules : v.rules.toList <+: w.rules.toList

theorem Grows.refl (v : Vocabulary) : v.Grows v := ⟨id, id, List.prefix_refl _⟩

theorem Grows.trans (h : u.Grows v) (h' : v.Grows w) : u.Grows w :=
  ⟨fun hid => h'.bytes? (h.bytes? hid), fun hbs => h'.id? (h.id? hbs), h.rules.trans h'.rules⟩

theorem rules_insert (v : Vocabulary) (bs : Bytes) : (v.insert bs).1.rules = v.rules := by
  unfold insert
  cases v.id? bs <;> rfl

theorem grows_insert (v : Vocabulary) (bs : Bytes) : v.Grows (v.insert bs).1 where
  bytes? {id cs} h := by
    rw [bytes?_insert, if_neg]
    · exact h
    · rintro ⟨-, rfl⟩
      rw [bytes?_size] at h
      cases h
  id? {cs id} h := by
    rw [id?_insert]
    split
    · subst_vars
      simp [insert, h]
    · exact h
  rules := by simp [rules_insert]

theorem rules_addRule (v : Vocabulary) (p : Pair) :
    (v.addRule p).1.rules = v.rules.push (v.addRule p).2 := by
  show (v.insert (v.pairBytes p)).1.rules.push _ = _
  rw [rules_insert]
  rfl

theorem bytes?_addRule (v : Vocabulary) (p : Pair) (id : TokenId) :
    (v.addRule p).1.bytes? id =
      if v.id? (v.pairBytes p) = none ∧ id = v.size then some (v.pairBytes p) else v.bytes? id :=
  v.bytes?_insert (v.pairBytes p) id

theorem size_addRule_le (v : Vocabulary) (p : Pair) : (v.addRule p).1.size ≤ v.size + 1 := by
  show (v.insert (v.pairBytes p)).1.size ≤ v.size + 1
  unfold insert
  cases v.id? (v.pairBytes p) with
  | none => exact Nat.le_of_eq (Array.size_push _)
  | some id => exact Nat.le_succ _

theorem length_pairBytes (v : Vocabulary) (p : Pair) :
    (v.pairBytes p).length = v.length p.left + v.length p.right :=
  List.length_append

theorem grows_addRule (v : Vocabulary) (p : Pair) : v.Grows (v.addRule p).1 where
  bytes? h := (v.grows_insert (v.pairBytes p)).bytes? h
  id? h := (v.grows_insert (v.pairBytes p)).id? h
  rules := by
    rw [rules_addRule, Array.toList_push]
    exact List.prefix_append _ _

theorem Grows.length_le (h : v.Grows w) (id : TokenId) : v.length id ≤ w.length id := by
  unfold length
  cases hid : v.bytes? id with
  | none => exact Nat.zero_le _
  | some bs => exact Nat.le_of_eq (by rw [h.bytes? hid])

/-! ## Documents -/

/-- One byte of a document, on top of the tokens so far, newest first. -/
private def atomStep (x : Vocabulary × List TokenId) (b : UInt8) : Vocabulary × List TokenId :=
  ((x.1.insert [b]).1, (x.1.insert [b]).2 :: x.2)

private theorem foldl_atomStep (document : Bytes) (v : Vocabulary) (ids : List TokenId) :
    document.foldl atomStep (v, ids) =
      ((document.foldl atomStep (v, [])).1, (document.foldl atomStep (v, [])).2 ++ ids) := by
  induction document generalizing v ids with
  | nil => rfl
  | cons b document ih =>
    rw [List.foldl_cons, List.foldl_cons]
    simp only [atomStep]
    rw [ih _ (_ :: ids), ih _ [_]]
    simp

theorem atomize_cons (v : Vocabulary) (b : UInt8) (document : Bytes) :
    v.atomize (b :: document) =
      (((v.insert [b]).1.atomize document).1,
        (v.insert [b]).2 :: ((v.insert [b]).1.atomize document).2) := by
  have hfold (v : Vocabulary) (document : Bytes) : v.atomize document =
      ((document.foldl atomStep (v, [])).1, (document.foldl atomStep (v, [])).2.reverse) := rfl
  rw [hfold, hfold, List.foldl_cons]
  simp only [atomStep]
  rw [foldl_atomStep document _ [_]]
  simp

/-- A document brings the missing tokens of its bytes into the table, and nothing else. -/
theorem grows_atomize (v : Vocabulary) (document : Bytes) : v.Grows (v.atomize document).1 := by
  induction document generalizing v with
  | nil => exact Grows.refl v
  | cons b document ih =>
    rw [atomize_cons]
    exact (v.grows_insert [b]).trans (ih _)

theorem Consistent.atomize (h : v.Consistent) (document : Bytes) :
    (v.atomize document).1.Consistent := by
  induction document generalizing v with
  | nil => exact h
  | cons b document ih =>
    rw [atomize_cons]
    exact ih (h.insert [b])

theorem rules_atomize (v : Vocabulary) (document : Bytes) :
    (v.atomize document).1.rules = v.rules := by
  induction document generalizing v with
  | nil => rfl
  | cons b document ih => rw [atomize_cons, ih, rules_insert]

/-- The tokens of a document are those of its bytes, one by one. -/
theorem map_atom?_atomize (v : Vocabulary) (document : Bytes) :
    document.map (v.atomize document).1.atom? = (v.atomize document).2.map some := by
  induction document generalizing v with
  | nil => rfl
  | cons b document ih =>
    have hb : (v.insert [b]).1.atom? b = some (v.insert [b]).2 := by
      rw [atom?, id?_insert, if_pos rfl]
    rw [atomize_cons, List.map_cons, List.map_cons, ih]
    congr 1
    exact (grows_atomize _ document).id? hb

/-- The tokens of a document are real ones, each of a byte of the document. -/
theorem Consistent.bytes?_of_mem_atomize (h : v.Consistent) {document : Bytes}
    (hid : id ∈ (v.atomize document).2) :
    id ≠ unknown ∧ ∃ b, (v.atomize document).1.bytes? id = some [b] := by
  have hmem : some id ∈ (v.atomize document).2.map some := List.mem_map.2 ⟨id, hid, rfl⟩
  rw [← map_atom?_atomize] at hmem
  obtain ⟨b, -, hb⟩ := List.mem_map.1 hmem
  obtain ⟨hne, hbs⟩ := ((h.atomize document).id?_eq_some_iff [b] id).1 hb
  exact ⟨hne, b, hbs⟩

end BytePair.Vocabulary
