import BytePair.Proofs.Spelling

/-!
# What loads back

The binary form can write down every table and every list of rules, but it is read only if the rules
fit the table as it is when it is written.

* `Vocabulary.toBytes_append_inj`: the form ends by itself, and no two vocabularies have the same.
* `Vocabulary.Reachable`: the vocabularies that operations lead to, in any order and with rules of
  any two ids; `Vocabulary.Joins`: what the form asks of a rule.
* `loads_back_iff`: these are just the ones that load back, the others are refused; training always
  leads to one that loads back.
* `Vocabulary.Genuine`: the vocabularies that were read or trained.
-/

namespace BytePair

/-! ## Forms that end by themselves -/

namespace Binary

variable {m n : Nat} {x y : Bytes} {id id' : TokenId} {bs cs : Bytes} {r r' : Rule}

theorem number_append_inj (hm : m < 2 ^ 32) (hn : n < 2 ^ 32)
    (h : number m ++ x = number n ++ y) : m = n ∧ x = y := by
  have hx := readNumber_number .entryCount hm x
  rw [h, readNumber_number .entryCount hn y] at hx
  have heq := Except.ok.inj hx
  exact ⟨(Prod.mk.inj heq).1.symm, (Prod.mk.inj heq).2.symm⟩

theorem entry_append_inj (hid : id < 2 ^ 32) (hid' : id' < 2 ^ 32) (hbs : bs.length < 2 ^ 32)
    (hcs : cs.length < 2 ^ 32) (h : entry id bs ++ x = entry id' cs ++ y) :
    (bs, id) = (cs, id') ∧ x = y := by
  rw [entry_append, entry_append] at h
  obtain ⟨rfl, hrest⟩ := number_append_inj hid hid' h
  obtain ⟨hlength, hbytes⟩ := number_append_inj hbs hcs hrest
  obtain ⟨rfl, rfl⟩ := List.append_inj hbytes hlength
  exact ⟨rfl, rfl⟩

/-- The ids of a rule have four bytes each. -/
structure Numbered (r : Rule) : Prop where
  left_lt : r.pair.left < 2 ^ 32
  right_lt : r.pair.right < 2 ^ 32
  new_lt : r.new < 2 ^ 32

theorem rule_append_inj (hr : Numbered r) (hr' : Numbered r') (h : rule r ++ x = rule r' ++ y) :
    r = r' ∧ x = y := by
  obtain ⟨⟨left, right⟩, new⟩ := r
  obtain ⟨⟨left', right'⟩, new'⟩ := r'
  rw [rule_append, rule_append] at h
  obtain ⟨hleft, h⟩ := number_append_inj hr.left_lt hr'.left_lt h
  obtain ⟨hright, h⟩ := number_append_inj hr.right_lt hr'.right_lt h
  obtain ⟨hnew, hxy⟩ := number_append_inj hr.new_lt hr'.new_lt h
  obtain rfl : left = left' := hleft
  obtain rfl : right = right' := hright
  obtain rfl : new = new' := hnew
  exact ⟨rfl, hxy⟩

/-- A list of items, each of which ends by itself, ends by itself if its length is known. -/
theorem flatMap_append_inj {α : Type} {f : α → Bytes} {P : α → Prop}
    (hf : ∀ {a b : α} {x y : Bytes}, P a → P b → f a ++ x = f b ++ y → a = b ∧ x = y)
    {l l' : List α} (hlength : l.length = l'.length) (hl : ∀ a ∈ l, P a) (hl' : ∀ a ∈ l', P a)
    (h : l.flatMap f ++ x = l'.flatMap f ++ y) : l = l' ∧ x = y := by
  induction l generalizing l' with
  | nil =>
    obtain rfl := List.length_eq_zero_iff.1 hlength.symm
    exact ⟨rfl, h⟩
  | cons a l ih =>
    obtain ⟨b, l', rfl⟩ := List.exists_cons_of_length_eq_add_one hlength.symm
    rw [List.forall_mem_cons] at hl hl'
    rw [List.flatMap_cons, List.flatMap_cons, List.append_assoc, List.append_assoc] at h
    obtain ⟨rfl, hrest⟩ := hf hl.1 hl'.1 h
    obtain ⟨rfl, hxy⟩ := ih (Nat.succ.inj hlength) hl.2 hl'.2 hrest
    exact ⟨rfl, hxy⟩

end Binary

namespace Vocabulary

variable {v w : Vocabulary} {r : Rule} {x y : Bytes}

/-- Four bytes are enough for the size of the table, the number of rules and the length of every
token. -/
structure InRange (v : Vocabulary) : Prop where
  size_lt : v.size < 2 ^ 32
  rules_lt : v.rules.size < 2 ^ 32
  length_lt : ∀ bs ∈ v.tokens, bs.length < 2 ^ 32

/-- The form of a vocabulary ends by itself and determines the table and the rules. -/
theorem toBytes_append_inj (hv : v.InRange) (hw : w.InRange)
    (hvr : ∀ r ∈ v.rules, Binary.Numbered r) (hwr : ∀ r ∈ w.rules, Binary.Numbered r)
    (h : v.toBytes ++ x = w.toBytes ++ y) : v.tokens = w.tokens ∧ v.rules = w.rules ∧ x = y := by
  simp only [toBytes, List.append_assoc] at h
  obtain ⟨hsize, h⟩ := Binary.number_append_inj hv.size_lt hw.size_lt h
  have hentry {v : Vocabulary} (hv : v.InRange) :
      ∀ a ∈ v.tokens.toList.zipIdx, a.2 < 2 ^ 32 ∧ a.1.length < 2 ^ 32 := by
    rintro ⟨bs, id⟩ ha
    have hbs := List.mem_zipIdx' ha
    have hsize := hv.size_lt
    refine ⟨Nat.lt_trans hbs.1 hsize, hv.length_lt bs ?_⟩
    rw [hbs.2]
    exact Array.mem_toList_iff.1 (List.getElem_mem _)
  obtain ⟨htokens, h⟩ := Binary.flatMap_append_inj
    (f := fun a : Bytes × TokenId => Binary.entry a.2 a.1)
    (P := fun a => a.2 < 2 ^ 32 ∧ a.1.length < 2 ^ 32)
    (fun ha hb => Binary.entry_append_inj ha.1 hb.1 ha.2 hb.2)
    (by rw [List.length_zipIdx, List.length_zipIdx]; exact hsize) (hentry hv) (hentry hw) h
  obtain ⟨hcount, h⟩ := Binary.number_append_inj hv.rules_lt hw.rules_lt h
  obtain ⟨hrules, hxy⟩ := Binary.flatMap_append_inj Binary.rule_append_inj hcount
    (fun r hr => hvr r (Array.mem_toList_iff.1 hr))
    (fun r hr => hwr r (Array.mem_toList_iff.1 hr)) h
  refine ⟨Array.toList_inj.1 ?_, Array.toList_inj.1 hrules, hxy⟩
  rw [← List.zipIdx_map_fst 0 v.tokens.toList, htokens, List.zipIdx_map_fst]

theorem WellFormed.inRange (h : v.WellFormed) : v.InRange := ⟨h.size_lt, h.rules_lt, h.length_lt⟩

theorem WellFormed.numbered (h : v.WellFormed) (hr : r ∈ v.rules) : Binary.Numbered r := by
  obtain ⟨left, right, hleft, hright, hnew⟩ := (h.fits r hr).concatenates
  have hlt {id : TokenId} {bs : Bytes} (hid : v.tokens[id]? = some bs) : id < 2 ^ 32 :=
    Binary.lt_of_getElem? h.size_lt hid
  exact ⟨hlt hleft, hlt hright, hlt hnew⟩

/-! ## Vocabularies by any operations -/

/-- A vocabulary that comes from the fresh one, or from one that was read, by taking in tokens and
documents and recording rules in any order. The operands of a rule are any two ids of four bytes. -/
inductive Reachable : Vocabulary → Prop
  | fresh : Reachable fresh
  | read {v : Vocabulary} {data : Bytes} (h : ofBytes data = .ok v) : Reachable v
  | insert {v : Vocabulary} (h : Reachable v) (bs : Bytes) : Reachable (v.insert bs).1
  | atomize {v : Vocabulary} (h : Reachable v) (document : Bytes) :
    Reachable (v.atomize document).1
  | addRule {v : Vocabulary} (h : Reachable v) (p : Pair) (hleft : p.left < 2 ^ 32)
    (hright : p.right < 2 ^ 32) : Reachable (v.addRule p).1

/-- The operands of a rule may be any ids, but its token is a real one of the table. -/
structure Recorded (v : Vocabulary) (r : Rule) : Prop where
  left_lt : r.pair.left < 2 ^ 32
  right_lt : r.pair.right < 2 ^ 32
  new_ne : r.new ≠ unknown
  new_bytes : ∃ bs, v.bytes? r.new = some bs

theorem Recorded.of_grows (h : v.Recorded r) (hgrows : v.Grows w) : w.Recorded r := by
  obtain ⟨bs, hbs⟩ := h.new_bytes
  exact ⟨h.left_lt, h.right_lt, h.new_ne, bs, hgrows.bytes? hbs⟩

theorem Recorded.numbered (h : v.Recorded r) (hv : v.InRange) : Binary.Numbered r := by
  obtain ⟨bs, hbs⟩ := h.new_bytes
  exact ⟨h.left_lt, h.right_lt, Binary.lt_of_getElem? hv.size_lt hbs⟩

theorem Reachable.consistent (h : v.Reachable) : v.Consistent := by
  induction h with
  | fresh => exact consistent_fresh
  | read h => exact ((ofBytes_eq_ok_iff _ _).1 h).2.toConsistent
  | insert _ bs ih => exact ih.insert bs
  | atomize _ document ih => exact ih.atomize document
  | addRule _ p _ _ ih => exact ih.addRule p

theorem Reachable.recorded (h : v.Reachable) : ∀ r ∈ v.rules, v.Recorded r := by
  induction h with
  | fresh => exact fun r hr => absurd hr (Array.not_mem_empty r)
  | read h =>
    have hwell := ((ofBytes_eq_ok_iff _ _).1 h).2
    intro r hr
    obtain ⟨left, right, -, -, hnew⟩ := (hwell.fits r hr).concatenates
    have hnumbered := hwell.numbered hr
    exact ⟨hnumbered.left_lt, hnumbered.right_lt, (hwell.fits r hr).new_ne, _, hnew⟩
  | insert _ bs ih =>
    intro r hr
    rw [rules_insert] at hr
    exact (ih r hr).of_grows (grows_insert _ bs)
  | atomize _ document ih =>
    intro r hr
    rw [rules_atomize] at hr
    exact (ih r hr).of_grows (grows_atomize _ document)
  | addRule h p hleft hright ih =>
    intro r hr
    rw [rules_addRule] at hr
    rcases Array.mem_push.1 hr with hr | rfl
    · exact (ih r hr).of_grows (grows_addRule _ p)
    · exact ⟨hleft, hright, h.consistent.insert_snd_ne _, _, h.consistent.bytes?_insert_snd _⟩

/-! ## Loading back -/

/-- The operands of the rule are real tokens of the table, and its token has the bytes of both. -/
structure Joins (v : Vocabulary) (r : Rule) : Prop where
  left_ne : r.pair.left ≠ unknown
  right_ne : r.pair.right ≠ unknown
  concatenates : ∃ left right, v.bytes? r.pair.left = some left ∧
    v.bytes? r.pair.right = some right ∧ v.bytes? r.new = some (left ++ right)

theorem fits_iff_joins : Binary.Fits v.tokens r ↔ v.Joins r ∧ r.new ≠ unknown :=
  ⟨fun h => ⟨⟨h.left_ne, h.right_ne, h.concatenates⟩, h.new_ne⟩,
    fun h => ⟨h.1.left_ne, h.1.right_ne, h.2, h.1.concatenates⟩⟩

/-- Rules that join real tokens are all that the form asks for. -/
theorem Reachable.wellFormed_iff (h : v.Reachable) (hv : v.InRange) :
    v.WellFormed ↔ ∀ r ∈ v.rules, v.Joins r := by
  constructor
  · intro hwell r hr
    exact (fits_iff_joins.1 (hwell.fits r hr)).1
  · intro hjoins
    refine ⟨h.consistent, nodup_drop_one_iff.1 h.consistent.nodup, fun r hr => ?_, hv.size_lt,
      hv.rules_lt, hv.length_lt⟩
    exact fits_iff_joins.2 ⟨hjoins r hr, (h.recorded r hr).new_ne⟩

/-- What the form of a vocabulary is read as, if it is read, is that vocabulary. -/
theorem Reachable.eq_of_ofBytes (h : v.Reachable) (hv : v.InRange)
    (hw : ofBytes v.toBytes = .ok w) : w = v := by
  obtain ⟨hbytes, hwell⟩ := (ofBytes_eq_ok_iff _ _).1 hw
  obtain ⟨htokens, hrules, -⟩ := toBytes_append_inj hwell.inRange hv (fun r hr => hwell.numbered hr)
    (fun r hr => (h.recorded r hr).numbered hv) (congrArg (· ++ []) hbytes)
  rw [← hwell.toConsistent.eq_ofTable, ← h.consistent.eq_ofTable, htokens, hrules]

theorem Reachable.ofBytes_toBytes_iff (h : v.Reachable) (hv : v.InRange) :
    ofBytes v.toBytes = .ok v ↔ ∀ r ∈ v.rules, v.Joins r := by
  rw [ofBytes_eq_ok_iff, and_iff_right rfl, h.wellFormed_iff hv]

theorem Reachable.ofBytes_toBytes_error_iff (h : v.Reachable) (hv : v.InRange) :
    (∃ reason, ofBytes v.toBytes = .error reason) ↔ ¬∀ r ∈ v.rules, v.Joins r := by
  rw [← h.ofBytes_toBytes_iff hv]
  cases hw : ofBytes v.toBytes with
  | error reason => simp
  | ok w => simp [h.eq_of_ofBytes hv hw]

end Vocabulary

namespace Corpus

variable {c : Corpus}

theorem Reachable.joins (h : c.Reachable) : ∀ r ∈ c.vocabulary.rules, c.vocabulary.Joins r :=
  fun r hr => (Vocabulary.fits_iff_joins.1 (h.rulesFit r hr)).1

theorem Reachable.ofBytes_toBytes (h : c.Reachable) (hv : c.vocabulary.InRange) :
    Vocabulary.ofBytes c.vocabulary.toBytes = .ok c.vocabulary := by
  have hc := h.sound.consistent
  refine (Vocabulary.ofBytes_eq_ok_iff _ _).2 ⟨rfl, hc, ?_, h.rulesFit, hv.size_lt, hv.rules_lt,
    hv.length_lt⟩
  exact Vocabulary.nodup_drop_one_iff.1 hc.nodup

end Corpus

namespace Vocabulary

variable {v : Vocabulary}

/-- A vocabulary that was read from its binary form, or that came out of documents and training. -/
inductive Genuine : Vocabulary → Prop
  | read {v : Vocabulary} {data : Bytes} (h : ofBytes data = .ok v) : Genuine v
  | trained {c : Corpus} (h : c.Reachable) : Genuine c.vocabulary

theorem Genuine.consistent (h : v.Genuine) : v.Consistent := by
  cases h with
  | read h => exact ((ofBytes_eq_ok_iff _ _).1 h).2.toConsistent
  | trained h => exact h.sound.consistent

theorem Genuine.rulesFit (h : v.Genuine) : v.RulesFit := by
  cases h with
  | read h => exact ((ofBytes_eq_ok_iff _ _).1 h).2.fits
  | trained h => exact h.rulesFit

/-- What was read fits into its binary form, -/
theorem inRange_of_ofBytes {data : Bytes} (h : ofBytes data = .ok v) : v.InRange :=
  ((ofBytes_eq_ok_iff _ _).1 h).2.inRange

/-- and whatever fits into it is read back. -/
theorem Genuine.ofBytes_toBytes_iff (h : v.Genuine) : ofBytes v.toBytes = .ok v ↔ v.InRange := by
  refine ⟨inRange_of_ofBytes, fun hv => ?_⟩
  cases h with
  | read h =>
    rw [((ofBytes_eq_ok_iff _ _).1 h).1]
    exact h
  | trained h => exact h.ofBytes_toBytes hv

end Vocabulary

/-- **What loads back.** After any operations, as long as four bytes are enough for all numbers, the
form of a vocabulary is read as that vocabulary if every rule joins two real tokens of the final
table into its token, and is refused otherwise. After documents and training in any order every rule
does, so what training saves always loads back as it was. -/
theorem loads_back_iff :
    (∀ v : Vocabulary, v.Reachable → v.InRange →
      (Vocabulary.ofBytes v.toBytes = .ok v ↔ ∀ r ∈ v.rules, v.Joins r) ∧
      ((∃ reason, Vocabulary.ofBytes v.toBytes = .error reason) ↔ ¬∀ r ∈ v.rules, v.Joins r)) ∧
    ∀ c : Corpus, c.Reachable → (∀ r ∈ c.vocabulary.rules, c.vocabulary.Joins r) ∧
      (c.vocabulary.InRange →
        Vocabulary.ofBytes c.vocabulary.toBytes = .ok c.vocabulary) :=
  ⟨fun _ h hv => ⟨h.ofBytes_toBytes_iff hv, h.ofBytes_toBytes_error_iff hv⟩,
    fun _ h => ⟨h.joins, h.ofBytes_toBytes⟩⟩

/-- A rule with an operand that the table does not have yet is refused, until the token comes. A
trained vocabulary loads back. -/
theorem loads_back_with_operand :
    let early := ((Vocabulary.fresh.insert [97]).1.addRule ⟨1, 2⟩).1
    let late := (early.insert []).1
    let trained := ((Corpus.fresh.ingest [97, 98, 97, 98]).train {}).corpus.vocabulary
    (∃ reason, Vocabulary.ofBytes early.toBytes = .error reason) ∧
      Vocabulary.ofBytes late.toBytes = .ok late ∧
      Vocabulary.ofBytes trained.toBytes = .ok trained := by
  intro early late trained
  have hearly : early.Reachable := .addRule (.insert .fresh _) _ (by decide) (by decide)
  have hlate : late.Reachable := hearly.insert []
  have hrules : early.rules = #[⟨⟨1, 2⟩, 1⟩] ∧ late.rules = #[⟨⟨1, 2⟩, 1⟩] := by decide +kernel
  refine ⟨?_, ?_, ?_⟩
  · refine ((loads_back_iff.1 early hearly ⟨?_, ?_, ?_⟩).2).2 fun hjoins => ?_
    · decide +kernel
    · decide +kernel
    · decide +kernel
    · obtain ⟨-, right, -, hright, -⟩ := (hjoins ⟨⟨1, 2⟩, 1⟩ (by simp [hrules.1])).concatenates
      have hnone : early.bytes? 2 = none := by decide +kernel
      cases hnone.symm.trans hright
  · refine ((loads_back_iff.1 late hlate ⟨?_, ?_, ?_⟩).1).2 fun r hr => ?_
    · decide +kernel
    · decide +kernel
    · decide +kernel
    · obtain rfl : r = ⟨⟨1, 2⟩, 1⟩ := by simpa [hrules.2] using hr
      exact ⟨by decide, by decide, [97], [], by decide +kernel⟩
  · have hc : (Corpus.fresh.ingest [97, 98, 97, 98]).Reachable := .ingest .fresh _
    have hnaive : trained = _ := congrArg (·.corpus.vocabulary) (hc.sound.train_eq {})
    refine (loads_back_iff.2 _ (hc.train {})).2 (show trained.InRange from ?_)
    rw [hnaive]
    exact ⟨by decide +kernel, by decide +kernel, by decide +kernel⟩

end BytePair
