import BytePair.Proofs.Spelling

/-!
# Every merge makes a new token

A stretch of a document that has become one token never comes back as two. For if two tokens meet in
a document, encoding their bytes alone gives these two tokens, and encoding the bytes of a token
gives that token: so the bytes of the two are no token yet.

* `Vocabulary.HasAtoms`, `Corpus.hasAtoms_ofDocuments`: before training the table has the bytes of
  the documents, in the order in which they came first.
* `Vocabulary.Minted`: rules recorded one after the other, each with a new token.
* `Corpus.Canonical`: what merging keeps true of a corpus, above all that every token encodes to
  itself.
* `Corpus.merges_mint_tokens`, `Corpus.encode_bytes_of_token`: the two facts after any training.
* `Corpus.encode_has_no_rule_pair`: so no pair of a rule is left in an encoding.
-/

namespace BytePair

open Sequence (replace)

namespace Vocabulary

variable {v base : Vocabulary} {p : Pair} {id : TokenId} {bs seen : Bytes} {b : UInt8}

/-! ## The first tokens of a table -/

/-- The table has the unknown token, and the bytes in the order in which they were seen first. -/
def HasAtoms (v : Vocabulary) (seen : Bytes) : Prop :=
  v.tokens.toList = Bytes.ofText unknownMarker :: seen.eraseDups.map fun b => [b]

theorem HasAtoms.bytes?_eq (h : v.HasAtoms seen) (hne : id ≠ unknown) :
    v.bytes? id = (seen.eraseDups.map fun b => [b])[id - 1]? := by
  obtain ⟨n, rfl⟩ := Nat.exists_eq_succ_of_ne_zero hne
  rw [bytes?, ← Array.getElem?_toList, h]
  rfl

/-- Every real token is a single byte. -/
theorem HasAtoms.exists_byte (h : v.HasAtoms seen) (hne : id ≠ unknown)
    (hbs : v.bytes? id = some bs) : ∃ b ∈ seen, bs = [b] := by
  rw [h.bytes?_eq hne] at hbs
  obtain ⟨b, hb, rfl⟩ := List.mem_map.1 (List.mem_of_getElem? hbs)
  exact ⟨b, List.mem_eraseDups.1 hb, rfl⟩

theorem HasAtoms.size_eq (h : v.HasAtoms seen) : v.size = 1 + seen.eraseDups.length := by
  rw [size, ← Array.length_toList, h, List.length_cons, List.length_map, Nat.add_comm]

theorem HasAtoms.atom?_eq_none_iff (h : v.HasAtoms seen) (hv : v.Consistent) :
    v.atom? b = none ↔ b ∉ seen := by
  refine ⟨fun hnone hb => ?_, fun hb => ?_⟩
  · obtain ⟨n, hn⟩ := List.getElem?_of_mem
      (List.mem_map_of_mem (f := fun b => [b]) (List.mem_eraseDups.2 hb))
    have hbytes : v.bytes? (n + 1) = some [b] := by
      rw [h.bytes?_eq (Nat.succ_ne_zero n)]
      exact hn
    have hid : v.atom? b = some (n + 1) :=
      (hv.id?_eq_some_iff [b] (n + 1)).2 ⟨Nat.succ_ne_zero n, hbytes⟩
    rw [hnone] at hid
    cases hid
  · cases hid : v.atom? b with
    | none => rfl
    | some id =>
      obtain ⟨hne, hbs⟩ := (hv.id?_eq_some_iff [b] id).1 hid
      obtain ⟨b', hb', heq⟩ := h.exists_byte hne hbs
      obtain rfl : b = b' := by simpa using heq
      exact absurd hb' hb

theorem eraseDups_append_singleton (seen : Bytes) (b : UInt8) :
    (seen ++ [b]).eraseDups = if b ∈ seen then seen.eraseDups else seen.eraseDups ++ [b] := by
  rw [List.eraseDups_append]
  by_cases hb : b ∈ seen <;> simp [List.removeAll, List.eraseDups_cons, hb]

theorem HasAtoms.insert (h : v.HasAtoms seen) (hv : v.Consistent) (b : UInt8) :
    (v.insert [b]).1.HasAtoms (seen ++ [b]) := by
  have hnone : v.id? [b] = none ↔ b ∉ seen := h.atom?_eq_none_iff hv
  rw [HasAtoms, eraseDups_append_singleton]
  cases hid : v.id? [b] with
  | none =>
    rw [if_neg (hnone.1 hid), List.map_append, ← List.cons_append, ← h]
    simp [Vocabulary.insert, hid]
  | some id =>
    have hb : b ∈ seen := by
      refine Decidable.not_not.1 fun hb => ?_
      rw [hnone.2 hb] at hid
      cases hid
    rw [if_pos hb, ← h]
    simp [Vocabulary.insert, hid]

theorem HasAtoms.atomize (h : v.HasAtoms seen) (hv : v.Consistent) (d : Bytes) :
    (v.atomize d).1.HasAtoms (seen ++ d) := by
  induction d generalizing v seen with
  | nil => rwa [List.append_nil]
  | cons b d ih =>
    have h' := ih (h.insert hv b) (hv.insert [b])
    rw [List.append_assoc, List.singleton_append] at h'
    rwa [atomize_cons]

/-! ## Rules with new tokens -/

theorem size_addRule (h : v.id? (v.pairBytes p) = none) : (v.addRule p).1.size = v.size + 1 := by
  simp [addRule, insert, h, size]

theorem addRule_snd (h : v.id? (v.pairBytes p) = none) : (v.addRule p).2 = ⟨p, v.size⟩ := by
  simp [addRule, insert, h]

theorem rules_addRule_of_new (h : v.id? (v.pairBytes p) = none) :
    (v.addRule p).1.rules.toList = v.rules.toList ++ [⟨p, v.size⟩] := by
  rw [rules_addRule, addRule_snd h, Array.toList_push]

/-- Rules recorded one after the other, each of two tokens of the table whose bytes together were no
token yet. So each of them appended a new token. -/
inductive Minted (base : Vocabulary) : Vocabulary → Prop
  | base : Minted base base
  | addRule {v : Vocabulary} (h : Minted base v) (p : Pair) (hleft : p.left < v.size)
    (hright : p.right < v.size) (hnew : v.id? (v.pairBytes p) = none) : Minted base (v.addRule p).1

/-- There are as many new tokens as rules. -/
theorem Minted.size_eq (h : Minted base v) (hbase : base.rules = #[]) :
    v.size = base.size + v.rules.size := by
  induction h with
  | base => simp [hbase]
  | addRule _ p _ _ hnew ih =>
    rw [size_addRule hnew, ih, rules_addRule, Array.size_push, Nat.add_assoc]

/-- The token of a rule comes after its operands. -/
theorem Minted.lt_new (h : Minted base v) (hbase : base.rules = #[]) {r : Rule}
    (hr : r ∈ v.rules.toList) : r.pair.left < r.new ∧ r.pair.right < r.new ∧ r.new < v.size := by
  induction h with
  | base => simp [hbase] at hr
  | addRule _ p hleft hright hnew ih =>
    rw [rules_addRule_of_new hnew, List.mem_append, List.mem_singleton] at hr
    rw [size_addRule hnew]
    rcases hr with hr | rfl
    · obtain ⟨hl, hr, hn⟩ := ih hr
      exact ⟨hl, hr, Nat.lt_succ_of_lt hn⟩
    · exact ⟨hleft, hright, Nat.lt_succ_self _⟩

/-- The tokens of the rules are those behind the first table, in order. -/
theorem Minted.map_new_eq (h : Minted base v) (hbase : base.rules = #[]) :
    v.rules.toList.map Rule.new = List.range' base.size v.rules.size := by
  induction h with
  | base => simp [hbase]
  | addRule h p _ _ hnew ih =>
    rw [rules_addRule_of_new hnew, List.map_append, ih, rules_addRule, Array.size_push,
      List.range'_1_concat, ← h.size_eq hbase]
    rfl

theorem Minted.pairwise_new (h : Minted base v) (hbase : base.rules = #[]) :
    v.rules.toList.Pairwise fun r r' => r.new < r'.new := by
  rw [← List.pairwise_map (f := Rule.new) (R := (· < ·)), h.map_new_eq hbase]
  exact List.pairwise_lt_range'

/-- Rules of the same pair have the same token, since no two tokens have the same bytes. -/
theorem RulesFit.new_eq (hfit : v.RulesFit) (hv : v.Consistent) {r r' : Rule} (hr : r ∈ v.rules)
    (hr' : r' ∈ v.rules) (hpair : r.pair = r'.pair) : r.new = r'.new := by
  obtain ⟨left, right, hleft, hright, hnew⟩ := (hfit r hr).concatenates
  obtain ⟨left', right', hleft', hright', hnew'⟩ := (hfit r' hr').concatenates
  rw [← hpair, hleft, Option.some_inj] at hleft'
  rw [← hpair, hright, Option.some_inj] at hright'
  subst hleft' hright'
  have hid := (hv.id?_eq_some_iff _ _).2 ⟨(hfit r hr).new_ne, hnew⟩
  have hid' := (hv.id?_eq_some_iff _ _).2 ⟨(hfit r' hr').new_ne, hnew'⟩
  exact Option.some.inj (hid.symm.trans hid')

/-! ## Tokens that encode to themselves -/

/-- Encoding the bytes of the token gives just this token. -/
structure Whole (v : Vocabulary) (id : TokenId) (bs : Bytes) : Prop where
  knows : v.Knows bs
  encode_eq : v.encode bs = [id]

/-- The token of a single byte is untouched by the rules. -/
theorem whole_atom (h : v.atom? b = some id) : v.Whole id [b] where
  knows := by simpa [Knows] using ⟨id, h⟩
  encode_eq := by
    have hatoms : v.atoms [b] = [id] := by simp [atoms, h]
    rw [Vocabulary.encode_eq, hatoms, replaceAll_of_length_lt (by simp)]

/-- A further rule leaves a token alone, -/
theorem Whole.addRule (h : v.Whole id bs) (p : Pair) : (v.addRule p).1.Whole id bs where
  knows := h.knows.of_grows (v.grows_addRule p)
  encode_eq := by
    rw [h.knows.encode_addRule, h.encode_eq, Sequence.replace_of_length_lt (by simp)]

/-- and makes a token of the bytes that were its pair. -/
theorem whole_new (hknows : v.Knows bs) (h : v.encode bs = [p.left, p.right]) :
    (v.addRule p).1.Whole (v.addRule p).2.new bs where
  knows := hknows.of_grows (v.grows_addRule p)
  encode_eq := by rw [hknows.encode_addRule, h, Sequence.replace_pair]; rfl

end Vocabulary

namespace Corpus

variable {c : Corpus} {p : Pair} {docs : List Bytes}

/-! ## Trained corpora -/

/-- Before training the table has the bytes of the documents, in the order in which they came
first. -/
theorem hasAtoms_ofDocuments (docs : List Bytes) :
    (ofDocuments docs).vocabulary.HasAtoms docs.flatten := by
  unfold ofDocuments
  induction docs using List.reverseRecOn with
  | nil => rfl
  | append_singleton docs d ih =>
    have hsound := (reachable_ofDocuments docs).sound
    rw [List.foldl_append, List.flatten_append, List.flatten_singleton]
    exact ih.atomize hsound.consistent d

/-- What merging keeps true of the corpus of some documents: the documents are encodings of their
bytes, the rules join real tokens, and each of them made a new one, so that every token encodes to
itself. -/
structure Canonical (c : Corpus) (docs : List Bytes) : Prop extends Replays c docs where
  fits : c.vocabulary.RulesFit
  minted : Vocabulary.Minted (ofDocuments docs).vocabulary c.vocabulary
  whole (id : TokenId) (bs : Bytes) : id ≠ unknown → c.vocabulary.bytes? id = some bs →
    c.vocabulary.Whole id bs

theorem canonical_ofDocuments (docs : List Bytes) : (ofDocuments docs).Canonical docs where
  toReplays := (replays_ofDocuments docs).1
  fits := (reachable_ofDocuments docs).rulesFit
  minted := .base
  whole id bs hne hbs := by
    obtain ⟨b, -, rfl⟩ := (hasAtoms_ofDocuments docs).exists_byte hne hbs
    have hv := (reachable_ofDocuments docs).sound.consistent
    exact Vocabulary.whole_atom ((hv.id?_eq_some_iff [b] id).2 ⟨hne, hbs⟩)

/-- Where two tokens meet in a document, encoding their bytes alone gives the two. -/
theorem Canonical.encode_pairBytes (h : c.Canonical docs) (hc : c.Sound)
    (hp : p ∈ Naive.allPairs c.sequences) : c.vocabulary.Knows (c.vocabulary.pairBytes p) ∧
      c.vocabulary.encode (c.vocabulary.pairBytes p) = [p.left, p.right] := by
  obtain ⟨s, hs, hp'⟩ := List.mem_flatMap.1 hp
  obtain ⟨hleft, hright⟩ := hc.ne_unknown_of_mem hp
  rw [h.sequences_eq] at hs
  obtain ⟨d, -, rfl⟩ := List.mem_map.1 hs
  exact h.fits.encode_pairBytes hc.consistent hleft hright hp'

/-- Where two tokens meet in a document, their bytes together are no token yet. -/
theorem Canonical.id?_pairBytes (h : c.Canonical docs) (hc : c.Sound)
    (hp : p ∈ Naive.allPairs c.sequences) :
    c.vocabulary.id? (c.vocabulary.pairBytes p) = none := by
  cases hid : c.vocabulary.id? (c.vocabulary.pairBytes p) with
  | none => rfl
  | some id =>
    obtain ⟨hne, hbs⟩ := (hc.consistent.id?_eq_some_iff _ id).1 hid
    have htwo := (h.encode_pairBytes hc hp).2
    rw [(h.whole id _ hne hbs).encode_eq] at htwo
    cases htwo

/-- One merge keeps all of it. -/
theorem Canonical.merged (h : c.Canonical docs) (hc : c.Sound)
    (hp : p ∈ Naive.allPairs c.sequences) : (c.merged p).Canonical docs where
  toReplays := h.toReplays.merged p
  fits := hc.rulesFit_merged hp h.fits
  minted := by
    obtain ⟨⟨l, hl, -⟩, r, hr, -⟩ := hc.bytes?_of_mem hp
    exact h.minted.addRule p (Vocabulary.lt_size_of_bytes? hl) (Vocabulary.lt_size_of_bytes? hr)
      (h.id?_pairBytes hc hp)
  whole id bs hne hbs := by
    have hnew := h.id?_pairBytes hc hp
    rw [vocabulary_merged, Vocabulary.bytes?_addRule] at hbs
    split at hbs
    · rename_i hid
      obtain ⟨hknows, htwo⟩ := h.encode_pairBytes hc hp
      have hwhole := Vocabulary.whole_new hknows htwo
      rw [Vocabulary.addRule_snd hnew] at hwhole
      rw [hid.2, ← Option.some.inj hbs]
      exact hwhole
    · exact (h.whole id bs hne hbs).addRule p

theorem canonical_trainAll (docs : List Bytes) (configs : List Config) :
    ((ofDocuments docs).trainAll configs).Canonical docs :=
  (reachable_ofDocuments docs).trainAll_keeps (motive := fun c => c.Canonical docs)
    (canonical_ofDocuments docs) (fun _ _ hc hp h => h.merged hc hp) configs

/-- Training runs that count again in every round. -/
theorem Reachable.trainAll_eq_naive (h : c.Reachable) (configs : List Config) :
    c.trainAll configs =
      configs.foldl (fun c config => (Naive.train config c).corpus) c := by
  unfold Corpus.trainAll
  induction configs generalizing c with
  | nil => rfl
  | cons config configs ih =>
    rw [List.foldl_cons, List.foldl_cons, ih (h.train config), h.sound.train_eq]

/-- **Every merge makes a new token.** After any training runs on any documents, each rule was
recorded when its bytes were no token yet. So there are as many tokens as distinct bytes and rules,
and the unknown one; the tokens of the rules come behind those of the bytes, in order, and each of
them after its operands; and no pair has two rules. -/
theorem merges_mint_tokens (docs : List Bytes) (configs : List Config) :
    let v := ((ofDocuments docs).trainAll configs).vocabulary
    Vocabulary.Minted (ofDocuments docs).vocabulary v ∧
      v.size = 1 + docs.flatten.eraseDups.length + v.rules.size ∧
      v.rules.toList.map Rule.new =
        List.range' (1 + docs.flatten.eraseDups.length) v.rules.size ∧
      (∀ r ∈ v.rules.toList, r.pair.left < r.new ∧ r.pair.right < r.new) ∧
      v.rules.toList.Pairwise fun r r' => r.new < r'.new ∧ r.pair ≠ r'.pair := by
  intro v
  have h : ((ofDocuments docs).trainAll configs).Canonical docs := canonical_trainAll docs configs
  have hv : v.Consistent := ((reachable_ofDocuments docs).trainAll configs).sound.consistent
  have hbase := (replays_ofDocuments docs).2
  refine ⟨h.minted, ?_, ?_, fun r hr => ?_, ?_⟩
  · rw [← (hasAtoms_ofDocuments docs).size_eq]
    exact h.minted.size_eq hbase
  · rw [← (hasAtoms_ofDocuments docs).size_eq]
    exact h.minted.map_new_eq hbase
  · obtain ⟨hleft, hright, -⟩ := h.minted.lt_new hbase hr
    exact ⟨hleft, hright⟩
  · refine (h.minted.pairwise_new hbase).imp_of_mem fun {r r'} hr hr' hlt => ⟨hlt, fun hpair => ?_⟩
    have hsame := h.fits.new_eq hv (Array.mem_toList_iff.1 hr) (Array.mem_toList_iff.1 hr') hpair
    exact Nat.ne_of_lt hlt hsame

/-- **Every token encodes to itself.** After any training runs on any documents, encoding the bytes
of a real token gives just this token. -/
theorem encode_bytes_of_token (docs : List Bytes) (configs : List Config) (id : TokenId)
    (hpos : 1 ≤ id) (hsize : id < ((ofDocuments docs).trainAll configs).vocabulary.size) :
    ∃ bs, ((ofDocuments docs).trainAll configs).vocabulary.bytes? id = some bs ∧
      ((ofDocuments docs).trainAll configs).vocabulary.encode bs = [id] := by
  have hbs : ((ofDocuments docs).trainAll configs).vocabulary.bytes? id = some _ :=
    Array.getElem?_eq_getElem hsize
  have hne : id ≠ unknown := Nat.ne_of_gt hpos
  exact ⟨_, hbs, ((canonical_trainAll docs configs).whole id _ hne hbs).encode_eq⟩

/-- The last token of two runs over repetitions, the second of which goes on with what the first
one left: it is a whole document. -/
theorem encode_bytes_of_token_repeated :
    let v := ((ofDocuments [[97, 97, 97, 97, 97, 98], [98, 97, 97, 97, 98]]).trainAll
      [{ vocabularySize := 4 }, { minFrequency := 1 }]).vocabulary
    1 ≤ 7 ∧ 7 < v.size ∧ v.bytes? 7 = some [97, 97, 97, 97, 97, 98] ∧
      v.encode [97, 97, 97, 97, 97, 98] = [7] := by
  intro v
  have htable : v.size = 8 ∧ v.bytes? 7 = some [97, 97, 97, 97, 97, 98] := by
    have hnaive : v = _ :=
      congrArg Corpus.vocabulary ((reachable_ofDocuments _).trainAll_eq_naive _)
    rw [hnaive]
    decide +kernel
  have hsize : 7 < v.size := by omega
  obtain ⟨bs, hbs, hencode⟩ := encode_bytes_of_token _ _ 7 (by decide) hsize
  obtain rfl : _ = bs := Option.some.inj (htable.2.symm.trans hbs)
  exact ⟨by decide, hsize, hbs, hencode⟩

/-! ## Normal forms -/

/-- The pair of a rule stands in no encoding: its bytes are encoded as the token of the rule. -/
theorem Canonical.pair_notMem_encode (h : c.Canonical docs) (hc : c.Sound) {r : Rule}
    (hr : r ∈ c.vocabulary.rules) (text : Bytes) :
    r.pair ∉ adjacentPairs (c.vocabulary.encode text) := by
  intro hmem
  obtain ⟨hleft_ne, hright_ne, hnew_ne, left, right, hleft, hright, hnew⟩ := h.fits r hr
  have hbytes : c.vocabulary.pairBytes r.pair = left ++ right := by
    simp [Vocabulary.pairBytes, Vocabulary.bytes?, hleft, hright]
  have htwo := (h.fits.encode_pairBytes hc.consistent hleft_ne hright_ne hmem).2
  have hone := (h.whole r.new _ hnew_ne hnew).encode_eq
  rw [hbytes, hone] at htwo
  simp at htwo

/-- **Encodings are in normal form.** After any training runs on any documents, no pair that was
recorded as a rule stands anywhere in the encoding of any text, although each rule is replayed only
once. -/
theorem encode_has_no_rule_pair (docs : List Bytes) (configs : List Config) (text : Bytes)
    (r : Rule) (hr : r ∈ ((ofDocuments docs).trainAll configs).vocabulary.rules) :
    r.pair ∉ adjacentPairs (((ofDocuments docs).trainAll configs).vocabulary.encode text) :=
  (canonical_trainAll docs configs).pair_notMem_encode
    ((reachable_ofDocuments docs).trainAll configs).sound hr text

/-- A text of other repetitions than the documents have, with a byte that none of them has. -/
theorem encode_has_no_rule_pair_repeated :
    let v := ((ofDocuments [[97, 97, 97, 97, 97, 98], [98, 97, 97, 97, 98]]).trainAll
      [{ vocabularySize := 4 }, { minFrequency := 1 }]).vocabulary
    ⟨⟨1, 1⟩, 3⟩ ∈ v.rules ∧ v.encode [97, 97, 97, 99, 97, 97, 97, 98] = [3, 1, 0, 5] ∧
      ⟨1, 1⟩ ∉ adjacentPairs (v.encode [97, 97, 97, 99, 97, 97, 97, 98]) := by
  intro v
  have hnaive : v = _ := congrArg Corpus.vocabulary ((reachable_ofDocuments _).trainAll_eq_naive _)
  have hrule : ⟨⟨1, 1⟩, 3⟩ ∈ v.rules := by
    rw [hnaive]
    decide +kernel
  have hencode : v.encode [97, 97, 97, 99, 97, 97, 97, 98] = [3, 1, 0, 5] := by
    rw [hnaive]
    decide +kernel
  exact ⟨hrule, hencode, encode_has_no_rule_pair _ _ _ _ hrule⟩

end Corpus

end BytePair
