import BytePair.Proofs.Growth
import BytePair.Vocabulary.Binary
import Mathlib.Algebra.Group.Nat.Defs

/-!
# The binary form is exact

* `readNumber_eq_ok_iff`, `readEntries_eq_ok_iff` and so on: a reader succeeds on just the bytes
  that the writer makes of its result, whatever follows them.
* `Vocabulary.WellFormed`: what the form can say.
* `Vocabulary.Consistent.eq_ofTable`: the table of a consistent vocabulary determines its inverse.
* `Vocabulary.ofBytes_exact`: the accepted byte strings are those written for well-formed
  vocabularies, each of which is read back; all others are refused.
-/

namespace BytePair

section Except

variable {ε α β : Type} {x : Except ε α} {f : α → Except ε β} {a : α} {b : β} {e : ε}

/-- Two steps succeed if the first one does and the second one does with its answer. -/
theorem bind_eq_ok : (x >>= f) = .ok b ↔ ∃ a, x = .ok a ∧ f a = .ok b := by
  cases x <;> simp [bind, Except.bind]

theorem throw_bind : (throw e >>= f) = throw e := rfl

/-- A check that is passed leaves the rest. -/
theorem ite_throw_eq_ok {c : Prop} [Decidable c] :
    (if c then throw e else x) = .ok a ↔ ¬c ∧ x = .ok a := by
  by_cases h : c
  · rw [if_pos h]
    constructor
    · rintro ⟨⟩
    · exact fun h' => absurd h h'.1
  · rw [if_neg h, and_iff_right h]

theorem pure_eq_ok {a' : α} : (pure a : Except ε α) = .ok a' ↔ a = a' :=
  ⟨Except.ok.inj, congrArg _⟩

end Except

theorem toList_push_append {α : Type} (xs : Array α) (x : α) (l : List α) :
    (xs.push x).toList ++ l = xs.toList ++ x :: l := by
  rw [Array.toList_push, List.append_assoc, List.singleton_append]

namespace Binary

variable {field : Field} {data rest bs : Bytes} {n : Nat}

/-! ## Numbers and bytes -/

theorem readNumber_eq_ok_iff :
    readNumber field data = .ok (n, rest) ↔ n < 2 ^ 32 ∧ data = number n ++ rest := by
  constructor
  · intro h
    unfold readNumber at h
    split at h
    · rename_i a b c d behind
      cases h
      have ha := a.toNat_lt
      have hb := b.toNat_lt
      have hc := c.toNat_lt
      have hd := d.toNat_lt
      refine ⟨by omega, ?_⟩
      simp only [number, List.cons_append, List.nil_append, List.cons.injEq, and_true,
        ← UInt8.toNat_inj, UInt8.toNat_ofNat']
      omega
    · cases h
  · rintro ⟨hn, rfl⟩
    exact readNumber_number field hn rest

theorem readBytes_eq_ok_iff :
    readBytes field n data = .ok (bs, rest) ↔ bs.length = n ∧ data = bs ++ rest := by
  simp only [readBytes]
  constructor
  · intro h
    split at h
    · rename_i hlength
      cases h
      exact ⟨hlength, (List.take_append_drop n data).symm⟩
    · cases h
  · rintro ⟨rfl, rfl⟩
    rw [List.take_left, if_pos rfl, List.drop_left]

/-! ## Entries -/

section Entries

variable {tokens tokens' : Array Bytes} {seen : Std.ExtTreeSet Bytes}

/-- The entries so far differ from each other, the first one left out, and are the ones seen. -/
structure Distinct (tokens : Array Bytes) (seen : Std.ExtTreeSet Bytes) : Prop where
  nodup : (tokens.toList.drop 1).Nodup
  mem_seen (bs : Bytes) : bs ∈ seen ↔ bs ∈ tokens.toList.drop 1

theorem distinct_empty : Distinct #[] ∅ := ⟨List.nodup_nil, by simp⟩

/-- Behind a table with a first entry all further ones count. -/
theorem drop_one_append (h : tokens.size ≠ unknown) (more : List Bytes) :
    (tokens.toList ++ more).drop 1 = tokens.toList.drop 1 ++ more :=
  List.drop_append_of_le_length (Nat.pos_of_ne_zero h)

theorem Distinct.push (h : Distinct tokens seen) (hbs : tokens.size ≠ unknown → bs ∉ seen) :
    Distinct (tokens.push bs) (if tokens.size = unknown then seen else seen.insert bs) := by
  -- the first entry is not seen, so a later one may have its bytes
  by_cases hfirst : tokens.size = unknown
  · obtain rfl : tokens = #[] := Array.eq_empty_of_size_eq_zero hfirst
    rw [if_pos hfirst]
    exact ⟨List.nodup_nil, h.mem_seen⟩
  · have hnot := mt (h.mem_seen bs).2 (hbs hfirst)
    rw [if_neg hfirst]
    constructor
    · rw [Array.toList_push, drop_one_append hfirst, List.nodup_append]
      refine ⟨h.nodup, by simp, fun cs hcs ds hds heq => hnot ?_⟩
      rwa [← List.mem_singleton.1 hds, ← heq]
    · intro cs
      rw [Array.toList_push, drop_one_append hfirst, List.mem_append, List.mem_singleton,
        ← h.mem_seen, Std.ExtTreeSet.mem_insert, Std.LawfulEqCmp.compare_eq_iff_eq, eq_comm,
        or_comm]

theorem entry_append (id : TokenId) (bs rest : Bytes) :
    entry id bs ++ rest = number id ++ (number bs.length ++ (bs ++ rest)) := by
  rw [entry, List.append_assoc, List.append_assoc]

/-- One more entry is read if it stands there, with the next id and with bytes that are new. -/
theorem readEntries_succ_eq_ok_iff {out : Array Bytes × Bytes} (hsize : tokens.size < 2 ^ 32) :
    readEntries (n + 1) tokens seen data = .ok out ↔
      ∃ bs behind, data = entry tokens.size bs ++ behind ∧ bs.length < 2 ^ 32 ∧
        (tokens.size ≠ unknown → bs ∉ seen) ∧
        readEntries n (tokens.push bs) (if tokens.size = unknown then seen else seen.insert bs)
          behind = .ok out := by
  simp only [readEntries, bind_eq_ok, throw_bind, ite_throw_eq_ok, Prod.exists,
    readNumber_eq_ok_iff, readBytes_eq_ok_iff, ne_eq, Decidable.not_not]
  constructor
  · rintro ⟨_, _, ⟨-, rfl⟩, rfl, _, _, ⟨hlength, rfl⟩, bs, behind, ⟨rfl, rfl⟩, hrest⟩
    refine ⟨bs, behind, (entry_append _ _ _).symm, hlength, ?_⟩
    by_cases hid : tokens.size = unknown
    · simpa [hid] using hrest
    · simpa [hid, ite_throw_eq_ok] using hrest
  · rintro ⟨bs, behind, rfl, hlength, hnew, hrest⟩
    refine ⟨_, _, ⟨hsize, entry_append _ _ _⟩, rfl, _, _, ⟨hlength, rfl⟩, bs, behind,
      ⟨rfl, rfl⟩, ?_⟩
    by_cases hid : tokens.size = unknown
    · simpa [hid] using hrest
    · simpa [hid, ite_throw_eq_ok, hnew] using hrest

/-- Entries are read if they stand there, with the next ids, and the table stays one without
repetitions. -/
theorem readEntries_eq_ok_iff (hsize : tokens.size + n < 2 ^ 32) (h : Distinct tokens seen) :
    readEntries n tokens seen data = .ok (tokens', rest) ↔
      ∃ more : List Bytes, more.length = n ∧ tokens'.toList = tokens.toList ++ more ∧
        (tokens'.toList.drop 1).Nodup ∧ (∀ bs ∈ more, bs.length < 2 ^ 32) ∧
        data = (more.zipIdx tokens.size).flatMap (fun (bs, id) => entry id bs) ++ rest := by
  induction n generalizing tokens seen data with
  | zero =>
    constructor
    · rintro ⟨⟩
      exact ⟨[], rfl, (List.append_nil _).symm, h.nodup, by simp, rfl⟩
    · rintro ⟨more, hlength, htokens, -, -, rfl⟩
      obtain rfl := List.length_eq_zero_iff.1 hlength
      obtain rfl : tokens' = tokens := Array.toList_inj.1 (htokens.trans (List.append_nil _))
      rfl
  | succ n ih =>
    rw [readEntries_succ_eq_ok_iff (by omega)]
    constructor
    · rintro ⟨bs, behind, rfl, hlength, hnew, hrest⟩
      obtain ⟨more, rfl, htokens, hnodup, hlengths, rfl⟩ :=
        (ih (by rw [Array.size_push]; omega) (h.push hnew)).1 hrest
      refine ⟨bs :: more, rfl, ?_, hnodup, List.forall_mem_cons.2 ⟨hlength, hlengths⟩, ?_⟩
      · rw [htokens, toList_push_append]
      · rw [Array.size_push, List.zipIdx_cons, List.flatMap_cons, List.append_assoc]
    · rintro ⟨more, hlength, htokens, hnodup, hlengths, rfl⟩
      obtain ⟨bs, more, rfl⟩ := List.exists_cons_of_length_eq_add_one hlength
      obtain ⟨hbs, hlengths⟩ := List.forall_mem_cons.1 hlengths
      have hnew : tokens.size ≠ unknown → bs ∉ seen := by
        intro hfirst
        rw [htokens, drop_one_append hfirst, List.nodup_append] at hnodup
        rw [h.mem_seen]
        exact fun hmem => hnodup.2.2 bs hmem bs List.mem_cons_self rfl
      refine ⟨bs, (more.zipIdx (tokens.size + 1)).flatMap (fun (bs, id) => entry id bs) ++ rest,
        ?_, hbs, hnew, ?_⟩
      · rw [List.zipIdx_cons, List.flatMap_cons, List.append_assoc]
      · refine (ih (by rw [Array.size_push]; omega) (h.push hnew)).2
          ⟨more, ?_, ?_, hnodup, hlengths, ?_⟩
        · exact Nat.succ.inj hlength
        · rw [htokens, toList_push_append]
        · rw [Array.size_push]

end Entries

/-! ## Rules -/

section Rules

variable {tokens : Array Bytes} {rules rules' : Array Rule} {r : Rule}

/-- The rule makes two real tokens of the table into a third one. -/
structure Fits (tokens : Array Bytes) (r : Rule) : Prop where
  left_ne : r.pair.left ≠ unknown
  right_ne : r.pair.right ≠ unknown
  new_ne : r.new ≠ unknown
  concatenates : ∃ left right, tokens[r.pair.left]? = some left ∧
    tokens[r.pair.right]? = some right ∧ tokens[r.new]? = some (left ++ right)

theorem operand_eq_ok_iff {rank id : Nat} :
    operand tokens rank id = .ok bs ↔ tokens[id]? = some bs := by
  unfold operand
  cases tokens[id]? <;> simp

/-- A string of the right length that begins with the one and ends with the other is made of the
two. -/
theorem eq_append_iff {new left right : Bytes} : new = left ++ right ↔
    new.length = left.length + right.length ∧ left <+: new ∧ right <:+ new := by
  constructor
  · rintro rfl
    exact ⟨List.length_append, List.prefix_append _ _, List.suffix_append _ _⟩
  · rintro ⟨hlength, ⟨behind, rfl⟩, hright⟩
    rw [List.length_append, Nat.add_left_cancel_iff] at hlength
    have hbehind : right <:+ behind :=
      List.suffix_of_suffix_length_le hright (List.suffix_append _ _) (Nat.le_of_eq hlength.symm)
    rw [hbehind.eq_of_length hlength.symm]

theorem checkRule_eq_ok_iff {rank : Nat} {u : Unit} :
    checkRule tokens rank r = .ok u ↔ Fits tokens r := by
  simp only [checkRule, bind_eq_ok, throw_bind, ite_throw_eq_ok, operand_eq_ok_iff, pure_eq_ok,
    not_or, ne_eq, Decidable.not_not, and_true, List.isPrefixOf_iff_prefix,
    List.isSuffixOf_iff_suffix, ← eq_append_iff]
  constructor
  · rintro ⟨left, hleft, right, hright, new, hnew, ⟨hl, hr, hn⟩, rfl⟩
    exact ⟨hl, hr, hn, left, right, hleft, hright, hnew⟩
  · rintro ⟨hl, hr, hn, left, right, hleft, hright, hnew⟩
    exact ⟨left, hleft, right, hright, _, hnew, ⟨hl, hr, hn⟩, rfl⟩

theorem rule_append (r : Rule) (rest : Bytes) :
    rule r ++ rest = number r.pair.left ++ (number r.pair.right ++ (number r.new ++ rest)) := by
  rw [rule, List.append_assoc, List.append_assoc]

theorem lt_of_getElem? {id : Nat} (hsize : tokens.size < 2 ^ 32) (h : tokens[id]? = some bs) :
    id < 2 ^ 32 :=
  Nat.lt_trans (Array.getElem?_eq_some_iff.1 h).1 hsize

/-- One more rule is read if it stands there and fits the table. -/
theorem readRules_succ_eq_ok_iff {out : Array Rule × Bytes} (hsize : tokens.size < 2 ^ 32) :
    readRules tokens (n + 1) rules data = .ok out ↔
      ∃ r behind, data = rule r ++ behind ∧ Fits tokens r ∧
        readRules tokens n (rules.push r) behind = .ok out := by
  simp only [readRules, bind_eq_ok, Prod.exists, readNumber_eq_ok_iff, checkRule_eq_ok_iff]
  constructor
  · rintro ⟨left, _, ⟨-, rfl⟩, right, _, ⟨-, rfl⟩, new, behind, ⟨-, rfl⟩, -, hfits, hrest⟩
    exact ⟨⟨⟨left, right⟩, new⟩, behind, (rule_append ⟨⟨left, right⟩, new⟩ _).symm, hfits, hrest⟩
  · rintro ⟨r, behind, rfl, hfits, hrest⟩
    obtain ⟨left, right, hleft, hright, hnew⟩ := hfits.concatenates
    exact ⟨_, _, ⟨lt_of_getElem? hsize hleft, rule_append _ _⟩, _, _,
      ⟨lt_of_getElem? hsize hright, rfl⟩, _, _, ⟨lt_of_getElem? hsize hnew, rfl⟩, (), hfits, hrest⟩

/-- Rules are read if they stand there and all fit the table. -/
theorem readRules_eq_ok_iff (hsize : tokens.size < 2 ^ 32) :
    readRules tokens n rules data = .ok (rules', rest) ↔
      ∃ more : List Rule, more.length = n ∧ rules'.toList = rules.toList ++ more ∧
        (∀ r ∈ more, Fits tokens r) ∧ data = more.flatMap rule ++ rest := by
  induction n generalizing rules data with
  | zero =>
    constructor
    · rintro ⟨⟩
      exact ⟨[], rfl, (List.append_nil _).symm, by simp, rfl⟩
    · rintro ⟨more, hlength, hrules, -, rfl⟩
      obtain rfl := List.length_eq_zero_iff.1 hlength
      obtain rfl : rules' = rules := Array.toList_inj.1 (hrules.trans (List.append_nil _))
      rfl
  | succ n ih =>
    rw [readRules_succ_eq_ok_iff hsize]
    constructor
    · rintro ⟨r, behind, rfl, hfits, hrest⟩
      obtain ⟨more, rfl, hrules, hmore, rfl⟩ := ih.1 hrest
      refine ⟨r :: more, rfl, ?_, List.forall_mem_cons.2 ⟨hfits, hmore⟩, ?_⟩
      · rw [hrules, toList_push_append]
      · rw [List.flatMap_cons, List.append_assoc]
    · rintro ⟨more, hlength, hrules, hmore, rfl⟩
      obtain ⟨r, more, rfl⟩ := List.exists_cons_of_length_eq_add_one hlength
      obtain ⟨hfits, hmore⟩ := List.forall_mem_cons.1 hmore
      refine ⟨r, more.flatMap rule ++ rest, ?_, hfits, ih.2 ⟨more, ?_, ?_, hmore, rfl⟩⟩
      · rw [List.flatMap_cons, List.append_assoc]
      · exact Nat.succ.inj hlength
      · rw [hrules, toList_push_append]

end Rules

end Binary

namespace Vocabulary

variable {v : Vocabulary} {tokens : Array Bytes} {rules : Array Rule} {bs : Bytes} {id : TokenId}

/-! ## The inverse of a table -/

theorem nodup_drop_one_iff : (tokens.toList.drop 1).Nodup ↔
    ∀ i j bs, i ≠ unknown → j ≠ unknown → tokens[i]? = some bs → tokens[j]? = some bs → i = j := by
  have hdrop (i : Nat) : (tokens.toList.drop 1)[i]? = tokens[i + 1]? := by
    rw [List.getElem?_drop, Array.getElem?_toList, Nat.add_comm]
  constructor
  · intro h i j bs hi hj hbs hbs'
    obtain ⟨i, rfl⟩ := Nat.exists_eq_succ_of_ne_zero hi
    obtain ⟨j, rfl⟩ := Nat.exists_eq_succ_of_ne_zero hj
    rw [Nat.succ_eq_add_one, ← hdrop] at hbs hbs'
    have hlt := (List.getElem?_eq_some_iff.1 hbs).1
    rw [(List.getElem?_inj hlt h).1 (hbs.trans hbs'.symm)]
  · intro h
    refine List.pairwise_iff_getElem.2 fun i j hi hj hij heq => ?_
    have hbs := List.getElem?_eq_getElem hi
    have hbs' := List.getElem?_eq_getElem hj
    rw [hdrop] at hbs hbs'
    have hsame := h _ _ _ (Nat.succ_ne_zero i) (Nat.succ_ne_zero j) hbs (heq ▸ hbs')
    exact absurd (Nat.succ.inj hsame) (Nat.ne_of_lt hij)

/-- With different keys, a map says just what was put into it. -/
theorem getElem?_foldl_insert {α β : Type} [Ord α] [Std.TransOrd α] [Std.LawfulEqOrd α]
    {l : List (α × β)} (h : l.Pairwise fun x y => x.1 ≠ y.1) (m : Std.ExtTreeMap α β) {a : α}
    {b : β} : (l.foldl (fun m (a, b) => m.insert a b) m)[a]? = some b ↔
      (a, b) ∈ l ∨ (∀ x ∈ l, x.1 ≠ a) ∧ m[a]? = some b := by
  induction l generalizing m with
  | nil => simp
  | cons x l ih =>
    obtain ⟨a', b'⟩ := x
    obtain ⟨hx, hl⟩ := List.pairwise_cons.1 h
    rw [List.foldl_cons, ih hl, Std.ExtTreeMap.getElem?_insert]
    simp only [List.mem_cons, Prod.mk.injEq]
    by_cases ha : a' = a
    · subst ha
      have hnot : (a', b) ∉ l := fun hmem => hx _ hmem rfl
      have hrest : ∀ x ∈ l, x.1 ≠ a' := fun x hmem => (hx x hmem).symm
      rw [if_pos Std.ReflCmp.compare_self, and_iff_right hrest, or_iff_right hnot]
      simp [hnot, eq_comm]
    · simp [ha, Ne.symm ha]

theorem mem_zipIdx_drop_one : (bs, id) ∈ tokens.toList.zipIdx.drop 1 ↔
    id ≠ unknown ∧ tokens[id]? = some bs := by
  rw [← Array.getElem?_toList]
  cases tokens.toList with
  | nil => simp
  | cons first l =>
    rw [List.zipIdx_cons, List.drop_one, List.tail_cons, List.mk_mem_zipIdx_iff_le_and_getElem?_sub]
    cases id with
    | zero => simp [unknown]
    | succ id => simp [unknown]

theorem id?_ofTable (h : (tokens.toList.drop 1).Nodup) :
    (ofTable tokens rules).id? bs = some id ↔ id ≠ unknown ∧ tokens[id]? = some bs := by
  have hkeys : ((tokens.toList.zipIdx.drop 1).map Prod.fst).Nodup := by
    rwa [List.map_drop, List.zipIdx_map_fst]
  refine (getElem?_foldl_insert (List.pairwise_map.1 hkeys) ∅).trans ?_
  rw [mem_zipIdx_drop_one]
  simp

theorem consistent_ofTable (hsize : 0 < tokens.size) (h : (tokens.toList.drop 1).Nodup) :
    (ofTable tokens rules).Consistent :=
  ⟨hsize, fun _ _ => id?_ofTable h⟩

theorem Consistent.nodup (h : v.Consistent) : (v.tokens.toList.drop 1).Nodup := by
  rw [nodup_drop_one_iff]
  intro i j bs hi hj hbs hbs'
  have hi := (h.id?_eq_some_iff bs i).2 ⟨hi, hbs⟩
  have hj := (h.id?_eq_some_iff bs j).2 ⟨hj, hbs'⟩
  rw [hi] at hj
  exact Option.some.inj hj

/-- The table of a consistent vocabulary determines the inverse. -/
theorem Consistent.eq_ofTable (h : v.Consistent) : ofTable v.tokens v.rules = v := by
  have hids : (ofTable v.tokens v.rules).ids = v.ids := by
    refine Std.ExtTreeMap.ext_getElem? fun bs => Option.ext fun id => ?_
    exact (id?_ofTable h.nodup).trans (h.id?_eq_some_iff bs id).symm
  obtain ⟨tokens, ids, rules⟩ := v
  exact congrArg (fun ids => (⟨tokens, ids, rules⟩ : Vocabulary)) hids

/-! ## Accepted bytes -/

/-- What the form can say: a table with a first entry and without repetitions behind it, its
inverse, rules that make two real tokens into a third one, and numbers of four bytes. -/
structure WellFormed (v : Vocabulary) : Prop extends Consistent v where
  distinct (i j : TokenId) (bs : Bytes) : i ≠ unknown → j ≠ unknown →
    v.bytes? i = some bs → v.bytes? j = some bs → i = j
  fits : ∀ r ∈ v.rules, Binary.Fits v.tokens r
  size_lt : v.size < 2 ^ 32
  rules_lt : v.rules.size < 2 ^ 32
  length_lt : ∀ bs ∈ v.tokens, bs.length < 2 ^ 32

open Binary in
/-- Bytes are accepted if they are the form of what they are read as. -/
theorem ofBytes_eq_ok_iff (data : Bytes) (v : Vocabulary) :
    ofBytes data = .ok v ↔ v.toBytes = data ∧ v.WellFormed := by
  simp only [ofBytes, bind_eq_ok, throw_bind, ite_throw_eq_ok, pure_eq_ok, Prod.exists,
    readNumber_eq_ok_iff, ne_eq, Decidable.not_not, List.length_eq_zero_iff]
  constructor
  · rintro ⟨entries, _, ⟨hentries, rfl⟩, hpos, tokens, _, htokens, count, _, ⟨hcount, rfl⟩,
      rules, _, hrules, rfl, rfl⟩
    obtain ⟨more, rfl, hmore, hnodup, hlengths, rfl⟩ :=
      (readEntries_eq_ok_iff (by simpa using hentries) distinct_empty).1 htokens
    obtain rfl : tokens.toList = more := hmore
    obtain ⟨more, rfl, hmore, hfits, rfl⟩ := (readRules_eq_ok_iff hentries).1 hrules
    obtain rfl : rules.toList = more := hmore
    refine ⟨?_, consistent_ofTable (Nat.pos_of_ne_zero hpos) hnodup, nodup_drop_one_iff.1 hnodup,
      fun r hr => hfits r (Array.mem_toList_iff.2 hr), hentries, hcount,
      fun bs hbs => hlengths bs (Array.mem_toList_iff.2 hbs)⟩
    simp only [toBytes, List.append_assoc, List.append_nil]
    rfl
  · rintro ⟨rfl, h⟩
    refine ⟨v.size, _, ⟨h.size_lt, ?_⟩, Nat.ne_of_gt h.size_pos, v.tokens, _,
      (readEntries_eq_ok_iff (by simpa using h.size_lt) distinct_empty).2
        ⟨v.tokens.toList, rfl, rfl, h.nodup, fun bs hbs => ?_, rfl⟩,
      v.rules.size, _, ⟨h.rules_lt, rfl⟩, v.rules, [],
      (readRules_eq_ok_iff h.size_lt).2 ⟨v.rules.toList, rfl, rfl, fun r hr => ?_, rfl⟩, rfl,
      h.eq_ofTable⟩
    · simp only [toBytes, List.append_assoc, List.append_nil]
      rfl
    · exact h.length_lt bs (Array.mem_toList_iff.1 hbs)
    · exact h.fits r (Array.mem_toList_iff.1 hr)

/-- **The binary form is exact.** A byte string is read as a vocabulary if it is the form of that
vocabulary, and the vocabulary is well-formed; where there is none, the byte string is refused. -/
theorem ofBytes_exact (data : Bytes) :
    (∀ v, ofBytes data = .ok v ↔ v.toBytes = data ∧ v.WellFormed) ∧
      ((∃ reason, ofBytes data = .error reason) ↔
        ¬∃ v : Vocabulary, v.toBytes = data ∧ v.WellFormed) := by
  refine ⟨ofBytes_eq_ok_iff data, ?_⟩
  simp only [← ofBytes_eq_ok_iff]
  cases ofBytes data <;> simp

end Vocabulary

end BytePair
