import BytePair.Proofs.BinaryForm
import BytePair.Proofs.Replay

/-!
# Tokens and the text they stand for

A rule replaces two tokens by one that has the bytes of both. So the tokens of a text spell it after
every rule, and where two of them meet, the text could have been cut before it was encoded.

* `Vocabulary.RulesFit`: every rule joins two real tokens; `Corpus.Reachable.rulesFit`: so do the
  rules of every reachable corpus.
* `Vocabulary.RulesFit.decode_encode`: decoding the tokens of a text gives the bytes of the text
  that have a token.
* `Vocabulary.exists_append_of_encode_eq`: the tokens of a text, cut in two, are the tokens of the
  two pieces of the text.
* `Vocabulary.RulesFit.count_unknown_encode`: an encoding has one unknown token for every byte
  without a token; `Vocabulary.RulesFit.encode_pairBytes`: two real tokens that meet in an encoding
  are the encoding of their bytes.
-/

namespace BytePair

open Binary (Fits)
open Sequence (replace)

/-! ## Rules that join real tokens -/

namespace Vocabulary

variable {v w : Vocabulary} {p : Pair} {r : Rule} {id : TokenId} {bs : Bytes}

/-- Every rule joins two real tokens of the table into a third one. -/
def RulesFit (v : Vocabulary) : Prop := ∀ r ∈ v.rules, Fits v.tokens r

theorem Grows.fits (h : v.Grows w) (hr : Fits v.tokens r) : Fits w.tokens r := by
  obtain ⟨left, right, hleft, hright, hnew⟩ := hr.concatenates
  exact ⟨hr.left_ne, hr.right_ne, hr.new_ne, left, right, h.bytes? hleft, h.bytes? hright,
    h.bytes? hnew⟩

/-- More tokens do no harm to the rules. -/
theorem RulesFit.of_grows (h : v.RulesFit) (hgrows : v.Grows w) (hrules : w.rules = v.rules) :
    w.RulesFit :=
  fun r hr => hgrows.fits (h r (hrules ▸ hr))

/-- The merge of two real tokens fits, and so do the rules before it. -/
theorem RulesFit.addRule (h : v.RulesFit) (hv : v.Consistent) {left right : Bytes}
    (hleft : v.bytes? p.left = some left) (hright : v.bytes? p.right = some right)
    (hleft_ne : p.left ≠ unknown) (hright_ne : p.right ≠ unknown) : (v.addRule p).1.RulesFit := by
  have hgrows := v.grows_addRule p
  intro r hr
  rw [rules_addRule] at hr
  rcases Array.mem_push.1 hr with hr | rfl
  · exact hgrows.fits (h r hr)
  · have hbytes : v.pairBytes p = left ++ right := by simp [pairBytes, hleft, hright]
    exact ⟨hleft_ne, hright_ne, hv.insert_snd_ne _, left, right, hgrows.bytes? hleft,
      hgrows.bytes? hright, hbytes ▸ hv.bytes?_insert_snd (v.pairBytes p)⟩

end Vocabulary

namespace Corpus

variable {c : Corpus} {p : Pair}

theorem Sound.ne_unknown_of_mem (h : c.Sound) (hp : p ∈ Naive.allPairs c.sequences) :
    p.left ≠ unknown ∧ p.right ≠ unknown := by
  obtain ⟨s, hs, hp⟩ := List.mem_flatMap.1 hp
  obtain ⟨hl, hr⟩ := mem_of_mem_adjacentPairs hp
  have hs := Array.mem_toList_iff.1 hs
  exact ⟨(h.spelled s hs _ hl).1, (h.spelled s hs _ hr).1⟩

theorem Sound.rulesFit_merged (h : c.Sound) (hp : p ∈ Naive.allPairs c.sequences)
    (hfit : c.vocabulary.RulesFit) : (c.merged p).vocabulary.RulesFit := by
  obtain ⟨⟨l, hl, -⟩, r, hr, -⟩ := h.bytes?_of_mem hp
  obtain ⟨hl0, hr0⟩ := h.ne_unknown_of_mem hp
  exact hfit.addRule h.consistent hl hr hl0 hr0

theorem rulesFit_ingest (hfit : c.vocabulary.RulesFit) (d : Bytes) :
    (c.ingest d).vocabulary.RulesFit :=
  hfit.of_grows (c.vocabulary.grows_atomize d) (Vocabulary.rules_atomize _ d)

/-- Training makes rules of tokens that stand in documents, and those are real ones. -/
theorem Reachable.rulesFit (h : c.Reachable) : c.vocabulary.RulesFit := by
  refine h.keeps (motive := fun c => c.vocabulary.RulesFit) ?_ ?_ ?_
  · intro r hr
    exact absurd hr (Array.not_mem_empty r)
  · intro c d _ hfit
    exact rulesFit_ingest hfit d
  · intro c p hc hp hfit
    exact hc.rulesFit_merged hp hfit

end Corpus

/-! ## The bytes of a list of tokens -/

namespace Vocabulary

variable {v : Vocabulary} {r : Rule} {id : TokenId} {bs text : Bytes}

theorem decode_append (v : Vocabulary) (s t : Sequence) :
    v.decode (s ++ t) = v.decode s ++ v.decode t :=
  List.flatMap_append

theorem decode_cons (v : Vocabulary) (id : TokenId) (s : Sequence) :
    v.decode (id :: s) = v.decode [id] ++ v.decode s :=
  v.decode_append [id] s

theorem decode_singleton (hne : id ≠ unknown) (hbs : v.bytes? id = some bs) :
    v.decode [id] = bs := by
  simp [decode, hne, hbs]

/-- A pair of real tokens spells what its merge will. -/
theorem decode_pair {p : Pair} (hleft : p.left ≠ unknown) (hright : p.right ≠ unknown) :
    v.decode [p.left, p.right] = v.pairBytes p := by
  simp [decode, pairBytes, hleft, hright]

/-- A rule that fits does not change what the tokens spell. -/
theorem decode_replace (h : Fits v.tokens r) (s : Sequence) :
    v.decode (replace r.pair r.new s) = v.decode s := by
  obtain ⟨left, right, hleft, hright, hnew⟩ := h.concatenates
  have hpair : v.decode [r.new] = v.decode [r.pair.left, r.pair.right] := by
    rw [decode_singleton h.new_ne hnew, decode_pair h.left_ne h.right_ne]
    simp only [pairBytes, bytes?, hleft, hright, Option.getD_some]
  fun_induction replace r.pair r.new s with
  | case1 x y rest hxy ih =>
    obtain ⟨rfl, rfl⟩ := hxy
    calc v.decode (r.new :: replace r.pair r.new rest)
      _ = v.decode [r.new] ++ v.decode (replace r.pair r.new rest) := decode_cons _ _ _
      _ = v.decode [r.pair.left, r.pair.right] ++ v.decode rest := by rw [hpair, ih]
      _ = v.decode (r.pair.left :: r.pair.right :: rest) := (decode_append _ _ _).symm
  | case2 x y rest _ ih =>
    rw [decode_cons v x (replace r.pair r.new (y :: rest)), ih, ← decode_cons]
  | case3 => rfl

theorem decode_replaceAll {rules : List Rule} (h : ∀ r ∈ rules, Fits v.tokens r) (s : Sequence) :
    v.decode (replaceAll rules s) = v.decode s :=
  replaceAll_keeps (motive := fun t => v.decode t = v.decode s) rfl
    fun r hr t ht => (decode_replace (h r hr) t).trans ht

/-- What every rule that fits keeps, encoding keeps. -/
theorem RulesFit.encode_keeps {motive : Sequence → Prop} (hfit : v.RulesFit)
    (start : motive (v.atoms text))
    (keeps : ∀ r s, Fits v.tokens r → motive s → motive (replace r.pair r.new s)) :
    motive (v.encode text) := by
  rw [encode_eq]
  exact replaceAll_keeps start fun r hr s => keeps r s (hfit r (Array.mem_toList_iff.1 hr))

/-- The atoms of a text spell its bytes, those without a token left out. -/
theorem Consistent.decode_atoms (h : v.Consistent) (text : Bytes) :
    v.decode (v.atoms text) = text.filter fun b => (v.atom? b).isSome := by
  induction text with
  | nil => rfl
  | cons b text ih =>
    show v.decode ((v.atom? b).getD unknown :: v.atoms text) = _
    rw [decode_cons, ih, List.filter_cons]
    cases hb : v.atom? b with
    | none => rfl
    | some id =>
      obtain ⟨hne, hbs⟩ := (h.id?_eq_some_iff [b] id).1 hb
      simp [decode_singleton hne hbs]

/-- Decoding the tokens of a text gives its bytes, those without a token left out. -/
theorem RulesFit.decode_encode (hfit : v.RulesFit) (h : v.Consistent) (text : Bytes) :
    v.decode (v.encode text) = text.filter fun b => (v.atom? b).isSome := by
  rw [← h.decode_atoms]
  exact hfit.encode_keeps (motive := fun s => v.decode s = v.decode (v.atoms text)) rfl
    fun r s hr hs => (decode_replace hr s).trans hs

theorem Knows.decode_encode (hknows : v.Knows text) (hfit : v.RulesFit) (h : v.Consistent) :
    v.decode (v.encode text) = text := by
  rw [hfit.decode_encode h, List.filter_eq_self]
  intro b hb
  obtain ⟨id, hid⟩ := hknows b hb
  rw [hid, Option.isSome_some]

end Vocabulary

/-! ## Stretches of a text -/

/-- A replacement, cut in two, is the replacements of two pieces. -/
theorem Sequence.exists_append_of_replace_eq {p : Pair} {new : TokenId} {s us vs : Sequence}
    (h : replace p new s = us ++ vs) :
    ∃ xs ys, s = xs ++ ys ∧ replace p new xs = us ∧ replace p new ys = vs := by
  fun_induction replace p new s generalizing us with
  | case1 x y rest hxy ih =>
    cases us with
    | nil => exact ⟨[], x :: y :: rest, rfl, rfl, by rw [replace, if_pos hxy]; exact h⟩
    | cons u us =>
      simp only [List.cons_append, List.cons.injEq] at h
      obtain ⟨rfl, h⟩ := h
      obtain ⟨xs, ys, rfl, rfl, rfl⟩ := ih h
      exact ⟨x :: y :: xs, ys, rfl, by rw [replace, if_pos hxy], rfl⟩
  | case2 x y rest hxy ih =>
    cases us with
    | nil => exact ⟨[], x :: y :: rest, rfl, rfl, by rw [replace, if_neg hxy]; exact h⟩
    | cons u us =>
      simp only [List.cons_append, List.cons.injEq] at h
      obtain ⟨rfl, h⟩ := h
      obtain ⟨xs, ys, hrest, rfl, rfl⟩ := ih h
      refine ⟨x :: xs, ys, by rw [hrest, List.cons_append], replace_cons_of_not ?_, rfl⟩
      -- the first token of `xs`, if there is one, is the one after `x`
      rintro ⟨hx, hhead⟩
      obtain ⟨zs, rfl⟩ := List.head?_eq_some_iff.1 hhead
      exact hxy ⟨hx, (List.cons.inj hrest).1⟩
  | case3 s hs =>
    subst h
    have hshort : (us ++ vs).length < 2 := by
      rcases hcut : us ++ vs with _ | ⟨x, _ | ⟨y, rest⟩⟩
      · simp
      · simp
      · exact (hs x y rest hcut).elim
    rw [List.length_append] at hshort
    exact ⟨us, vs, rfl, replace_of_length_lt (by omega), replace_of_length_lt (by omega)⟩

namespace Vocabulary

variable {v : Vocabulary} {text : Bytes} {us vs ws : Sequence}

theorem exists_append_of_replaceAll_eq {rules : List Rule} {s : Sequence}
    (h : replaceAll rules s = us ++ vs) :
    ∃ xs ys, s = xs ++ ys ∧ replaceAll rules xs = us ∧ replaceAll rules ys = vs := by
  induction rules generalizing s with
  | nil => exact ⟨us, vs, h, rfl, rfl⟩
  | cons r rules ih =>
    obtain ⟨xs, ys, hs, rfl, rfl⟩ := ih h
    obtain ⟨xs, ys, rfl, rfl, rfl⟩ := Sequence.exists_append_of_replace_eq hs
    exact ⟨xs, ys, rfl, rfl, rfl⟩

/-- The tokens of a text, cut in two, are the tokens of two pieces of the text. -/
theorem exists_append_of_encode_eq (h : v.encode text = us ++ vs) :
    ∃ x y, text = x ++ y ∧ v.encode x = us ∧ v.encode y = vs := by
  simp only [encode_eq] at h ⊢
  obtain ⟨xs, ys, hatoms, rfl, rfl⟩ := exists_append_of_replaceAll_eq h
  obtain ⟨x, y, rfl, rfl, rfl⟩ := List.map_eq_append_iff.1 hatoms
  exact ⟨x, y, rfl, rfl, rfl⟩

/-- Any stretch of the tokens of a text is the tokens of a stretch of the text. -/
theorem exists_stretch_of_encode_eq (h : v.encode text = us ++ ws ++ vs) : ∃ x y z,
    text = x ++ y ++ z ∧ v.encode x = us ∧ v.encode y = ws ∧ v.encode z = vs := by
  obtain ⟨xy, z, rfl, hxy, hz⟩ := exists_append_of_encode_eq h
  obtain ⟨x, y, rfl, hx, hy⟩ := exists_append_of_encode_eq hxy
  exact ⟨x, y, z, rfl, hx, hy, hz⟩

end Vocabulary

/-- A pair of a list stands somewhere in it. -/
theorem exists_append_of_mem_adjacentPairs {s : List TokenId} {p : Pair}
    (h : p ∈ adjacentPairs s) : ∃ us vs, s = us ++ [p.left, p.right] ++ vs := by
  induction s with
  | nil => exact absurd h List.not_mem_nil
  | cons x s ih =>
    rcases mem_adjacentPairs_cons.1 h with ⟨rfl, hright⟩ | h
    · obtain ⟨vs, rfl⟩ := List.head?_eq_some_iff.1 hright
      exact ⟨[], vs, rfl⟩
    · obtain ⟨us, vs, rfl⟩ := ih h
      exact ⟨x :: us, vs, rfl⟩

/-! ## Unknown bytes -/

/-- A token that is neither replaced nor brought in stays as often as it was. -/
theorem Sequence.count_replace_of_ne {p : Pair} {new x : TokenId} (hleft : p.left ≠ x)
    (hright : p.right ≠ x) (hnew : new ≠ x) (s : Sequence) :
    (replace p new s).count x = s.count x := by
  fun_induction replace p new s with
  | case1 a b rest hpair ih =>
    obtain ⟨rfl, rfl⟩ := hpair
    rw [List.count_cons_of_ne hnew, List.count_cons_of_ne hleft, List.count_cons_of_ne hright, ih]
  | case2 a b rest _ ih => rw [List.count_cons, ih, ← List.count_cons]
  | case3 => rfl

namespace Vocabulary

variable {v : Vocabulary} {text : Bytes} {p : Pair} {us vs ws : Sequence}

theorem Consistent.count_unknown_atoms (h : v.Consistent) (text : Bytes) :
    (v.atoms text).count unknown = text.countP fun b => (v.atom? b).isNone := by
  rw [atoms, List.count, List.countP_map]
  refine List.countP_congr fun b _ => ?_
  cases hb : v.atom? b with
  | none => simp [hb]
  | some id =>
    have hne : id ≠ unknown := ((h.id?_eq_some_iff [b] id).1 hb).1
    simp [hb, hne]

/-- The unknown token stands in an encoding once for every byte without a token. -/
theorem RulesFit.count_unknown_encode (hfit : v.RulesFit) (h : v.Consistent) (text : Bytes) :
    (v.encode text).count unknown = text.countP fun b => (v.atom? b).isNone := by
  rw [← h.count_unknown_atoms]
  refine hfit.encode_keeps
    (motive := fun s => s.count unknown = (v.atoms text).count unknown) rfl fun r s hr hs => ?_
  rw [Sequence.count_replace_of_ne hr.left_ne hr.right_ne hr.new_ne, hs]

/-- Bytes are known if there is no unknown token in their encoding. -/
theorem RulesFit.knows_of_encode (hfit : v.RulesFit) (h : v.Consistent)
    (hencode : unknown ∉ v.encode text) : v.Knows text := by
  intro b hb
  have hcount := hfit.count_unknown_encode h text
  rw [List.count_eq_zero.2 hencode, eq_comm, List.countP_eq_zero] at hcount
  exact Option.ne_none_iff_exists'.1 (by simpa using hcount b hb)

/-- A stretch of real tokens in an encoding stands for a stretch of the text, which decoding gives
back, -/
theorem RulesFit.exists_append_decode (hfit : v.RulesFit) (h : v.Consistent)
    (hencode : v.encode text = us ++ ws ++ vs) (hreal : unknown ∉ ws) : ∃ x z,
      text = x ++ v.decode ws ++ z ∧ v.encode x = us ∧ v.encode z = vs ∧
        v.Knows (v.decode ws) ∧ v.encode (v.decode ws) = ws := by
  obtain ⟨x, y, z, htext, hx, hy, hz⟩ := exists_stretch_of_encode_eq hencode
  have hknows : v.Knows y := hfit.knows_of_encode h (hy ▸ hreal)
  have hbytes : v.decode ws = y := by rw [← hy, hknows.decode_encode hfit h]
  rw [hbytes]
  exact ⟨x, z, htext, hx, hz, hknows, hy⟩

/-- and so do two real tokens that meet, -/
theorem RulesFit.exists_append_pairBytes (hfit : v.RulesFit) (h : v.Consistent)
    (hleft : p.left ≠ unknown) (hright : p.right ≠ unknown)
    (hp : p ∈ adjacentPairs (v.encode text)) : ∃ x z, text = x ++ v.pairBytes p ++ z ∧
      v.Knows (v.pairBytes p) ∧ v.encode (v.pairBytes p) = [p.left, p.right] := by
  obtain ⟨us, vs, hstretch⟩ := exists_append_of_mem_adjacentPairs hp
  obtain ⟨x, z, htext, -, -, hpair⟩ :=
    hfit.exists_append_decode h hstretch (by simp [hleft.symm, hright.symm])
  rw [decode_pair hleft hright] at htext hpair
  exact ⟨x, z, htext, hpair⟩

/-- of which they are the encoding. -/
theorem RulesFit.encode_pairBytes (hfit : v.RulesFit) (h : v.Consistent) (hleft : p.left ≠ unknown)
    (hright : p.right ≠ unknown) (hp : p ∈ adjacentPairs (v.encode text)) :
    v.Knows (v.pairBytes p) ∧ v.encode (v.pairBytes p) = [p.left, p.right] := by
  obtain ⟨-, -, -, hpair⟩ := hfit.exists_append_pairBytes h hleft hright hp
  exact hpair

end Vocabulary

end BytePair
