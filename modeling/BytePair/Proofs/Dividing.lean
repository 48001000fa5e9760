import BytePair.Proofs.Decoding

/-!
# Where an encoding is divided

No rule names the unknown token, so a byte without a token is a barrier: what is before it and what
is behind it are encoded as if they stood alone.

* `Sequence.replace_append_cons`: a token that a pair does not have divides the replacement;
  `Vocabulary.replaceAll_append_cons`: and that of all rules, if none of them has it.
* `Vocabulary.RulesFit.encode_append_cons`: a byte without a token divides an encoding;
  `Vocabulary.RulesFit.encode_eq_intercalate`: all of them divide it into the encodings of the
  stretches between them.
* `Vocabulary.Genuine.unknown_bytes_divide`: this holds of every vocabulary that was read or
  trained.
-/

namespace BytePair

open Sequence (replace)

/-- A token that the pair does not have divides the replacement. -/
theorem Sequence.replace_append_cons {p : Pair} {new x : TokenId} (hleft : p.left ≠ x)
    (hright : p.right ≠ x) (s t : Sequence) :
    replace p new (s ++ x :: t) = replace p new s ++ x :: replace p new t := by
  have hbehind : replace p new (x :: t) = x :: replace p new t :=
    replace_cons_of_not fun h => hleft h.1.symm
  fun_induction replace p new s with
  | case1 a b rest hab ih =>
    obtain ⟨rfl, rfl⟩ := hab
    rw [List.cons_append, List.cons_append, replace_pair, ih, List.cons_append]
  | case2 a b rest hab ih =>
    rw [List.cons_append, replace_cons_of_not (by simpa using hab), ih, List.cons_append]
  | case3 s hs =>
    rcases s with _ | ⟨a, _ | ⟨b, rest⟩⟩
    · exact hbehind
    · -- the pair cannot reach over the end of `s`
      have hend : ¬(a = p.left ∧ (x :: t).head? = some p.right) :=
        fun h => hright (Option.some.inj h.2).symm
      rw [List.singleton_append, replace_cons_of_not hend, hbehind, List.singleton_append]
    · exact (hs a b rest rfl).elim

namespace Vocabulary

variable {v : Vocabulary} {b : UInt8}

/-- A token that no rule has divides the replacement of all of them. -/
theorem replaceAll_append_cons {rules : List Rule} {x : TokenId}
    (h : ∀ r ∈ rules, r.pair.left ≠ x ∧ r.pair.right ≠ x) (s t : Sequence) :
    replaceAll rules (s ++ x :: t) = replaceAll rules s ++ x :: replaceAll rules t := by
  induction rules generalizing s t with
  | nil => rfl
  | cons r rules ih =>
    obtain ⟨⟨hleft, hright⟩, hrules⟩ := List.forall_mem_cons.1 h
    have hcons (s : Sequence) :
        replaceAll (r :: rules) s = replaceAll rules (replace r.pair r.new s) := rfl
    rw [hcons, hcons, hcons, Sequence.replace_append_cons hleft hright, ih hrules]

/-- A byte without a token divides the encoding. -/
theorem RulesFit.encode_append_cons (hfit : v.RulesFit) (hb : v.atom? b = none) (x y : Bytes) :
    v.encode (x ++ b :: y) = v.encode x ++ unknown :: v.encode y := by
  have hatoms : v.atoms (x ++ b :: y) = v.atoms x ++ unknown :: v.atoms y := by
    simp [atoms, hb]
  rw [encode_eq, hatoms, replaceAll_append_cons, encode_eq, encode_eq]
  intro r hr
  have hr := hfit r (Array.mem_toList_iff.1 hr)
  exact ⟨hr.left_ne, hr.right_ne⟩

/-- The stretches of a text between the bytes without a token. -/
def stretches (v : Vocabulary) (text : Bytes) : List Bytes :=
  text.splitOnP fun b => (v.atom? b).isNone

/-- The unknown bytes of a text divide its encoding into those of the stretches between them. -/
theorem RulesFit.encode_eq_intercalate (hfit : v.RulesFit) (text : Bytes) :
    v.encode text = [unknown].intercalate ((v.stretches text).map v.encode) := by
  cases hfind : text.find? fun b => (v.atom? b).isNone with
  | none =>
    have hknown := List.find?_eq_none.1 hfind
    have hone : v.stretches text = [text] :=
      List.splitOnP_eq_singleton fun b hb => Bool.eq_false_iff.2 (hknown b hb)
    rw [hone, List.map_singleton, List.intercalate_singleton]
  | some b =>
    -- the first unknown byte ends the first stretch
    obtain ⟨hb, x, y, htext, hx⟩ := List.find?_eq_some_iff_append.1 hfind
    have hlt : y.length < text.length := by simp [htext]; omega
    have hcut : v.stretches text = x :: v.stretches y := by
      rw [htext]
      exact List.splitOnP_append_cons_of_forall_mem (by simpa using hx) b hb y
    have hmore : (v.stretches y).map v.encode ≠ [] := by simp [stretches, List.splitOnP_ne_nil]
    rw [hcut, List.map_cons, List.intercalate_cons_of_ne_nil hmore, ← encode_eq_intercalate hfit y,
      htext, hfit.encode_append_cons (Option.isNone_iff_eq_none.1 hb), List.append_assoc,
      List.singleton_append]
termination_by text.length

/-- **Unknown bytes are barriers.** With a vocabulary that was read from its binary form or that
came out of documents and training, a byte without a token is encoded as the unknown token, and the
bytes on both sides as if they stood alone. So the encoding of any text consists of those of its
stretches of known bytes, with an unknown token wherever two of them meet. -/
theorem Genuine.unknown_bytes_divide (h : v.Genuine) :
    (∀ b, v.atom? b = none → ∀ x y : Bytes,
      v.encode (x ++ [b] ++ y) = v.encode x ++ [unknown] ++ v.encode y) ∧
      ∀ text, v.encode text = [unknown].intercalate ((v.stretches text).map v.encode) := by
  refine ⟨fun b hb x y => ?_, h.rulesFit.encode_eq_intercalate⟩
  rw [List.append_assoc, List.append_assoc]
  exact h.rulesFit.encode_append_cons hb x y

/-- A file whose rules reach three texts to a different depth: one becomes short after the first
rule, one after the second, and the whole never does. -/
theorem unknown_bytes_divide_at_stop :
    let v := ofTable #[[], [97], [98], [97, 98], [97, 98, 97, 98], [98, 98]]
      #[⟨⟨1, 2⟩, 3⟩, ⟨⟨3, 3⟩, 4⟩, ⟨⟨2, 2⟩, 5⟩]
    v.Genuine ∧ v.atom? 99 = none ∧ v.encode [97, 98] = [3] ∧ v.encode [97, 98, 97, 98] = [4] ∧
      v.encode ([97, 98] ++ [99] ++ [97, 98, 97, 98]) = [3] ++ [unknown] ++ [4] ∧
      v.encode [98, 98, 99, 99, 97, 98] = [5, 0, 0, 3] := by
  intro v
  have hread : ofBytes v.toBytes = .ok v := by cbv
  have hv : v.Genuine := .read hread
  have hnone : v.atom? 99 = none := by decide +kernel
  have hshort : v.encode [97, 98] = [3] := by decide +kernel
  have hlong : v.encode [97, 98, 97, 98] = [4] := by decide +kernel
  obtain ⟨hdivide, hall⟩ := hv.unknown_bytes_divide
  refine ⟨hv, hnone, hshort, hlong, ?_, ?_⟩
  · rw [hdivide 99 hnone, hshort, hlong]
  · rw [hall]
    decide +kernel

end Vocabulary

end BytePair
