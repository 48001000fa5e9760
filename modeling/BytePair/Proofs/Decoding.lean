import BytePair.Proofs.Reloading

/-!
# Decoding what was encoded

The rules may be recorded in any order and may name tokens that come later in the table, as a file
can have it. It is enough that each of them joins two real tokens.

* `Vocabulary.RulesFit.lt_size_of_mem_encode`: an encoding consists of tokens of the table.
* `Vocabulary.Genuine.decode_undoes_encode`: decoding it gives the text, but for the bytes that have
  no token; there is an unknown token for each of those.
* `Vocabulary.Genuine.stretch_encodes_again`: any real tokens that stand together in an encoding are
  what their own bytes are encoded as.
-/

namespace BytePair.Vocabulary

variable {v : Vocabulary} {id : TokenId} {text : Bytes} {us vs ws : Sequence}

/-! ## Tokens of the table -/

theorem Consistent.lt_size_of_mem_atoms (h : v.Consistent) (hid : id ∈ v.atoms text) :
    id < v.size := by
  obtain ⟨b, -, rfl⟩ := List.mem_map.1 hid
  cases hb : v.atom? b with
  | none => exact h.size_pos
  | some id => exact lt_size_of_bytes? ((h.id?_eq_some_iff [b] id).1 hb).2

/-- A rule that fits brings in no token but one of the table. -/
theorem RulesFit.lt_size_of_mem_encode (hfit : v.RulesFit) (h : v.Consistent)
    (hid : id ∈ v.encode text) : id < v.size := by
  refine hfit.encode_keeps (motive := fun s => ∀ id ∈ s, id < v.size)
    (fun _ => h.lt_size_of_mem_atoms) (fun r s hr hs id hid => ?_) id hid
  rcases Sequence.eq_or_mem_of_mem_replace hid with rfl | hid
  · obtain ⟨left, right, -, -, hnew⟩ := hr.concatenates
    exact lt_size_of_bytes? hnew
  · exact hs id hid

/-! ## The text of an encoding -/

/-- Decoding gives back just the texts whose bytes all have a token. -/
theorem RulesFit.decode_encode_eq_iff (hfit : v.RulesFit) (h : v.Consistent) :
    v.decode (v.encode text) = text ↔ v.Knows text := by
  rw [hfit.decode_encode h, List.filter_eq_self]
  simp only [Knows, Option.isSome_iff_exists]

/-- **Decoding undoes encoding.** With a vocabulary that was read from its binary form or that came
out of documents and training, the encoding of any text consists of tokens of the table, the unknown
one for every byte without a token; decoding leaves these bytes out and gives all the others, so it
gives the text if all of its bytes have a token, and only then. -/
theorem Genuine.decode_undoes_encode (h : v.Genuine) (text : Bytes) :
    (∀ id ∈ v.encode text, id < v.size) ∧
      (v.encode text).count unknown = text.countP (fun b => (v.atom? b).isNone) ∧
      v.decode (v.encode text) = text.filter (fun b => (v.atom? b).isSome) ∧
      (v.decode (v.encode text) = text ↔ ∀ b ∈ text, ∃ id, v.atom? b = some id) := by
  have hfit := h.rulesFit
  have hv := h.consistent
  exact ⟨fun _ => hfit.lt_size_of_mem_encode hv, hfit.count_unknown_encode hv text,
    hfit.decode_encode hv text, hfit.decode_encode_eq_iff hv⟩

/-- A text with a byte of a document that came after training, and with one that no document had. -/
theorem decode_undoes_encode_after_training :
    let c := ((Corpus.fresh.ingest [97, 98, 97, 98]).train {}).corpus.ingest [97, 98, 99]
    let v := c.vocabulary
    v.Genuine ∧ v.encode [97, 98, 100, 99, 98] = [3, 0, 4, 2] ∧
      (∀ id ∈ v.encode [97, 98, 100, 99, 98], id < v.size) ∧
      (v.encode [97, 98, 100, 99, 98]).count unknown = 1 ∧
      v.decode (v.encode [97, 98, 100, 99, 98]) = [97, 98, 99, 98] ∧
      v.decode (v.encode [99, 98]) = [99, 98] := by
  intro c v
  have hfirst : (Corpus.fresh.ingest [97, 98, 97, 98]).Reachable := .ingest .fresh _
  have hv : v.Genuine := .trained (.ingest (.train hfirst _) _)
  have hnaive : v = _ := congrArg
    (fun o : Training.Outcome => (o.corpus.ingest [97, 98, 99]).vocabulary) (hfirst.sound.train_eq {})
  obtain ⟨hids, hcount, hdecode, -⟩ := hv.decode_undoes_encode [97, 98, 100, 99, 98]
  obtain ⟨-, -, -, hknown⟩ := hv.decode_undoes_encode [99, 98]
  have hatoms : v.atom? 97 = some 1 ∧ v.atom? 98 = some 2 ∧ v.atom? 99 = some 4 ∧
      v.atom? 100 = none := by
    rw [hnaive]
    decide +kernel
  have hencode : v.encode [97, 98, 100, 99, 98] = [3, 0, 4, 2] := by
    rw [hnaive]
    decide +kernel
  refine ⟨hv, hencode, hids, hcount.trans ?_, hdecode.trans ?_, hknown.2 ?_⟩
  · simp [hatoms]
  · simp [hatoms]
  · simp [hatoms]

/-! ## Stretches of an encoding -/

/-- **A stretch is encoded as before.** With a vocabulary that was read from its binary form or that
came out of documents and training, any real tokens that stand together in the encoding of a text
are the encoding of their own bytes. The bytes are a stretch of the text, and the tokens before and
behind are the encodings of what is left of the text on both sides. -/
theorem Genuine.stretch_encodes_again (h : v.Genuine) (hencode : v.encode text = us ++ ws ++ vs)
    (hreal : unknown ∉ ws) : v.encode (v.decode ws) = ws ∧
      ∃ x z, text = x ++ v.decode ws ++ z ∧ v.encode x = us ∧ v.encode z = vs := by
  obtain ⟨x, z, htext, hx, hz, -, hagain⟩ :=
    h.rulesFit.exists_append_decode h.consistent hencode hreal
  exact ⟨hagain, x, z, htext, hx, hz⟩

/-- A file whose first entry has the bytes of a token, with an empty token, a rule that leads to one
of its own operands, and a rule whose operand is made by a later one: so the pair of the first rule
stands in an encoding. -/
theorem stretch_encodes_again_in_odd_order :
    let v := ofTable #[[97], [97, 98], [97], [98], [], [97, 98, 97]]
      #[⟨⟨1, 2⟩, 5⟩, ⟨⟨2, 4⟩, 2⟩, ⟨⟨2, 3⟩, 1⟩]
    v.Genuine ∧ v.encode [98, 97, 98, 97, 99, 97, 98] = [3] ++ [1, 2] ++ [0, 1] ∧
      unknown ∉ [1, 2] ∧ v.decode [1, 2] = [97, 98, 97] ∧ v.encode [97, 98, 97] = [1, 2] := by
  intro v
  have hread : ofBytes v.toBytes = .ok v := by cbv
  have hv : v.Genuine := .read hread
  have hencode : v.encode [98, 97, 98, 97, 99, 97, 98] = [3] ++ [1, 2] ++ [0, 1] := by
    decide +kernel
  have hdecode : v.decode [1, 2] = [97, 98, 97] := by decide +kernel
  obtain ⟨hagain, -⟩ := hv.stretch_encodes_again hencode (by decide)
  rw [hdecode] at hagain
  exact ⟨hv, hencode, by decide, hdecode, hagain⟩

end BytePair.Vocabulary
