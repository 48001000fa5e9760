import BytePair.Proofs.Appending
import BytePair.Proofs.Characters
import BytePair.Proofs.Reloading

/-!
# Tokens by their texts

A token may end inside a character. Its text then has a replacement in it, and does not lead back to
the token.

* `Utf8.WellFormed`: a row of characters, each in its bytes; `Utf8.wellFormed_iff`: these are the
  bytes of the texts.
* `Utf8.ofText_lossy_eq_iff`: reading with replacements loses nothing of such bytes, and something
  of all others.
* `Vocabulary.text_leads_back_iff`: the text of a token names this token if its bytes are
  well-formed, and no token or another one if they are not.
-/

namespace BytePair

/-! ## Well-formed bytes -/

namespace Utf8

variable {bs : Bytes}

/-- A row of characters, each in its own bytes: no overlong forms, no surrogates, no character that
breaks off. -/
def WellFormed (bs : Bytes) : Prop :=
  ∃ characters : List Bytes, characters.flatten = bs ∧ ∀ c ∈ characters, ∃ code, Form code c

theorem wellFormed_ofText (s : String) : WellFormed (Bytes.ofText s) := by
  refine ⟨s.toList.map String.utf8EncodeChar, ?_, fun c hc => ?_⟩
  · rw [Bytes.ofText_eq, List.flatMap_def]
  · obtain ⟨char, -, rfl⟩ := List.mem_map.1 hc
    exact ⟨_, form_utf8EncodeChar char⟩

/-- The well-formed bytes are those of the texts. -/
theorem wellFormed_iff : WellFormed bs ↔ ∃ s, Bytes.ofText s = bs := by
  constructor
  · rintro ⟨characters, rfl, hforms⟩
    induction characters with
    | nil => exact ⟨"", rfl⟩
    | cons c characters ih =>
      obtain ⟨⟨code, hcode⟩, hforms⟩ := List.forall_mem_cons.1 hforms
      obtain ⟨s, hs⟩ := ih hforms
      refine ⟨String.ofList (Char.ofNat code :: s.toList), ?_⟩
      rw [Bytes.ofText_eq] at hs ⊢
      rw [String.toList_ofList, List.flatMap_cons, hcode.utf8EncodeChar_eq, hs, List.flatten_cons]
  · rintro ⟨s, rfl⟩
    exact wellFormed_ofText s

/-- Nothing of a text is replaced. -/
theorem lossy_ofText (s : String) : lossy (Bytes.ofText s) = s := by
  have hchars : chars? (Bytes.ofText s) = some s.toList :=
    chars?_eq_some_iff.2 (Bytes.ofText_eq s).symm
  rw [lossy, lossyChars_eq_of_chars? hchars, String.ofList_toList]

/-- Reading with replacements loses nothing just of well-formed bytes. -/
theorem ofText_lossy_eq_iff : Bytes.ofText (lossy bs) = bs ↔ WellFormed bs := by
  constructor
  · intro h
    exact h ▸ wellFormed_ofText (lossy bs)
  · intro h
    obtain ⟨s, rfl⟩ := wellFormed_iff.1 h
    rw [lossy_ofText]

end Utf8

/-! ## There and back -/

namespace Vocabulary

variable {v : Vocabulary} {id : TokenId} {bs : Bytes} {text : String}

theorem Consistent.named?_eq_some_iff (h : v.Consistent) :
    v.named? text = some id ↔ id ≠ unknown ∧ v.bytes? id = some (Bytes.ofText text) :=
  h.id?_eq_some_iff (Bytes.ofText text) id

/-- The text of a token names a token that has the bytes of this text. -/
theorem Consistent.named?_lossy_eq_some_iff (h : v.Consistent) (hid : id ≠ unknown)
    (hbs : v.bytes? id = some bs) : v.named? (Utf8.lossy bs) = some id ↔ Utf8.WellFormed bs := by
  rw [h.named?_eq_some_iff, and_iff_right hid, hbs, Option.some.injEq, eq_comm,
    Utf8.ofText_lossy_eq_iff]

/-- **From a token to its text and back.** Start from a vocabulary that was read or trained, a new
one included, and perform any operations on it. The text of a real token of the table leads back to
this token just if its bytes are well-formed. Otherwise no token has the bytes of the text, or it is
another one. -/
theorem text_leads_back_iff {start : Vocabulary} (hstart : start.Genuine) (ops : List Operation)
    {id : TokenId} (hid : 1 ≤ id) (hlt : id < (start.after ops).size) :
    let v := start.after ops
    ∃ bs text, v.bytes? id = some bs ∧ v.text? id = some text ∧
      (v.named? text = some id ↔ Utf8.WellFormed bs) ∧
      (¬Utf8.WellFormed bs → v.named? text = none ∨ ∃ other, v.named? text = some other ∧
        other ≠ id ∧ v.bytes? other = some (Bytes.ofText text)) := by
  intro v
  have hv : v.Consistent := hstart.consistent.after ops
  have hbs : v.bytes? id = some v.tokens[id] := Array.getElem?_eq_getElem hlt
  have hback := hv.named?_lossy_eq_some_iff (Nat.ne_of_gt hid) hbs
  refine ⟨_, _, hbs, by rw [text?, hbs, Option.map_some], hback, fun hbad => ?_⟩
  cases hnamed : v.named? (Utf8.lossy v.tokens[id]) with
  | none => exact .inl rfl
  | some other =>
    refine .inr ⟨other, rfl, ?_, (hv.named?_eq_some_iff.1 hnamed).2⟩
    rintro rfl
    exact hbad (hback.1 hnamed)

/-- The two bytes of a character, the character itself, and the one that stands for either byte:
this is where the text of the first byte leads. -/
theorem text_leads_back_iff_of_halves :
    let v := fresh.after
      [.insert [0xC3], .insert [0xA9], .addRule ⟨1, 2⟩, .insert [0xEF, 0xBF, 0xBD]]
    v.text? 1 = some "\uFFFD" ∧ v.named? "\uFFFD" = some 4 ∧ ¬Utf8.WellFormed [0xC3] ∧
      v.text? 3 = some "é" ∧ v.named? "é" = some 3 := by
  intro v
  have hstart : fresh.Genuine := .trained .fresh
  have hfirst : v.bytes? 1 = some [0xC3] ∧ v.text? 1 = some "\uFFFD" := by decide +kernel
  have hthird : v.bytes? 3 = some (Bytes.ofText "é") ∧ v.text? 3 = some "é" := by decide +kernel
  have hnamed : v.named? "\uFFFD" = some 4 := by decide +kernel
  obtain ⟨bs, text, hbs, htext, hback, -⟩ :=
    text_leads_back_iff hstart _ (by decide) (lt_size_of_bytes? hfirst.1)
  obtain rfl := Option.some.inj (hfirst.1.symm.trans hbs)
  obtain rfl := Option.some.inj (hfirst.2.symm.trans htext)
  obtain ⟨bs, text, hbs', htext', hback', -⟩ :=
    text_leads_back_iff hstart _ (by decide) (lt_size_of_bytes? hthird.1)
  obtain rfl := Option.some.inj (hthird.1.symm.trans hbs')
  obtain rfl := Option.some.inj (hthird.2.symm.trans htext')
  refine ⟨hfirst.2, hnamed, fun hwell => ?_, hthird.2, hback'.2 (Utf8.wellFormed_ofText "é")⟩
  cases hnamed.symm.trans (hback.2 hwell)

end Vocabulary

end BytePair
