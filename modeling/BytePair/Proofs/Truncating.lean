import BytePair.Proofs.BinaryForm
import Mathlib.Order.Defs.LinearOrder

/-!
# Bytes that are missing or left over

* `Binary.Reader.Streams`: a reader that takes its bytes from the front, and no more than it needs.
* `Binary.streams_readEntries`, `streams_readRules`, `streams_readVocabulary`: the readers of
  the binary form are made of such readers.
* `Vocabulary.ofBytes_prefix_free`: so nothing that is accepted is the beginning of something else
  that is.
-/

namespace BytePair

namespace Binary

/-! ## Readers -/

/-- The bytes end inside a field. -/
def EndsEarly {α : Type} (x : Except Corruption α) : Prop :=
  ∃ field need left, left < need ∧ x = .error (.truncated field need left)

theorem EndsEarly.bind {α β : Type} {x : Except Corruption α} (h : EndsEarly x)
    (f : α → Except Corruption β) : EndsEarly (x >>= f) := by
  obtain ⟨field, need, left, hlt, rfl⟩ := h
  exact ⟨field, need, left, hlt, rfl⟩

/-- Something at the front of the data, and the bytes behind it. -/
abbrev Reader (α : Type) := Bytes → Except Corruption (α × Bytes)

namespace Reader

variable {α β : Type} {read : Reader α}

/-- What the reader finds does not depend on the bytes behind it. Where some of the bytes that it
needs are missing, it says so. -/
structure Streams (read : Reader α) : Prop where
  more {data rest : Bytes} {a : α} (h : read data = .ok (a, rest)) (tail : Bytes) :
    read (data ++ tail) = .ok (a, rest ++ tail)
  fewer {data tail rest : Bytes} {a : α} (h : read (data ++ tail) = .ok (a, rest)) :
    (∃ left, rest = left ++ tail ∧ read data = .ok (a, left)) ∨ EndsEarly (read data)

theorem streams_pure (a : α) :
    Streams fun data => (pure (a, data) : Except Corruption (α × Bytes)) where
  more h tail := by
    cases h
    rfl
  fewer h := by
    cases h
    exact .inl ⟨_, rfl, rfl⟩

theorem streams_throw (e : Corruption) :
    Streams fun _ => (throw e : Except Corruption (α × Bytes)) where
  more h := by cases h
  fewer h := by cases h

/-- One reader after the other. -/
theorem Streams.bind {next : α × Bytes → Except Corruption (β × Bytes)} (h : read.Streams)
    (hnext : ∀ a, Streams fun data => next (a, data)) : Streams fun data => read data >>= next where
  more := by
    intro data rest b hb tail
    obtain ⟨⟨a, behind⟩, ha, hb⟩ := bind_eq_ok.1 hb
    exact bind_eq_ok.2 ⟨_, h.more ha tail, (hnext a).more hb tail⟩
  fewer := by
    intro data tail rest b hb
    obtain ⟨⟨a, behind⟩, ha, hb⟩ := bind_eq_ok.1 hb
    rcases h.fewer ha with ⟨left, rfl, hleft⟩ | hends
    · have hdata : read data >>= next = next (a, left) := by rw [hleft]; rfl
      rw [hdata]
      exact (hnext a).fewer hb
    · exact .inr (hends.bind next)

theorem Streams.ite {c : Prop} [Decidable c] {read' : Reader α} (h : read.Streams)
    (h' : read'.Streams) : Streams fun data => if c then read data else read' data := by
  by_cases hc : c
  · simpa only [if_pos hc] using h
  · simpa only [if_neg hc] using h'

end Reader

open Reader

variable {α : Type}

/-- A reader of a fixed number of bytes, which are the form of what it finds. -/
theorem streams_of_width (field : Field) (need : Nat) {read : Reader α} {form : α → Bytes}
    {Ok : α → Prop} (hok : ∀ data a rest, read data = .ok (a, rest) ↔ Ok a ∧ data = form a ++ rest)
    (hwidth : ∀ a, Ok a → (form a).length = need)
    (hshort : ∀ data : Bytes, data.length < need →
      read data = .error (.truncated field need data.length)) : Streams read where
  more {data rest a} h tail := by
    obtain ⟨ha, rfl⟩ := (hok _ _ _).1 h
    exact (hok _ _ _).2 ⟨ha, List.append_assoc _ _ _⟩
  fewer {data tail rest a} h := by
    obtain ⟨ha, hdata⟩ := (hok _ _ _).1 h
    by_cases hlength : data.length < need
    · exact .inr ⟨field, need, data.length, hlength, hshort data hlength⟩
    · have hle : (form a).length ≤ data.length := by
        rw [hwidth a ha]
        exact Nat.not_lt.1 hlength
      obtain ⟨left, rfl⟩ : form a <+: data :=
        List.prefix_of_prefix_length_le ⟨rest, hdata.symm⟩ (List.prefix_append _ _) hle
      rw [List.append_assoc, List.append_cancel_left_eq] at hdata
      exact .inl ⟨left, hdata.symm, (hok _ _ _).2 ⟨ha, rfl⟩⟩

theorem streams_readNumber (field : Field) : Streams (readNumber field) := by
  refine streams_of_width field 4 (fun _ _ _ => readNumber_eq_ok_iff) (fun _ _ => rfl)
    fun data hdata => ?_
  match data with
  | [] | [_] | [_, _] | [_, _, _] => rfl

theorem streams_readBytes (field : Field) (n : Nat) : Streams (readBytes field n) := by
  refine streams_of_width field n (fun _ _ _ => readBytes_eq_ok_iff) (fun _ h => h)
    fun data hdata => ?_
  refine if_neg fun hlength => ?_
  rw [List.length_take] at hlength
  omega

theorem streams_readEntries (n : Nat) (tokens : Array Bytes) (seen : Std.ExtTreeSet Bytes) :
    Streams (readEntries n tokens seen) := by
  induction n generalizing tokens seen with
  | zero => exact streams_pure tokens
  | succ n ih =>
    show Streams fun data => readEntries (n + 1) tokens seen data
    simp only [readEntries, throw_bind]
    refine (streams_readNumber .entryId).bind fun id => ?_
    dsimp +instances only
    refine .ite (streams_throw _) ?_
    refine (streams_readNumber .entryLength).bind fun length => ?_
    dsimp +instances only
    refine (streams_readBytes .entryBytes length).bind fun bs => ?_
    dsimp +instances only
    exact .ite (ih _ _) (.ite (streams_throw _) (ih _ _))

theorem streams_readRules (tokens : Array Bytes) (n : Nat) (rules : Array Rule) :
    Streams (readRules tokens n rules) := by
  induction n generalizing rules with
  | zero => exact streams_pure rules
  | succ n ih =>
    show Streams fun data => readRules tokens (n + 1) rules data
    simp only [readRules]
    refine (streams_readNumber .mergeLeft).bind fun left => ?_
    dsimp +instances only
    refine (streams_readNumber .mergeRight).bind fun right => ?_
    dsimp +instances only
    refine (streams_readNumber .mergeNew).bind fun new => ?_
    dsimp +instances only
    cases checkRule tokens rules.size ⟨⟨left, right⟩, new⟩ with
    | ok => exact ih _
    | error e => exact streams_throw e

/-- Reads a vocabulary, whatever follows it. -/
def readVocabulary : Reader Vocabulary := fun data => do
  let (entries, data) ← readNumber .entryCount data
  if entries = 0 then throw .noEntries
  let (tokens, data) ← readEntries entries #[] ∅ data
  let (count, data) ← readNumber .mergeCount data
  let (rules, data) ← readRules tokens count #[] data
  return (Vocabulary.ofTable tokens rules, data)

theorem streams_readVocabulary : Streams readVocabulary := by
  show Streams fun data => readVocabulary data
  simp only [readVocabulary, throw_bind]
  refine (streams_readNumber .entryCount).bind fun entries => ?_
  dsimp +instances only
  refine .ite (streams_throw _) ?_
  refine (streams_readEntries entries _ _).bind fun tokens => ?_
  dsimp +instances only
  refine (streams_readNumber .mergeCount).bind fun count => ?_
  dsimp +instances only
  exact (streams_readRules tokens count _).bind fun rules =>
    streams_pure (Vocabulary.ofTable tokens rules)

end Binary

namespace Vocabulary

open Binary

/-- The bytes of a vocabulary are read, and nothing may follow them. -/
theorem ofBytes_eq (data : Bytes) :
    ofBytes data = do
      let (v, rest) ← readVocabulary data
      if rest.length ≠ 0 then throw (.trailing rest.length)
      return v := by
  simp only [ofBytes, readVocabulary, bind_assoc]
  congr
  funext x
  split
  · rfl
  · simp only [bind_assoc, pure_bind]

/-- **The binary form is prefix-free.** Of bytes that are read as a vocabulary, none can be missing
at the end, and none can follow: the first are refused because a field is cut off, and the second
because of what is left over. -/
theorem ofBytes_prefix_free {data : Bytes} {v : Vocabulary} (h : ofBytes data = .ok v) :
    (∀ cut tail, cut ++ tail = data → tail ≠ [] → EndsEarly (ofBytes cut)) ∧
      ∀ more, more ≠ [] → ofBytes (data ++ more) = .error (.trailing more.length) := by
  rw [ofBytes_eq, bind_eq_ok] at h
  obtain ⟨⟨v', rest⟩, hread, hrest⟩ := h
  obtain ⟨hlength, -⟩ := ite_throw_eq_ok.1 hrest
  obtain rfl : rest = [] := List.length_eq_zero_iff.1 (Decidable.not_not.1 hlength)
  constructor
  · rintro cut tail rfl htail
    rcases streams_readVocabulary.fewer hread with ⟨left, hleft, -⟩ | hends
    · exact absurd (List.append_eq_nil_iff.1 hleft.symm).2 htail
    · rw [ofBytes_eq]
      exact hends.bind _
  · intro more hmore
    rw [ofBytes_eq, streams_readVocabulary.more hread more]
    exact if_pos fun hlength => hmore (List.length_eq_zero_iff.1 hlength)

/-- A file with one rule, cut off inside an entry, and with a byte behind it. -/
theorem ofBytes_prefix_free_one_rule :
    let v := ofTable #[[63], [97], [98], [97, 98]] #[⟨⟨1, 2⟩, 3⟩]
    ofBytes v.toBytes = .ok v ∧ EndsEarly (ofBytes (v.toBytes.take 20)) ∧
      ofBytes (v.toBytes ++ [0]) = .error (.trailing 1) := by
  intro v
  have hread : ofBytes v.toBytes = .ok v := by cbv
  obtain ⟨hcut, hmore⟩ := ofBytes_prefix_free hread
  have htail : v.toBytes.drop 20 ≠ [] := by
    have hlength : (v.toBytes.drop 20).length = 37 := by cbv
    exact List.ne_nil_of_length_pos (by omega)
  refine ⟨hread, hcut _ _ (List.take_append_drop 20 v.toBytes) htail, ?_⟩
  exact hmore [0] (List.cons_ne_nil _ _)

end Vocabulary

end BytePair
