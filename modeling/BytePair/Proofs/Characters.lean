import BytePair.Text.Utf8
import Mathlib.Data.List.TakeWhile
import Mathlib.Tactic.SplitIfs

/-!
# Well-formed text

The bytes of a text can be read, and whatever can be read is the bytes of the text.

* `Utf8.Form`: how the code point of a character lies in its bytes. This is how characters are
  written (`Utf8.form_utf8EncodeChar`), and how they are read (`Utf8.head_of_form`,
  `Utf8.form_of_head`).
* `Utf8.decode?_eq_some_iff`: reading a byte string gives a text just if these are its bytes.
* `Utf8.lossy_eq_iff`: so does reading it with replacements, if the text has none.
-/

namespace BytePair

namespace Utf8

/-- A byte that continues a character. -/
def Continues (b : UInt8) : Prop := 0x80 ≤ b.toNat ∧ b.toNat < 0xC0

/-- A code point and the bytes that it is written in. None is written in more bytes than it needs,
and surrogates are not written. -/
inductive Form : Nat → Bytes → Prop
  | one {code : Nat} {a : UInt8} (hcode : code = a.toNat) (hhigh : code < 0x80) : Form code [a]
  | two {code : Nat} {a b : UInt8} (ha : 0xC0 ≤ a.toNat ∧ a.toNat < 0xE0) (hb : Continues b)
    (hcode : code = a.toNat % 32 * 64 + b.toNat % 64) (hlow : 0x80 ≤ code) : Form code [a, b]
  | three {code : Nat} {a b c : UInt8} (ha : 0xE0 ≤ a.toNat ∧ a.toNat < 0xF0) (hb : Continues b)
    (hc : Continues c) (hcode : code = (a.toNat % 16 * 64 + b.toNat % 64) * 64 + c.toNat % 64)
    (hlow : 0x800 ≤ code) (hscalar : code < 0xD800 ∨ 0xDFFF < code) : Form code [a, b, c]
  | four {code : Nat} {a b c d : UInt8} (ha : 0xF0 ≤ a.toNat ∧ a.toNat < 0xF8) (hb : Continues b)
    (hc : Continues c) (hd : Continues d)
    (hcode : code =
      ((a.toNat % 8 * 64 + b.toNat % 64) * 64 + c.toNat % 64) * 64 + d.toNat % 64)
    (hlow : 0x10000 ≤ code) (hhigh : code ≤ 0x10FFFF) : Form code [a, b, c, d]

variable {first : UInt8} {rest bs : Bytes} {code used : Nat} {char : Char}

theorem Form.isValidChar (h : Form code bs) : code.isValidChar := by
  cases h with
  | one hcode hhigh => exact .inl (by omega)
  | two ha hb hcode hlow => exact .inl (by omega)
  | three ha hb hc hcode hlow hscalar =>
    rcases hscalar with hscalar | hscalar
    · exact .inl hscalar
    · exact .inr ⟨hscalar, by omega⟩
  | four ha hb hc hd hcode hlow hhigh => exact .inr ⟨by omega, by omega⟩

/-! ## Writing -/

theorem toNat_charOfNat (h : code.isValidChar) : (Char.ofNat code).toNat = code := by
  rw [Char.ofNat, dif_pos h]
  rfl

theorem toNat_ofNat_of_lt (h : code < 256) : (UInt8.ofNat code).toNat = code := by
  rw [UInt8.toNat_ofNat', Nat.mod_eq_of_lt h]

/-- A character is written in the bytes of its code point. -/
theorem form_utf8EncodeChar (char : Char) : Form char.toNat (String.utf8EncodeChar char) := by
  have hvalid : char.toNat < 0xD800 ∨ 0xDFFF < char.toNat ∧ char.toNat < 0x110000 := char.valid
  have hval : char.val.toNat = char.toNat := rfl
  fun_cases String.utf8EncodeChar char with
  | case1 v hv =>
    exact .one (toNat_ofNat_of_lt (by omega)).symm (by omega)
  | case2 v _ hv =>
    have ha : (UInt8.ofNat (v / 64 % 32 + 192)).toNat = v / 64 % 32 + 192 :=
      toNat_ofNat_of_lt (by omega)
    have hb : (UInt8.ofNat (v % 64 + 128)).toNat = v % 64 + 128 := toNat_ofNat_of_lt (by omega)
    exact .two (by omega) ⟨by omega, by omega⟩ (by omega) (by omega)
  | case3 v _ _ hv =>
    have ha : (UInt8.ofNat (v / 4096 % 16 + 224)).toNat = v / 4096 % 16 + 224 :=
      toNat_ofNat_of_lt (by omega)
    have hb : (UInt8.ofNat (v / 64 % 64 + 128)).toNat = v / 64 % 64 + 128 :=
      toNat_ofNat_of_lt (by omega)
    have hc : (UInt8.ofNat (v % 64 + 128)).toNat = v % 64 + 128 := toNat_ofNat_of_lt (by omega)
    exact .three (by omega) ⟨by omega, by omega⟩ ⟨by omega, by omega⟩ (by omega) (by omega)
      (by omega)
  | case4 v _ _ hv =>
    have ha : (UInt8.ofNat (v / 262144 % 8 + 240)).toNat = v / 262144 % 8 + 240 :=
      toNat_ofNat_of_lt (by omega)
    have hb : (UInt8.ofNat (v / 4096 % 64 + 128)).toNat = v / 4096 % 64 + 128 :=
      toNat_ofNat_of_lt (by omega)
    have hc : (UInt8.ofNat (v / 64 % 64 + 128)).toNat = v / 64 % 64 + 128 :=
      toNat_ofNat_of_lt (by omega)
    have hd : (UInt8.ofNat (v % 64 + 128)).toNat = v % 64 + 128 := toNat_ofNat_of_lt (by omega)
    exact .four (by omega) ⟨by omega, by omega⟩ ⟨by omega, by omega⟩ ⟨by omega, by omega⟩ (by omega)
      (by omega) (by omega)

theorem ofNat_eq_of_toNat_eq {a : UInt8} (h : a.toNat = code) : UInt8.ofNat code = a := by
  rw [← h, UInt8.ofNat_toNat]

theorem Form.utf8EncodeChar_eq (h : Form code bs) :
    String.utf8EncodeChar (Char.ofNat code) = bs := by
  have hval : (Char.ofNat code).val.toNat = code := toNat_charOfNat h.isValidChar
  simp only [String.utf8EncodeChar, hval]
  cases h with
  | one hcode hhigh => rw [if_pos (by omega), ofNat_eq_of_toNat_eq hcode.symm]
  | two ha hb hcode hlow =>
    obtain ⟨hb, hb'⟩ := hb
    rw [if_neg (by omega), if_pos (by omega)]
    congr <;> exact ofNat_eq_of_toNat_eq (by omega)
  | three ha hb hc hcode hlow hscalar =>
    obtain ⟨hb, hb'⟩ := hb
    obtain ⟨hc, hc'⟩ := hc
    rw [if_neg (by omega), if_neg (by omega), if_pos (by omega)]
    congr <;> exact ofNat_eq_of_toNat_eq (by omega)
  | four ha hb hc hd hcode hlow hhigh =>
    obtain ⟨hb, hb'⟩ := hb
    obtain ⟨hc, hc'⟩ := hc
    obtain ⟨hd, hd'⟩ := hd
    rw [if_neg (by omega), if_neg (by omega), if_neg (by omega)]
    congr <;> exact ofNat_eq_of_toNat_eq (by omega)

/-! ## Reading -/

theorem expected?_eq (first : UInt8) : expected? first =
    if 0xC2 ≤ first.toNat ∧ first.toNat ≤ 0xDF then some ⟨0x80, 0xBF, 0⟩
    else if first.toNat = 0xE0 then some ⟨0xA0, 0xBF, 1⟩
    else if first.toNat = 0xED then some ⟨0x80, 0x9F, 1⟩
    else if 0xE1 ≤ first.toNat ∧ first.toNat ≤ 0xEF then some ⟨0x80, 0xBF, 1⟩
    else if first.toNat = 0xF0 then some ⟨0x90, 0xBF, 2⟩
    else if 0xF1 ≤ first.toNat ∧ first.toNat ≤ 0xF3 then some ⟨0x80, 0xBF, 2⟩
    else if first.toNat = 0xF4 then some ⟨0x80, 0x8F, 2⟩
    else none := by
  simp only [expected?, UInt8.le_iff_toNat_le, ← UInt8.toNat_inj]
  rfl

/-- Bytes that may follow a first byte. -/
structure Expected.Admits (e : Expected) (second : UInt8) (tail : Bytes) : Prop where
  low_le : e.low.toNat ≤ second.toNat
  le_high : second.toNat ≤ e.high.toNat
  length_eq : tail.length = e.more
  continues : ∀ b ∈ tail, Continues b

/-- The code point of a character of several bytes. -/
def codeOf (first second : UInt8) (tail : Bytes) : Nat :=
  appendBits (leadBits first (tail.length + 1)) (second :: tail)

theorem codeOf_nil (first second : UInt8) :
    codeOf first second [] = first.toNat % 32 * 64 + second.toNat % 64 := rfl

theorem codeOf_singleton (first second third : UInt8) : codeOf first second [third] =
    (first.toNat % 16 * 64 + second.toNat % 64) * 64 + third.toNat % 64 := rfl

theorem codeOf_pair (first second third fourth : UInt8) :
    codeOf first second [third, fourth] =
      ((first.toNat % 8 * 64 + second.toNat % 64) * 64 + third.toNat % 64) * 64 +
        fourth.toNat % 64 := rfl

variable {second third fourth : UInt8} {tail : Bytes} {e : Expected}

/-- What follows a first byte with these limits for the second one. -/
theorem Expected.Admits.limits {low high : UInt8} {more : Nat}
    (h : Admits ⟨low, high, more⟩ second tail) :
    low.toNat ≤ second.toNat ∧ second.toNat ≤ high.toNat ∧ tail.length = more ∧
      ∀ b ∈ tail, Continues b :=
  ⟨h.low_le, h.le_high, h.length_eq, h.continues⟩

/-- Three bytes, of which the second one is limited after two of the first bytes. -/
theorem form_three (hfirst : 0xE0 ≤ first.toNat ∧ first.toNat < 0xF0) (hlow : 0x80 ≤ second.toNat)
    (hhigh : second.toNat ≤ 0xBF) (hshort : first.toNat = 0xE0 → 0xA0 ≤ second.toNat)
    (hscalar : first.toNat = 0xED → second.toNat ≤ 0x9F) (hlength : tail.length = 1)
    (htail : ∀ b ∈ tail, Continues b) :
    Form (codeOf first second tail) (first :: second :: tail) := by
  obtain ⟨third, rfl⟩ := List.length_eq_one_iff.1 hlength
  obtain ⟨hthird, hthird'⟩ := htail third (by simp)
  have hcode := codeOf_singleton first second third
  exact .three hfirst ⟨hlow, by omega⟩ ⟨hthird, hthird'⟩ hcode (by omega) (by omega)

/-- Four bytes, of which the second one is limited after two of the first bytes. -/
theorem form_four (hfirst : 0xF0 ≤ first.toNat ∧ first.toNat ≤ 0xF4) (hlow : 0x80 ≤ second.toNat)
    (hhigh : second.toNat ≤ 0xBF) (hshort : first.toNat = 0xF0 → 0x90 ≤ second.toNat)
    (hlast : first.toNat = 0xF4 → second.toNat ≤ 0x8F) (hlength : tail.length = 2)
    (htail : ∀ b ∈ tail, Continues b) :
    Form (codeOf first second tail) (first :: second :: tail) := by
  obtain ⟨third, fourth, rfl⟩ : ∃ third fourth, tail = [third, fourth] :=
    ⟨_, _, List.eq_getElem_of_length_eq_two tail hlength⟩
  obtain ⟨hthird, hthird'⟩ := htail third (by simp)
  obtain ⟨hfourth, hfourth'⟩ := htail fourth (by simp)
  have hcode := codeOf_pair first second third fourth
  exact .four (by omega) ⟨hlow, by omega⟩ ⟨hthird, hthird'⟩ ⟨hfourth, hfourth'⟩ hcode (by omega)
    (by omega)

/-- The bytes that a first byte admits make a character with it. -/
theorem form_of_admits (he : expected? first = some e) (h : e.Admits second tail) :
    Form (codeOf first second tail) (first :: second :: tail) := by
  obtain ⟨low, high, more⟩ := e
  obtain ⟨hlow, hhigh, hlength, htail⟩ := h.limits
  rw [expected?_eq] at he
  split_ifs at he <;> obtain ⟨rfl, rfl, rfl⟩ : _ ∧ _ ∧ _ := by simpa using he
  all_goals simp only [UInt8.reduceToNat] at hlow hhigh
  · obtain rfl := List.length_eq_zero_iff.1 hlength
    have hcode := codeOf_nil first second
    exact .two (by omega) ⟨hlow, by omega⟩ hcode (by omega)
  iterate 3
    exact form_three (by omega) (by omega) (by omega) (by omega) (by omega) hlength htail
  iterate 3
    exact form_four (by omega) (by omega) (by omega) (by omega) (by omega) hlength htail

/-- Behind the first byte of a character there is what this byte admits. -/
theorem exists_admits_of_form (h : Form code (first :: second :: tail)) :
    ∃ e, expected? first = some e ∧ e.Admits second tail ∧ code = codeOf first second tail := by
  rw [expected?_eq]
  cases h with
  | two ha hb hcode hlow =>
    obtain ⟨hb, hb'⟩ := hb
    refine ⟨⟨0x80, 0xBF, 0⟩, ?_, ⟨hb, Nat.le_of_lt_succ hb', rfl, by simp⟩, hcode⟩
    rw [if_pos (by omega)]
  | @three _ _ c ha hb hc hcode hlow hscalar =>
    obtain ⟨hb, hb'⟩ := hb
    have htail : ∀ b ∈ [c], Continues b := by simpa using hc
    obtain ⟨hc, hc'⟩ := hc
    by_cases hshort : first.toNat = 0xE0
    · have hlimit : 0xA0 ≤ second.toNat := by omega
      refine ⟨⟨0xA0, 0xBF, 1⟩, ?_, ⟨hlimit, Nat.le_of_lt_succ hb', rfl, htail⟩, hcode⟩
      rw [if_neg (by omega), if_pos hshort]
    · by_cases hbefore : first.toNat = 0xED
      · have hlimit : second.toNat ≤ 0x9F := by omega
        refine ⟨⟨0x80, 0x9F, 1⟩, ?_, ⟨hb, hlimit, rfl, htail⟩, hcode⟩
        rw [if_neg (by omega), if_neg hshort, if_pos hbefore]
      · refine ⟨⟨0x80, 0xBF, 1⟩, ?_, ⟨hb, Nat.le_of_lt_succ hb', rfl, htail⟩, hcode⟩
        rw [if_neg (by omega), if_neg hshort, if_neg hbefore, if_pos (by omega)]
  | @four _ _ c d ha hb hc hd hcode hlow hhigh =>
    obtain ⟨hb, hb'⟩ := hb
    have htail : ∀ b ∈ [c, d], Continues b := by simpa using ⟨hc, hd⟩
    obtain ⟨hc, hc'⟩ := hc
    obtain ⟨hd, hd'⟩ := hd
    have hthree : ¬(0xC2 ≤ first.toNat ∧ first.toNat ≤ 0xDF) ∧ first.toNat ≠ 0xE0 ∧
        first.toNat ≠ 0xED ∧ ¬(0xE1 ≤ first.toNat ∧ first.toNat ≤ 0xEF) := by omega
    rw [if_neg hthree.1, if_neg hthree.2.1, if_neg hthree.2.2.1, if_neg hthree.2.2.2]
    by_cases hshort : first.toNat = 0xF0
    · have hlimit : 0x90 ≤ second.toNat := by omega
      refine ⟨⟨0x90, 0xBF, 2⟩, ?_, ⟨hlimit, Nat.le_of_lt_succ hb', rfl, htail⟩, hcode⟩
      rw [if_pos hshort]
    · by_cases hlast : first.toNat = 0xF4
      · have hlimit : second.toNat ≤ 0x8F := by omega
        refine ⟨⟨0x80, 0x8F, 2⟩, ?_, ⟨hb, hlimit, rfl, htail⟩, hcode⟩
        rw [if_neg hshort, if_neg (by omega), if_pos hlast]
      · refine ⟨⟨0x80, 0xBF, 2⟩, ?_, ⟨hb, Nat.le_of_lt_succ hb', rfl, htail⟩, hcode⟩
        rw [if_neg hshort, if_pos (by omega)]

/-! ## Heads -/

theorem isContinuation_iff {b : UInt8} : isContinuation b = true ↔ Continues b := by
  simp only [isContinuation, Bool.and_eq_true, decide_eq_true_eq, UInt8.le_iff_toNat_le,
    UInt8.reduceToNat, Continues]
  omega

/-- The wanted number of continuation bytes is found just if they are there. -/
theorem length_takeWhile_take {n : Nat} {bs : Bytes} :
    ((bs.take n).takeWhile isContinuation).length = n ↔
      n ≤ bs.length ∧ ∀ b ∈ bs.take n, Continues b := by
  have hle := (List.takeWhile_sublist (l := bs.take n) isContinuation).length_le
  rw [List.length_take] at hle
  constructor
  · intro h
    have heq : (bs.take n).takeWhile isContinuation = bs.take n :=
      (List.takeWhile_sublist _).eq_of_length_le (by rw [List.length_take]; omega)
    exact ⟨by omega, fun b hb => isContinuation_iff.1 (List.mem_takeWhile_imp (heq ▸ hb))⟩
  · rintro ⟨hn, hall⟩
    rw [List.takeWhile_eq_self_iff.2 fun b hb => isContinuation_iff.2 (hall b hb),
      List.length_take]
    omega

theorem first_lt_iff : first < 0x80 ↔ first.toNat < 0x80 := UInt8.lt_iff_toNat_lt

theorem not_lt_of_expected? (he : expected? first = some e) : ¬first < 0x80 := by
  rw [first_lt_iff]
  intro hlt
  rw [expected?_eq, if_neg (by omega), if_neg (by omega), if_neg (by omega), if_neg (by omega),
    if_neg (by omega), if_neg (by omega), if_neg (by omega)] at he
  cases he

/-- A character is read from its bytes, whatever follows. -/
theorem head_of_form (h : Form code (first :: tail)) (rest : Bytes) :
    head first (tail ++ rest) = .char (Char.ofNat code) tail.length := by
  cases tail with
  | nil =>
    cases h with
    | one hcode hhigh =>
      subst hcode
      rw [head, if_pos (first_lt_iff.2 hhigh)]
      rfl
  | cons second tail =>
    obtain ⟨e, he, hadmits, rfl⟩ := exists_admits_of_form h
    obtain ⟨hlow, hhigh, hlength, htail⟩ := hadmits
    have hsecond : ¬(second < e.low ∨ e.high < second) := by
      rw [UInt8.lt_iff_toNat_lt, UInt8.lt_iff_toNat_lt]
      omega
    have htake : (tail ++ rest).take e.more = tail := by rw [← hlength, List.take_left]
    have hgood : tail.takeWhile isContinuation = tail :=
      List.takeWhile_eq_self_iff.2 fun b hb => isContinuation_iff.2 (htail b hb)
    rw [head, if_neg (not_lt_of_expected? he), he]
    simp only [List.cons_append, if_neg hsecond, htake, hgood, hlength, if_pos, codeOf,
      List.length_cons]

/-- Whatever is read as a character is its bytes. -/
theorem form_of_head (h : head first rest = .char char used) :
    ∃ tail behind code, rest = tail ++ behind ∧ tail.length = used ∧ Form code (first :: tail) ∧
      char = Char.ofNat code := by
  revert h
  fun_cases head first rest with
  | case1 _ hlt =>
    intro h
    obtain ⟨rfl, rfl⟩ := Head.char.inj h
    exact ⟨[], rest, _, rfl, rfl, .one rfl (first_lt_iff.1 hlt), rfl⟩
  | case2 | case3 | case4 | case6 =>
    intro h
    cases h
  | case5 hlong e he second tail hsecond good hgood =>
    intro h
    obtain ⟨rfl, rfl⟩ := Head.char.inj h
    obtain ⟨hmore, htail⟩ := length_takeWhile_take.1 hgood
    have hgood : good = tail.take e.more :=
      List.takeWhile_eq_self_iff.2 fun b hb => isContinuation_iff.2 (htail b hb)
    have hlength : (tail.take e.more).length = e.more := List.length_take_of_le hmore
    rw [UInt8.lt_iff_toNat_lt, UInt8.lt_iff_toNat_lt] at hsecond
    have hadmits : e.Admits second (tail.take e.more) := ⟨by omega, by omega, hlength, htail⟩
    refine ⟨second :: tail.take e.more, tail.drop e.more, _, ?_, ?_, form_of_admits he hadmits, ?_⟩
    · rw [List.cons_append, List.take_append_drop]
    · rw [List.length_cons, hlength]
    · rw [hgood, codeOf, hlength]

/-! ## Texts -/

theorem chars?_nil : chars? [] = some [] := by rw [chars?]

theorem chars?_cons (first : UInt8) (rest : Bytes) : chars? (first :: rest) =
    match head first rest with
    | .char c used => (chars? (rest.drop used)).map (c :: ·)
    | .malformed _ => none := by
  cases h : head first rest <;> simp only [chars?, h]

theorem chars?_utf8EncodeChar_append (char : Char) (rest : Bytes) :
    chars? (String.utf8EncodeChar char ++ rest) = (chars? rest).map (char :: ·) := by
  have hform := form_utf8EncodeChar char
  cases hbytes : String.utf8EncodeChar char with
  | nil => exact absurd hbytes String.utf8EncodeChar_ne_nil
  | cons first tail =>
    rw [hbytes] at hform
    rw [List.cons_append, chars?_cons, head_of_form hform, Char.ofNat_toNat]
    simp

/-- Characters are read from their bytes, and from nothing else. -/
theorem chars?_eq_some_iff {chars : List Char} :
    chars? bs = some chars ↔ chars.flatMap String.utf8EncodeChar = bs := by
  constructor
  · fun_induction chars? bs generalizing chars with
    | case1 =>
      rintro ⟨⟩
      rfl
    | case2 first rest char used hhead ih =>
      intro h
      obtain ⟨chars, hchars, rfl⟩ := Option.map_eq_some_iff.1 h
      obtain ⟨tail, behind, code, rfl, rfl, hform, rfl⟩ := form_of_head hhead
      rw [List.drop_left] at ih hchars
      rw [List.flatMap_cons, hform.utf8EncodeChar_eq, ih hchars, List.cons_append]
    | case3 =>
      intro h
      cases h
  · rintro rfl
    induction chars with
    | nil => exact chars?_nil
    | cons char chars ih =>
      rw [List.flatMap_cons, chars?_utf8EncodeChar_append, ih, Option.map_some]

end Utf8

theorem Bytes.ofText_eq (s : String) : Bytes.ofText s = s.toList.flatMap String.utf8EncodeChar := by
  have hbytes : s.toByteArray = s.toList.utf8Encode := by
    rw [← String.toByteArray_ofList, String.ofList_toList]
  show s.toByteArray.data.toList = _
  rw [hbytes]
  simp [List.utf8Encode]

theorem Bytes.ofText_injective {s t : String} (h : ofText s = ofText t) : s = t :=
  String.toByteArray_inj.1 (ByteArray.ext (Array.toList_inj.1 h))

theorem Bytes.ofText_append (s t : String) : ofText (s ++ t) = ofText s ++ ofText t := by
  rw [ofText_eq, String.toList_append, List.flatMap_append, ← ofText_eq, ← ofText_eq]

/-- A byte string is read as a text just if it is the bytes of the text. -/
theorem Utf8.decode?_eq_some_iff {bs : Bytes} {s : String} :
    decode? bs = some s ↔ Bytes.ofText s = bs := by
  rw [Bytes.ofText_eq, ← chars?_eq_some_iff, decode?, Option.map_eq_some_iff]
  constructor
  · rintro ⟨chars, hchars, rfl⟩
    rwa [String.toList_ofList]
  · intro h
    exact ⟨s.toList, h, String.ofList_toList⟩

theorem Utf8.chars?_of_notMem {bs : Bytes} (h : replacement ∉ lossyChars bs) :
    chars? bs = some (lossyChars bs) := by
  fun_induction lossyChars bs with
  | case1 => exact chars?_nil
  | case2 first rest char used hhead ih =>
    rw [List.mem_cons, not_or] at h
    rw [chars?_cons, hhead]
    simp only [ih h.2, Option.map_some]
  | case3 => exact absurd List.mem_cons_self h

/-- A text without replacements is read from its own bytes only. -/
theorem Utf8.lossy_eq_iff {bs : Bytes} {s : String} (hs : replacement ∉ s.toList) :
    lossy bs = s ↔ bs = Bytes.ofText s := by
  rw [Bytes.ofText_eq, eq_comm (b := s.toList.flatMap _), ← chars?_eq_some_iff, lossy,
    ← String.toList_inj, String.toList_ofList]
  constructor
  · intro h
    rw [← h] at hs ⊢
    exact chars?_of_notMem hs
  · exact lossyChars_eq_of_chars?

end BytePair
