import BytePair.Json.Parser
import BytePair.Proofs.Characters
import BytePair.Proofs.Printing
import Mathlib.Data.List.DropRight

/-!
# Objects are read as they are written

What the reader of JSON makes of texts that are put together from parts: white space, numerals,
strings without escapes, and the members of objects.

* `Json.Blank`: white space, which may stand before and behind every part.
* `Json.Spells`: the bytes of a value, wherever they stand. `Json.spells_numeral`: those of a
  natural number are its digits; `Json.value_numeral`: and these stand for the number.
* `Json.Written`: a member of an object, and `Json.parse?_objectText`: an object of such members is
  read as just these, in their order.
-/

namespace BytePair.Json

variable {b : UInt8} {bs rest : Bytes} {fuel : Nat}

/-! ## White space -/

/-- White space that may stand between the parts of a text. -/
structure Blank where
  bytes : Bytes
  isSpace : ∀ b ∈ bytes, isSpace b

/-- No white space. -/
def Blank.none : Blank := ⟨[], by simp⟩

theorem skipSpace_append (blank : Blank) (rest : Bytes) :
    skipSpace (blank.bytes ++ rest) = skipSpace rest :=
  List.dropWhile_append_of_pos blank.isSpace

theorem skipSpace_blank (blank : Blank) : skipSpace blank.bytes = [] := by
  simpa [skipSpace] using skipSpace_append blank []

theorem skipSpace_cons (h : isSpace b = false) (rest : Bytes) :
    skipSpace (b :: rest) = b :: rest :=
  List.dropWhile_cons_of_neg (by simp [h])

theorem skipSpace_skipSpace (bs : Bytes) : skipSpace (skipSpace bs) = skipSpace bs :=
  List.dropWhile_idempotent _ _

theorem parseValue_append (blank : Blank) (fuel : Nat) (rest : Bytes) :
    parseValue fuel (blank.bytes ++ rest) = parseValue fuel rest := by
  cases fuel with
  | zero => rw [parseValue, parseValue]
  | succ fuel => rw [parseValue, parseValue, skipSpace_append]

theorem parseMembers_skipSpace (fuel : Nat) (bs : Bytes) :
    parseMembers fuel (skipSpace bs) = parseMembers fuel bs := by
  cases fuel with
  | zero => rw [parseMembers, parseMembers]
  | succ fuel => rw [parseMembers, parseMembers, skipSpace_skipSpace]

theorem parseMembers_append (blank : Blank) (fuel : Nat) (rest : Bytes) :
    parseMembers fuel (blank.bytes ++ rest) = parseMembers fuel rest := by
  rw [← parseMembers_skipSpace, skipSpace_append, parseMembers_skipSpace]

/-! ## Numbers -/

/-- No byte comes first that might go on with a number. -/
def EndsNumber (rest : Bytes) : Prop :=
  ∀ b ∈ rest.head?, isDigit b = false ∧ b ≠ 0x2E ∧ b ≠ 0x65 ∧ b ≠ 0x45

theorem endsNumber_of_isSpace (h : isSpace b) (rest : Bytes) : EndsNumber (b :: rest) := by
  simp only [isSpace, Bool.or_eq_true, decide_eq_true_eq] at h
  simp only [EndsNumber, List.head?_cons, Option.mem_some_iff, forall_eq']
  rcases h with ((rfl | rfl) | rfl) | rfl <;> decide

theorem endsNumber_append (blank : Blank) (h : EndsNumber rest) :
    EndsNumber (blank.bytes ++ rest) := by
  obtain ⟨bytes, hspace⟩ := blank
  cases bytes with
  | nil => exact h
  | cons b bytes => exact endsNumber_of_isSpace (hspace b List.mem_cons_self) _

/-- A natural number in decimal digits. -/
def numeral (n : Nat) : Bytes := Bytes.ofText (toString n)

theorem utf8EncodeChar_of_isDigit {c : Char} (h : c.isDigit) :
    String.utf8EncodeChar c = [c.val.toUInt8] := by
  refine String.utf8EncodeChar_eq_singleton (Char.utf8Size_eq_one_iff.2 ?_)
  simp only [Char.isDigit, Bool.and_eq_true, decide_eq_true_eq] at h
  exact UInt32.le_trans h.2 (by decide)

theorem toNat_of_isDigit {c : Char} (h : c.isDigit) : c.val.toUInt8.toNat = c.toNat := by
  simp only [Char.isDigit, Bool.and_eq_true, decide_eq_true_eq, UInt32.le_iff_toNat_le] at h
  have hle : c.toNat ≤ 57 := h.2
  show c.toNat % 256 = c.toNat
  omega

theorem numeral_eq (n : Nat) : numeral n = (Nat.toDigits 10 n).map (·.val.toUInt8) := by
  have htext : (toString n).toList = Nat.toDigits 10 n := Nat.toList_repr
  rw [numeral, Bytes.ofText_eq, htext, ← List.flatMap_pure_eq_map]
  exact List.flatMap_congr fun c hc => utf8EncodeChar_of_isDigit (isDigit_of_mem_toDigits hc)

theorem isDigit_of_mem_numeral {n : Nat} (h : b ∈ numeral n) : isDigit b := by
  rw [numeral_eq] at h
  obtain ⟨c, hc, rfl⟩ := List.mem_map.1 h
  have hdigit := isDigit_of_mem_toDigits hc
  have hnat := toNat_of_isDigit hdigit
  simp only [Char.isDigit, Bool.and_eq_true, decide_eq_true_eq, UInt32.le_iff_toNat_le] at hdigit
  simp only [isDigit, Bool.and_eq_true, decide_eq_true_eq, UInt8.le_iff_toNat_le, hnat]
  exact hdigit

theorem numeral_ne_nil (n : Nat) : numeral n ≠ [] := by
  simp [numeral_eq]

theorem head?_toDigits {n : Nat} (h : (Nat.toDigits 10 n).head? = some '0') : n = 0 := by
  induction n using Nat.strongRecOn with
  | _ n ih =>
    rw [Nat.toDigits_eq_if (by decide)] at h
    split at h
    · rename_i hlt
      have hall : ∀ n < 10, [n.digitChar].head? = some '0' → n = 0 := by decide
      exact hall n hlt h
    · rename_i hle
      rw [List.head?_append_of_ne_nil _ Nat.toDigits_ne_nil] at h
      have hdiv := ih (n / 10) (by omega) h
      omega

/-- A zero at the start stands alone. -/
theorem head?_numeral {n : Nat} (h : (numeral n).head? = some 0x30) : (numeral n).length = 1 := by
  rw [numeral_eq, List.head?_map, Option.map_eq_some_iff] at h
  obtain ⟨c, hc, hbyte⟩ := h
  have hnat := toNat_of_isDigit (isDigit_of_mem_toDigits (List.mem_of_mem_head? hc))
  have hzero : c = '0' := Char.toNat_inj.1 (by rw [← hnat, hbyte]; rfl)
  obtain rfl : n = 0 := head?_toDigits (hzero ▸ hc)
  decide

/-- The number is what its digits stand for. -/
theorem value_numeral (n : Nat) :
    Decimal.value ((numeral n).map fun d => d.toNat - '0'.toNat) = n := by
  have hdigits : (numeral n).map (fun d => d.toNat - '0'.toNat) =
      (Nat.toDigits 10 n).map fun c => c.toNat - '0'.toNat := by
    rw [numeral_eq, List.map_map]
    refine List.map_congr_left fun c hc => ?_
    rw [Function.comp_apply, toNat_of_isDigit (isDigit_of_mem_toDigits hc)]
  conv => rhs; rw [← Nat.ofDigitChars_ten_toDigits (n := n), Nat.ofDigitChars]
  rw [hdigits, Decimal.value, Decimal.valueFrom, List.foldl_map]
  simp only [Nat.mul_comm]

theorem parseDigits_numeral (n : Nat) (h : EndsNumber rest) :
    parseDigits (numeral n ++ rest) = some (numeral n, rest) := by
  have hdigits : ∀ b ∈ numeral n, isDigit b := fun b hb => isDigit_of_mem_numeral hb
  have hstop : ∀ b ∈ rest.head?, isDigit b = false := fun b hb => (h b hb).1
  rw [parseDigits, takeWhile_append_of_stop hdigits hstop, dropWhile_append_of_stop hdigits hstop]
  split
  · exact absurd ‹_› (numeral_ne_nil n)
  · rfl

theorem skipFraction?_of_endsNumber (h : EndsNumber rest) :
    skipFraction? rest = some (false, rest) := by
  cases rest with
  | nil => rfl
  | cons b rest => exact if_neg (h b rfl).2.1

theorem skipExponent?_of_endsNumber (h : EndsNumber rest) :
    skipExponent? rest = some (false, rest) := by
  cases rest with
  | nil => rfl
  | cons b rest => exact if_neg (not_or.2 (h b rfl).2.2)

theorem parseNumber_numeral (n : Nat) (h : EndsNumber rest) :
    parseNumber false (numeral n ++ rest) = some (⟨false, numeral n, true⟩, rest) := by
  have hzero : ¬((numeral n).head? = some 0x30 ∧ (numeral n).length ≠ 1) := fun hzero =>
    hzero.2 (head?_numeral hzero.1)
  simp only [parseNumber, parseDigits_numeral n h, bind, Option.bind, if_neg hzero,
    skipFraction?_of_endsNumber h, skipExponent?_of_endsNumber h, pure, Bool.not_false,
    Bool.and_self]

/-! ## Strings -/

/-- The bytes stand for themselves in a string. -/
def Plain (bs : Bytes) : Prop := ∀ b ∈ bs, b ≠ 0x22 ∧ ¬b < 0x20 ∧ b ≠ 0x5C

instance (bs : Bytes) : Decidable (Plain bs) :=
  List.decidableBAll (fun b => b ≠ 0x22 ∧ ¬b < 0x20 ∧ b ≠ 0x5C) bs

theorem parseString_plain (h : Plain bs) (rest : Bytes) :
    parseString (bs ++ 0x22 :: rest) = some (bs.map .byte, rest) := by
  induction bs with
  | nil => rw [List.nil_append, parseString.eq_def]; rfl
  | cons b bs ih =>
    obtain ⟨⟨hquote, hcontrol, hescape⟩, hbs⟩ := List.forall_mem_cons.1 h
    rw [List.cons_append, parseString.eq_def]
    simp only [if_neg hquote, if_neg hcontrol, if_neg hescape, ih hbs]
    rfl

theorem bytes?_map_byte (bs : Bytes) : Literal.bytes? (bs.map .byte) = some bs := by
  induction bs with
  | nil => rfl
  | cons b bs ih => rw [List.map_cons, Literal.bytes?, ih, Option.map_some]

theorem decode?_map_byte (s : String) :
    Literal.decode? ((Bytes.ofText s).map .byte) = some s := by
  rw [Literal.decode?, bytes?_map_byte, Option.bind_some, Utf8.decode?_eq_some_iff]

/-! ## Values -/

/-- The bytes are read as a value, wherever they stand before something that ends a number. -/
def Spells (bs : Bytes) (v : Value) : Prop :=
  ∀ fuel rest, EndsNumber rest → parseValue (fuel + 1) (bs ++ rest) = some (v, rest)

theorem spells_null : Spells (Bytes.ofText "null") .null := fun _ _ _ => rfl

theorem spells_bool (b : Bool) :
    Spells (Bytes.ofText (if b then "true" else "false")) (.bool b) := by
  cases b <;> exact fun _ _ _ => rfl

theorem spells_numeral (n : Nat) : Spells (numeral n) (.number ⟨false, numeral n, true⟩) := by
  intro fuel rest hrest
  have hparse := parseNumber_numeral n hrest
  have hdigits : ∀ b ∈ numeral n, isDigit b := fun b hb => isDigit_of_mem_numeral hb
  obtain ⟨first, digits, hdigitsEq⟩ := List.exists_cons_of_ne_nil (numeral_ne_nil n)
  rw [hdigitsEq] at hparse hdigits ⊢
  have hfirst : isDigit first := hdigits first List.mem_cons_self
  have hne (b : UInt8) (hb : isDigit b = false) : first ≠ b := by
    rintro rfl
    simp [hfirst] at hb
  rw [List.cons_append] at hparse ⊢
  have hspace : isSpace first = false := by
    simp [isSpace, hne 0x20 (by decide), hne 0x09 (by decide), hne 0x0A (by decide),
      hne 0x0D (by decide)]
  rw [parseValue, skipSpace_cons hspace]
  simp only [if_neg (hne 0x5B (by decide)), if_neg (hne 0x7B (by decide)), parseScalar,
    if_neg (hne 0x22 (by decide)), if_neg (hne 0x2D (by decide)), if_pos hfirst, hparse,
    Option.map_some]

/-! ## Objects -/

/-- A member of an object as it is written, with white space around its key and its value. -/
structure Written where
  beforeKey : Blank
  key : Bytes
  plain : Plain key
  afterKey : Blank
  beforeValue : Blank
  spelling : Bytes
  value : Value
  spells : Spells spelling value
  afterValue : Blank

namespace Written

/-- What comes behind the quote before the key. -/
def tail (m : Written) : Bytes :=
  m.key ++ 0x22 :: (m.afterKey.bytes ++ 0x3A :: (m.beforeValue.bytes ++
    (m.spelling ++ m.afterValue.bytes)))

def bytes (m : Written) : Bytes := m.beforeKey.bytes ++ 0x22 :: m.tail

/-- What is written. -/
def member (m : Written) : Literal × Value := (m.key.map .byte, m.value)

/-- A member that another one follows, or the brace of the object. -/
theorem parseMembers_bytes (m : Written) (fuel : Nat) (hb : b = 0x7D ∨ b = 0x2C) :
    parseMembers (fuel + 2) (m.bytes ++ b :: rest) =
      if b = 0x7D then some ([m.member], rest)
      else (parseMembers (fuel + 1) rest).map (Prod.map (m.member :: ·) id) := by
  have hends : EndsNumber (m.afterValue.bytes ++ b :: rest) := by
    refine endsNumber_append _ ?_
    simp only [EndsNumber, List.head?_cons, Option.mem_some_iff, forall_eq']
    rcases hb with rfl | rfl <;> decide
  have hspace : isSpace b = false := by rcases hb with rfl | rfl <;> decide
  have hvalue := m.spells fuel _ hends
  rw [bytes, List.append_assoc, parseMembers_append, parseMembers, List.cons_append,
    skipSpace_cons (by decide), tail]
  simp only [List.append_assoc, List.cons_append, parseString_plain m.plain, bind, Option.bind,
    skipSpace_append, skipSpace_cons (b := 0x3A) (by decide), parseValue_append, hvalue,
    skipSpace_cons hspace, ne_eq, not_true_eq_false, if_false, pure]
  rcases hb with rfl | rfl
  · rfl
  · cases parseMembers (fuel + 1) rest <;> rfl

/-- The members of an object and its brace. -/
theorem parseMembers_intercalate (m : Written) (ms : List Written) (fuel : Nat) (rest : Bytes) :
    parseMembers (fuel + ms.length + 2)
        ([0x2C].intercalate ((m :: ms).map bytes) ++ 0x7D :: rest) =
      some ((m :: ms).map member, rest) := by
  induction ms generalizing m with
  | nil =>
    rw [List.map_singleton, List.intercalate_singleton]
    exact (m.parseMembers_bytes fuel (.inl rfl)).trans (if_pos rfl)
  | cons next ms ih =>
    have hcons : [0x2C].intercalate ((m :: next :: ms).map bytes) ++ 0x7D :: rest =
        m.bytes ++ 0x2C :: ([0x2C].intercalate ((next :: ms).map bytes) ++ 0x7D :: rest) := by
      simp [List.intercalate_cons_cons]
    rw [hcons, List.length_cons, ← Nat.add_assoc, m.parseMembers_bytes _ (.inr rfl),
      if_neg (by decide), ih next]
    rfl

/-- The first key follows after white space. -/
theorem exists_skipSpace_intercalate (m : Written) (ms : List Written) (rest : Bytes) :
    ∃ tail, skipSpace ([0x2C].intercalate ((m :: ms).map bytes) ++ rest) = 0x22 :: tail := by
  have hbytes (rest : Bytes) : skipSpace (m.bytes ++ rest) = 0x22 :: (m.tail ++ rest) := by
    rw [bytes, List.append_assoc, skipSpace_append]
    exact skipSpace_cons (by decide) _
  cases ms with
  | nil =>
    rw [List.map_singleton, List.intercalate_singleton, hbytes]
    exact ⟨_, rfl⟩
  | cons next ms =>
    rw [List.map_cons, List.map_cons, List.intercalate_cons_cons, List.append_assoc,
      List.append_assoc, hbytes]
    exact ⟨_, rfl⟩

theorem length_le_intercalate (ms : List Written) :
    ms.length ≤ ([0x2C].intercalate (ms.map bytes)).length + 1 := by
  induction ms with
  | nil => simp
  | cons m ms ih =>
    cases ms with
    | nil => simp
    | cons next ms =>
      rw [List.map_cons, List.map_cons, List.intercalate_cons_cons, ← List.map_cons]
      simp only [List.length_append, List.length_cons] at ih ⊢
      omega

end Written

/-- An object as it is written, with white space before it, inside its braces and behind it. -/
def objectBytes (before inside behind : Blank) (ms : List Written) : Bytes :=
  before.bytes ++ 0x7B :: (inside.bytes ++
    ([0x2C].intercalate (ms.map Written.bytes) ++ 0x7D :: behind.bytes))

/-- An object is read as its members. -/
theorem parse?_objectBytes (before inside behind : Blank) (ms : List Written) :
    parse? (objectBytes before inside behind ms) = some (.object (ms.map Written.member)) := by
  have hfuel : ms.length + 4 ≤ 2 * (objectBytes before inside behind ms).length + 2 := by
    have hms := Written.length_le_intercalate ms
    simp only [objectBytes, List.length_append, List.length_cons]
    omega
  obtain ⟨fuel, hfuel⟩ := Nat.exists_eq_add_of_le hfuel
  rw [parse?, hfuel, objectBytes, parseValue_append]
  have hvalue : parseValue (ms.length + 4 + fuel) (0x7B :: (inside.bytes ++
      ([0x2C].intercalate (ms.map Written.bytes) ++ 0x7D :: behind.bytes))) =
        some (.object (ms.map Written.member), behind.bytes) := by
    have hsucc : ms.length + 4 + fuel = (fuel + 1 + ms.length + 2) + 1 := by omega
    rw [hsucc, parseValue, skipSpace_cons (by decide)]
    simp only [skipSpace_append]
    cases ms with
    | nil =>
      simp only [List.map_nil, List.intercalate_nil, List.nil_append,
        skipSpace_cons (b := 0x7D) (by decide)]
      rfl
    | cons m ms =>
      have hmembers := m.parseMembers_intercalate ms (fuel + 2) behind.bytes
      obtain ⟨tail, htail⟩ := m.exists_skipSpace_intercalate ms (0x7D :: behind.bytes)
      have hfuel : fuel + 1 + (m :: ms).length = fuel + 2 + ms.length := by
        rw [List.length_cons]
        omega
      rw [← parseMembers_skipSpace, htail] at hmembers
      rw [htail, hfuel]
      simp only [hmembers]
      rfl
  simp only [hvalue, skipSpace_blank, if_true]

end BytePair.Json
