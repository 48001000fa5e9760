import BytePair.Token

/-!
# UTF-8 text

* `Utf8.decode?`: the text of a byte string, if it is well-formed UTF-8.
* `Utf8.lossy`: the text of any byte string; U+FFFD stands for what is malformed, one for each
  longest run of bytes that starts a character and breaks off.
-/

namespace BytePair.Utf8

/-- The character that stands for malformed bytes. -/
def replacement : Char := '\uFFFD'

/-- The bytes from `low` to `high` that may come next in a character, and how many more
continuation bytes follow that one. -/
structure Expected where
  low : UInt8
  high : UInt8
  more : Nat

/-- What may follow the first byte of a character of several bytes. The limits exclude overlong
forms, surrogates, and code points above U+10FFFF. -/
def expected? (first : UInt8) : Option Expected :=
  if 0xC2 ≤ first ∧ first ≤ 0xDF then some ⟨0x80, 0xBF, 0⟩
  else if first = 0xE0 then some ⟨0xA0, 0xBF, 1⟩
  else if first = 0xED then some ⟨0x80, 0x9F, 1⟩
  else if 0xE1 ≤ first ∧ first ≤ 0xEF then some ⟨0x80, 0xBF, 1⟩
  else if first = 0xF0 then some ⟨0x90, 0xBF, 2⟩
  else if 0xF1 ≤ first ∧ first ≤ 0xF3 then some ⟨0x80, 0xBF, 2⟩
  else if first = 0xF4 then some ⟨0x80, 0x8F, 2⟩
  else none

/-- The low bits of a first byte, of which `length` bytes follow. -/
def leadBits (first : UInt8) (length : Nat) : Nat :=
  if length = 1 then first.toNat % 0x20 else if length = 2 then first.toNat % 0x10
  else first.toNat % 0x08

/-- Whether a byte may continue a character after its second byte. -/
def isContinuation (b : UInt8) : Bool := 0x80 ≤ b && b ≤ 0xBF

/-- The code point with the six bits of every continuation byte appended. -/
def appendBits (code : Nat) (bytes : Bytes) : Nat :=
  bytes.foldl (fun code b => code * 64 + b.toNat % 64) code

/-- What stands at the start of a byte string. -/
inductive Head where
  /-- A character, which takes `used` bytes after the first one. -/
  | char (c : Char) (used : Nat)
  /-- The start of a character that breaks off, of `used` bytes after the first one. -/
  | malformed (used : Nat)

/-- Reads the character that starts with `first`. -/
def head (first : UInt8) (rest : Bytes) : Head :=
  if first < 0x80 then .char (Char.ofNat first.toNat) 0
  else match expected? first with
    | none => .malformed 0
    | some e =>
      match rest with
      | [] => .malformed 0
      | second :: tail =>
        if second < e.low ∨ e.high < second then .malformed 0
        else
          let good := (tail.take e.more).takeWhile isContinuation
          if good.length = e.more then
            .char (Char.ofNat (appendBits (leadBits first (e.more + 1)) (second :: good)))
              (e.more + 1)
          else .malformed (good.length + 1)

/-- The text of a byte string, with U+FFFD for what is malformed. -/
def lossyChars : Bytes → List Char
  | [] => []
  | first :: rest =>
    match head first rest with
    | .char c used => c :: lossyChars (rest.drop used)
    | .malformed used => replacement :: lossyChars (rest.drop used)
termination_by bs => bs.length
decreasing_by all_goals simp only [List.length_drop, List.length_cons]; omega

def lossy (bs : Bytes) : String := String.ofList (lossyChars bs)

/-- The characters of a well-formed byte string. -/
def chars? : Bytes → Option (List Char)
  | [] => some []
  | first :: rest =>
    match head first rest with
    | .char c used => (chars? (rest.drop used)).map (c :: ·)
    | .malformed _ => none
termination_by bs => bs.length
decreasing_by all_goals simp only [List.length_drop, List.length_cons]; omega

/-- Nothing of a well-formed byte string is lost. -/
theorem lossyChars_eq_of_chars? {bs : Bytes} {cs : List Char} (h : chars? bs = some cs) :
    lossyChars bs = cs := by
  fun_induction chars? bs generalizing cs with
  | case1 => simp_all [lossyChars]
  | case2 first rest c used hhead ih =>
    obtain ⟨ds, hds, rfl⟩ := Option.map_eq_some_iff.1 h
    rw [lossyChars, hhead]
    simp [ih hds]
  | case3 => simp at h

/-- The text of a byte string that is well-formed. -/
def decode? (bs : Bytes) : Option String := (chars? bs).map String.ofList

end BytePair.Utf8
