import BytePair.Text.Decimal
import BytePair.Text.Utf8

/-!
# JSON values

A JSON text as it is written: string literals keep their escapes, and number literals their
digits, so that reading decides nothing about values that nobody looks at.

* `Literal.decode?`: the text of a string literal, if it has one.
* `Number.natBelow?`: the value of a literal that is written as a natural number.
-/

namespace BytePair.Json

/-- A part of a string literal. -/
inductive Piece where
  /-- A byte that stands for itself, or that a one-letter escape stands for. -/
  | byte (b : UInt8)
  /-- An escape with four hexadecimal digits, which is a UTF-16 unit. -/
  | unit (u : Nat)
  deriving DecidableEq, Repr

/-- What stands between the quotes of a string literal. -/
abbrev Literal := List Piece

/-- A number literal. -/
structure Number where
  negative : Bool
  /-- The digits before a point or an exponent. -/
  digits : List UInt8
  /-- Whether there is neither a point nor an exponent. -/
  isInteger : Bool
  deriving DecidableEq, Repr

inductive Value where
  | null
  | bool (b : Bool)
  | number (n : Number)
  | string (s : Literal)
  | array (items : List Value)
  | object (members : List (Literal × Value))

/-- The UTF-8 form of a code point that is no surrogate. -/
def codePointBytes (code : Nat) : Bytes := Bytes.ofText (Char.ofNat code).toString

def isHighSurrogate (u : Nat) : Bool := 0xD800 ≤ u && u ≤ 0xDBFF

def isLowSurrogate (u : Nat) : Bool := 0xDC00 ≤ u && u ≤ 0xDFFF

/-- The bytes of a string literal. A surrogate has to be half of a pair. -/
def Literal.bytes? : Literal → Option Bytes
  | [] => some []
  | .byte b :: rest => (bytes? rest).map (b :: ·)
  | .unit u :: rest =>
    if isLowSurrogate u then none
    else if isHighSurrogate u then
      match rest with
      | .unit low :: rest =>
        if isLowSurrogate low then
          (bytes? rest).map
            (codePointBytes (0x10000 + (u - 0xD800) * 0x400 + (low - 0xDC00)) ++ ·)
        else none
      | _ => none
    else (bytes? rest).map (codePointBytes u ++ ·)

/-- The text of a string literal, which may not have one. -/
def Literal.decode? (s : Literal) : Option String := (Literal.bytes? s).bind Utf8.decode?

/-- The value of a literal without a sign, a point and an exponent, if it is below the limit. -/
def Number.natBelow? (limit : Nat) (n : Number) : Option Nat :=
  if n.isInteger && !n.negative then
    Decimal.below? limit (n.digits.map fun d => d.toNat - '0'.toNat)
  else none

end BytePair.Json
