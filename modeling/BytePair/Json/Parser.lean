import BytePair.Json.Syntax

/-!
# Reading JSON

`Json.parse?` reads a text that is one JSON value with white space around it. The bytes of string
literals are not looked at, except that control bytes have to be written as escapes.
-/

namespace BytePair.Json

def isSpace (b : UInt8) : Bool := b = 0x20 || b = 0x09 || b = 0x0A || b = 0x0D

/-- The bytes without the white space at the start. -/
def skipSpace (bs : Bytes) : Bytes := bs.dropWhile isSpace

def isDigit (b : UInt8) : Bool := 0x30 ≤ b && b ≤ 0x39

/-- The bytes behind a word that they start with. -/
def dropWord? (word : String) (bs : Bytes) : Option Bytes :=
  let w := Bytes.ofText word
  if w.isPrefixOf bs then some (bs.drop w.length) else none

/-! ## Strings -/

def hexValue? (b : UInt8) : Option Nat :=
  if isDigit b then some (b.toNat - 0x30)
  else if 0x41 ≤ b ∧ b ≤ 0x46 then some (b.toNat - 0x41 + 10)
  else if 0x61 ≤ b ∧ b ≤ 0x66 then some (b.toNat - 0x61 + 10)
  else none

/-- The value of four hexadecimal digits. -/
def hexUnit? (a b c d : UInt8) : Option Nat := do
  return (((← hexValue? a) * 16 + (← hexValue? b)) * 16 + (← hexValue? c)) * 16 + (← hexValue? d)

/-- The byte that a one-letter escape stands for. -/
def escaped? (letter : UInt8) : Option UInt8 :=
  if letter = 0x22 ∨ letter = 0x5C ∨ letter = 0x2F then some letter
  else if letter = 0x62 then some 0x08
  else if letter = 0x66 then some 0x0C
  else if letter = 0x6E then some 0x0A
  else if letter = 0x72 then some 0x0D
  else if letter = 0x74 then some 0x09
  else none

/-- Reads a string literal behind its first quote. -/
def parseString : Bytes → Option (Literal × Bytes)
  | [] => none
  | b :: rest =>
    if b = 0x22 then some ([], rest)
    else if b < 0x20 then none
    else if b = 0x5C then
      match rest with
      | letter :: rest =>
        if letter = 0x75 then
          match rest with
          | h :: i :: j :: k :: rest =>
            match hexUnit? h i j k with
            | some u => (parseString rest).map fun (s, rest) => (.unit u :: s, rest)
            | none => none
          | _ => none
        else
          match escaped? letter with
          | some c => (parseString rest).map fun (s, rest) => (.byte c :: s, rest)
          | none => none
      | [] => none
    else (parseString rest).map fun (s, rest) => (.byte b :: s, rest)

/-! ## Numbers -/

/-- One digit or more. -/
def parseDigits (bs : Bytes) : Option (List UInt8 × Bytes) :=
  match bs.takeWhile isDigit with
  | [] => none
  | digits => some (digits, bs.dropWhile isDigit)

/-- The bytes behind an exponent, if there is one. -/
def skipExponent? : Bytes → Option (Bool × Bytes)
  | b :: rest =>
    if b = 0x65 ∨ b = 0x45 then
      let rest := match rest with
        | sign :: digits => if sign = 0x2B ∨ sign = 0x2D then digits else rest
        | [] => []
      (parseDigits rest).map fun (_, rest) => (true, rest)
    else some (false, b :: rest)
  | [] => some (false, [])

/-- The bytes behind a point with digits, if there is one. -/
def skipFraction? : Bytes → Option (Bool × Bytes)
  | b :: rest =>
    if b = 0x2E then (parseDigits rest).map fun (_, rest) => (true, rest)
    else some (false, b :: rest)
  | [] => some (false, [])

/-- Reads a number literal behind its sign. A zero at the start stands alone. -/
def parseNumber (negative : Bool) (bs : Bytes) : Option (Number × Bytes) := do
  let (digits, rest) ← parseDigits bs
  if digits.head? = some 0x30 ∧ digits.length ≠ 1 then failure
  let (hasFraction, rest) ← skipFraction? rest
  let (hasExponent, rest) ← skipExponent? rest
  return (⟨negative, digits, !hasFraction && !hasExponent⟩, rest)

/-! ## Values -/

/-- Reads a value that is no array and no object. -/
def parseScalar (first : UInt8) (rest : Bytes) : Option (Value × Bytes) :=
  if first = 0x22 then (parseString rest).map fun (s, rest) => (.string s, rest)
  else if first = 0x2D then (parseNumber true rest).map fun (n, rest) => (.number n, rest)
  else if isDigit first then
    (parseNumber false (first :: rest)).map fun (n, rest) => (.number n, rest)
  else if first = 0x6E then (dropWord? "ull" rest).map (.null, ·)
  else if first = 0x74 then (dropWord? "rue" rest).map (.bool true, ·)
  else if first = 0x66 then (dropWord? "alse" rest).map (.bool false, ·)
  else none

mutual

/-- Reads a value. Of two steps one takes a byte, so twice the number of bytes is enough `fuel`. -/
def parseValue (fuel : Nat) (bs : Bytes) : Option (Value × Bytes) :=
  match fuel with
  | 0 => none
  | fuel + 1 =>
    match skipSpace bs with
    | [] => none
    | first :: rest =>
      if first = 0x5B then
        match skipSpace rest with
        | [] => none
        | b :: behind =>
          if b = 0x5D then some (.array [], behind)
          else (parseItems fuel (b :: behind)).map fun (items, rest) => (.array items, rest)
      else if first = 0x7B then
        match skipSpace rest with
        | [] => none
        | b :: behind =>
          if b = 0x7D then some (.object [], behind)
          else (parseMembers fuel (b :: behind)).map fun (ms, rest) => (.object ms, rest)
      else parseScalar first rest

/-- Reads the items of an array, one or more, with the bracket behind them. -/
def parseItems (fuel : Nat) (bs : Bytes) : Option (List Value × Bytes) :=
  match fuel with
  | 0 => none
  | fuel + 1 => do
    let (item, rest) ← parseValue fuel bs
    match skipSpace rest with
    | [] => none
    | b :: rest =>
      if b = 0x5D then return ([item], rest)
      else if b = 0x2C then
        let (items, rest) ← parseItems fuel rest
        return (item :: items, rest)
      else none

/-- Reads the members of an object, one or more, with the brace behind them. -/
def parseMembers (fuel : Nat) (bs : Bytes) : Option (List (Literal × Value) × Bytes) :=
  match fuel with
  | 0 => none
  | fuel + 1 =>
    match skipSpace bs with
    | [] => none
    | quote :: rest => do
      if quote ≠ 0x22 then failure
      let (key, rest) ← parseString rest
      match skipSpace rest with
      | [] => none
      | colon :: rest =>
        if colon ≠ 0x3A then failure
        let (value, rest) ← parseValue fuel rest
        match skipSpace rest with
        | [] => none
        | b :: rest =>
          if b = 0x7D then return ([(key, value)], rest)
          else if b = 0x2C then
            let (members, rest) ← parseMembers fuel rest
            return ((key, value) :: members, rest)
          else none

end

/-- Reads a whole text. -/
def parse? (text : Bytes) : Option Value :=
  match parseValue (2 * text.length + 2) text with
  | some (value, rest) => if skipSpace rest = [] then some value else none
  | none => none

end BytePair.Json
