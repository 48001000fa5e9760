/-!
# Printing JSON

Values that the library exports, over several lines: two spaces of indentation for every level,
one item or member on a line, and empty containers without a line break.
-/

namespace BytePair.Json

/-- A value to be printed. -/
inductive Document where
  | number (n : Nat)
  | string (s : String)
  | array (items : List Document)
  | object (members : List (String × Document))

/-- The four hexadecimal digits of a control character. -/
def controlDigits (c : Char) : String :=
  let digits := Nat.toDigits 16 c.toNat
  String.ofList (List.replicate (4 - digits.length) '0' ++ digits)

/-- A character between the quotes of a string. Quotes, backslashes and control characters are
escaped. -/
def stringChar (c : Char) : String :=
  if c = '"' then "\\\""
  else if c = '\\' then "\\\\"
  else if c = '\x08' then "\\b"
  else if c = '\x0c' then "\\f"
  else if c = '\n' then "\\n"
  else if c = '\r' then "\\r"
  else if c = '\t' then "\\t"
  else if c.toNat < 0x20 then "\\u" ++ controlDigits c
  else c.toString

def stringText (s : String) : String := "\"" ++ String.join (s.toList.map stringChar) ++ "\""

/-- A line break and the indentation of a level. -/
def lineBreak (level : Nat) : String := "\n" ++ String.ofList (List.replicate (2 * level) ' ')

mutual

/-- A value at a level, which is the level of its last line. -/
def Document.text (level : Nat) : Document → String
  | .number n => toString n
  | .string s => stringText s
  | .array [] => "[]"
  | .array (item :: items) =>
    "[" ++ lineBreak (level + 1) ++ Document.text (level + 1) item ++
      itemsText (level + 1) items ++ lineBreak level ++ "]"
  | .object [] => "\x7b\x7d"
  | .object ((key, value) :: members) =>
    "\x7b" ++ lineBreak (level + 1) ++ stringText key ++ ": " ++
      Document.text (level + 1) value ++ membersText (level + 1) members ++
      lineBreak level ++ "\x7d"

/-- Items after the first one. -/
def itemsText (level : Nat) : List Document → String
  | [] => ""
  | item :: items =>
    "," ++ lineBreak level ++ Document.text level item ++ itemsText level items

/-- Members after the first one. -/
def membersText (level : Nat) : List (String × Document) → String
  | [] => ""
  | (key, value) :: members =>
    "," ++ lineBreak level ++ stringText key ++ ": " ++ Document.text level value ++
      membersText level members

end

/-- A value, printed from the start of a line. -/
def Document.pretty (d : Document) : String := d.text 0

end BytePair.Json
