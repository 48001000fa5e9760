import BytePair.Text.GraphemeExtend
import BytePair.Text.Unprintable

/-!
# Quoted text

A text between double quotes that shows every character: what has no glyph of its own, or would be
drawn onto its neighbour, is written as an escape.

* `quote`: one text; `quoteList`: several, in brackets.
-/

namespace BytePair.Text

/-- The code point in lower-case hexadecimal, without leading zeros. -/
def hexDigits (c : Char) : String := String.ofList (Nat.toDigits 16 c.toNat)

/-- A character as it is written between quotes. -/
def quoteChar (c : Char) : String :=
  if c = '\x00' then "\\0"
  else if c = '\t' then "\\t"
  else if c = '\r' then "\\r"
  else if c = '\n' then "\\n"
  else if c = '"' then "\\\""
  else if c = '\\' then "\\\\"
  else if isGraphemeExtend c || isUnprintable c then "\\u\x7b" ++ hexDigits c ++ "\x7d"
  else c.toString

/-- A text between double quotes. -/
def quote (s : String) : String := "\"" ++ String.join (s.toList.map quoteChar) ++ "\""

/-- Items between brackets, set off by commas. -/
def bracketed (items : List String) : String := "[" ++ ", ".intercalate items ++ "]"

/-- Texts between brackets, each of them quoted. -/
def quoteList (texts : List String) : String := bracketed (texts.map quote)

end BytePair.Text
