import BytePair.Text.Split

/-!
# Lines

A line break ends a line, with a carriage return before it if there is one. What follows the last
line break is a line of its own if it is not empty, and keeps its carriage return.
-/

namespace BytePair

variable {α : Type} [DecidableEq α]

/-- A line without the carriage return at its end. -/
def dropReturn (carriageReturn : α) (line : List α) : List α :=
  if line.getLast? = some carriageReturn then line.dropLast else line

/-- The lines of a text. -/
def linesOf (lineBreak carriageReturn : α) (text : List α) : List (List α) :=
  let pieces := splitOn lineBreak text
  let unfinished := pieces.getLastD []
  pieces.dropLast.map (dropReturn carriageReturn) ++ if unfinished = [] then [] else [unfinished]

end BytePair
