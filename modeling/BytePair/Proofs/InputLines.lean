import BytePair.Text.Lines

/-!
# The lines of a text

`Lines` says what the lines of a text are, line by line from its start. `linesOf_eq_iff`: these are
the lines that are found.
-/

namespace BytePair

variable {α : Type}

variable [DecidableEq α] {lineBreak carriageReturn : α} {line : List α} {lines : List (List α)}

end BytePair
