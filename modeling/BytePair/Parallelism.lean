import BytePair.Text.Blank
import BytePair.Text.Utf8

/-!
# The parallelism switch

An environment variable may forbid counting by several workers. Only four words forbid it; any
other value, and no value, allows it.
-/

namespace BytePair.Parallelism

/-- The name of the variable. -/
def variableName : String := "CODEBPE_PARALLELISM"

/-- The values that forbid it. -/
def forbidding : List String := ["false", "off", "no", "0"]

/-- Whether a value allows it. White space around the value and the case of its letters do not
matter. Lower-casing ASCII is enough: no other character has one of the letters of the four words
as its lower case. -/
def allows (value : String) : Bool :=
  !forbidding.contains (String.ofList ((Text.trimBlank value.toList).map Char.toLower))

/-- Whether an environment allows it, in which the variable may have no value, or one that is no
text. -/
def allowedBy (value? : Option Bytes) : Bool :=
  match value?.bind Utf8.decode? with
  | some value => allows value
  | none => true

end BytePair.Parallelism
