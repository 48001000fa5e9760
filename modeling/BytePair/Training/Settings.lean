import BytePair.Json.Parser
import BytePair.Training.Config

/-!
# Configurations in JSON

* `Config.json`: a configuration as an object with all its settings.
* `Config.parse?`: reads an object in which settings may be missing, or an array of the first
  settings in their order. What is missing has its default. Other members of an object are ignored,
  but no setting may be given twice.
-/

namespace BytePair

/-- The settings of a configuration, each with its own key. -/
inductive Setting where
  | minFrequency | vocabularySize | maxTokenLength | showProgress | parallel
  deriving DecidableEq, Repr

namespace Setting

def key : Setting → String
  | minFrequency => "min_frequency"
  | vocabularySize => "vocab_size"
  | maxTokenLength => "max_token_length"
  | showProgress => "show_progress"
  | parallel => "parallel"

/-- The order of the settings in an array. -/
def all : List Setting := [minFrequency, vocabularySize, maxTokenLength, showProgress, parallel]

def ofKey? (key : String) : Option Setting := all.find? (·.key = key)

end Setting

namespace Config

/-! ## Writing -/

/-- The value of a setting as JSON. -/
def valueText (c : Config) : Setting → String
  | .minFrequency => toString c.minFrequency
  | .vocabularySize => toString c.vocabularySize
  | .maxTokenLength => match c.maxTokenLength with
    | some n => toString n
    | none => "null"
  | .showProgress => if c.showProgress then "true" else "false"
  | .parallel => if c.parallel then "true" else "false"

/-- A setting as the member of an object. -/
def memberText (c : Config) (s : Setting) : String := "\"" ++ s.key ++ "\":" ++ c.valueText s

/-- An object with some settings. -/
def jsonOf (c : Config) (settings : List Setting) : String :=
  "\x7b" ++ ",".intercalate (settings.map c.memberText) ++ "\x7d"

/-- The whole configuration as an object, without white space. -/
def json (c : Config) : String := c.jsonOf Setting.all

/-! ## Reading -/

/-- A number that is written as a natural number below `2 ^ 64`. -/
def natural? : Json.Value → Option Nat
  | .number n => n.natBelow? UInt64.size
  | _ => none

def flag? : Json.Value → Option Bool
  | .bool b => some b
  | _ => none

/-- The configuration with a setting changed to a value of the right kind. Only the length may be
null. -/
def assign? (c : Config) (s : Setting) (v : Json.Value) : Option Config :=
  match s with
  | .minFrequency => (natural? v).map fun n => { c with minFrequency := n }
  | .vocabularySize => (natural? v).map fun n => { c with vocabularySize := n }
  | .maxTokenLength => match v with
    | .null => some { c with maxTokenLength := none }
    | v => (natural? v).map fun n => { c with maxTokenLength := some n }
  | .showProgress => (flag? v).map fun b => { c with showProgress := b }
  | .parallel => (flag? v).map fun b => { c with parallel := b }

/-- Takes over the members of an object, after the settings that were given already. -/
def ofMembers? (c : Config) (given : List Setting) :
    List (Json.Literal × Json.Value) → Option Config
  | [] => some c
  | (key, v) :: rest =>
    match key.decode? with
    | none => none
    | some key =>
      match Setting.ofKey? key with
      | none => ofMembers? c given rest
      | some s =>
        if s ∈ given then none
        else match c.assign? s v with
          | none => none
          | some c => ofMembers? c (s :: given) rest

/-- Takes over the items of an array, which are values of the given settings. -/
def ofItems? (c : Config) : List Setting → List Json.Value → Option Config
  | _, [] => some c
  | [], _ :: _ => none
  | s :: settings, v :: rest => (c.assign? s v).bind fun c => ofItems? c settings rest

def ofJson? : Json.Value → Option Config
  | .object members => ofMembers? {} [] members
  | .array items => ofItems? {} Setting.all items
  | _ => none

/-- Reads a configuration. -/
def parse? (text : Bytes) : Option Config := (Json.parse? text).bind ofJson?

end Config

end BytePair
