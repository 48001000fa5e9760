import BytePair.Files.Tree
import BytePair.Text.Quoted
import BytePair.Vocabulary.Binary

/-!
# Errors

Every way in which an operation of the library can fail, by cause, with one message each.
-/

namespace BytePair

/-- The two command lines. -/
inductive Command where
  /-- Builds a vocabulary from files. -/
  | build
  /-- Probes a saved vocabulary with lines of text. -/
  | probe
  deriving DecidableEq, Repr

/-- How a command is called. -/
def Command.usage : Command → String
  | build => "usage: codebpe <vocab.bin> <file-or-dir>... [--config trainer.json] " ++
      "[--export dir] [--dot merges.dot] [--summary level]"
  | probe => "usage: bpe_main <vocab.bin> [--summary level]"

/-- What is wrong with the settings of a run. -/
inductive Misconfiguration where
  /-- The arguments do not fit the command. -/
  | usage (command : Command)
  /-- An option is the last argument. -/
  | missingValue (command : Command) (option : String)
  /-- The summary level is not a number. -/
  | invalidLevel (given : String)
  /-- An argument follows the last one that is allowed. -/
  | unexpectedArgument (command : Command) (given : String)
  /-- A file does not hold a configuration. -/
  | invalidFile (path : Path)
  deriving DecidableEq, Repr

/-- The problem in words. Behind the path of a file that holds no configuration, and a colon, comes
what its reader has to say, which is left out here. -/
def Misconfiguration.message : Misconfiguration → String
  | usage command => command.usage
  | missingValue command option => s!"{option} needs a value\n{command.usage}"
  | invalidLevel given => s!"invalid summary level {Text.quote given}"
  | unexpectedArgument command given =>
    s!"unexpected argument {Text.quote given}\n{command.usage}"
  | invalidFile path => s!"{path}:"

/-- Why an operation failed. -/
inductive Error where
  | file (path : Path) (fault : Fault)
  | corrupt (corruption : Corruption)
  /-- The operation needs a vocabulary, and there is none. -/
  | notLoaded
  | unknownToken (id : TokenId)
  /-- A text was to be tokenized before training. -/
  | notTrained
  /-- A text was to be tokenized without a vocabulary. -/
  | nothingToTokenizeWith
  /-- A document came after training. -/
  | finalized
  | misconfigured (problem : Misconfiguration)
  /-- A JSON document could not be written to the end. -/
  | json (fault : Fault)
  deriving DecidableEq, Repr

def Error.message : Error → String
  | file path fault => s!"I/O error for {path}: {fault.message}"
  | corrupt corruption => s!"corrupt vocabulary file: {corruption.message}"
  | notLoaded => "no vocabulary loaded"
  | unknownToken id => s!"unknown token id: {id}"
  | notTrained => "tokenization failed: vocabulary is not trained yet"
  | nothingToTokenizeWith => "tokenization failed: no vocabulary loaded"
  | finalized => "vocabulary is finalized; free it before ingesting new files"
  | misconfigured problem => s!"invalid configuration: {problem.message}"
  | json fault => s!"JSON error: {fault.message}"

/-- The bytes of a token that has to be in the table. -/
def Vocabulary.expectBytes (v : Vocabulary) (id : TokenId) : Except Error Bytes :=
  match v.bytes? id with
  | some bs => .ok bs
  | none => .error (.unknownToken id)

end BytePair
