import BytePair.Training.Settings
import BytePair.Vocabulary.Encoding
import BytePair.Vocabulary.Storage

/-!
# Sessions

A session leads from documents to tokens: it collects documents, trains a vocabulary on them and
tokenizes with it, or loads a vocabulary that was saved before.

* `Session.ingest`, `Session.train`, `Session.save`, `Session.load`, `Session.free`: the
  operations that change a session.
* `Session.tokenize`, `Session.text`: what it answers.
-/

namespace BytePair

/-- Reads a configuration from a file. A file that cannot be opened is an error of its own; what
can be opened but not read, as a directory, does not hold a configuration. -/
def Config.load {σ : Type} (p : Path) : Action σ Config := fun s files =>
  let result := match files.read p with
    | .ok text => match Config.parse? text with
      | some c => .ok c
      | none => .error (.misconfigured (.invalidFile p))
    | .error .isADirectory | .error .inputOutput => .error (.misconfigured (.invalidFile p))
    | .error fault => .error (.file p fault)
  ⟨result, s, files, [], []⟩

namespace Corpus

/-- Appends a file as one document. -/
def ingestFile (p : Path) : Action Corpus Unit := do
  let content ← Action.read p
  if content.isEmpty then Action.report (.emptyDocument p)
  let c := (← Action.get).ingest content
  Action.put c
  Action.report (.ingested p content.length c.vocabulary.size)

/-- Trains on the documents, and answers why the run ended. -/
def trainReporting (config : Config) : Action Corpus StopReason := do
  let start := Training.start config (← Action.get)
  let run := start.run config
  Action.reportAll (start.events run)
  Action.put run.corpus
  return run.reason

/-- Trains on the documents, and answers the vocabulary. -/
def trainVocabulary (config : Config) : Action Corpus Vocabulary := do
  discard (trainReporting config)
  return (← Action.get).vocabulary

end Corpus

/-- Where a session stands. -/
inductive Stage where
  /-- Nothing is active. -/
  | released
  /-- Documents are collected. -/
  | collecting (corpus : Corpus)
  /-- There is a vocabulary to tokenize with. -/
  | ready (vocabulary : Vocabulary)

structure Session where
  config : Config
  stage : Stage

namespace Session

/-- A session in which nothing was done yet. -/
def fresh (config : Config) : Session := ⟨config, .released⟩

/-! ## What a session answers -/

def isLoaded (s : Session) : Bool :=
  match s.stage with
  | .ready _ => true
  | _ => false

def vocabulary (s : Session) : Except Error Vocabulary :=
  match s.stage with
  | .ready v => .ok v
  | .collecting c => .ok c.vocabulary
  | .released => .error .notLoaded

def size (s : Session) : Except Error Nat := s.vocabulary.map Vocabulary.size

/-- The tokens of a text. -/
def tokenize (s : Session) (text : String) : Except Error Sequence :=
  match s.stage with
  | .ready v => .ok (v.encode (Bytes.ofText text))
  | .collecting _ => .error .notTrained
  | .released => .error .nothingToTokenizeWith

/-- The text of a token. Without a vocabulary every token is unknown. -/
def text (s : Session) (id : TokenId) : String :=
  match s.vocabulary with
  | .ok v => v.text id
  | .error _ => unknownMarker

/-! ## Operations -/

/-- Works on the open corpus, which is started if nothing is active. -/
def withCorpus {α : Type} (x : Action Corpus α) : Action Session α := do
  let s ← Action.get
  match s.stage with
  | .ready _ => Action.fail .finalized
  | .released => Action.within Corpus.fresh (fun c => { s with stage := .collecting c }) x
  | .collecting c => Action.within c (fun c => { s with stage := .collecting c }) x

/-- Adds a file to the documents. -/
def ingest (p : Path) : Action Session Unit := withCorpus (Corpus.ingestFile p)

/-- Adds a document to the documents. -/
def ingestBytes (document : Bytes) : Action Session Unit :=
  withCorpus do Action.put ((← Action.get).ingest document)

/-- Trains on a corpus and keeps the vocabulary, whose size is the answer. -/
def trainOn (c : Corpus) : Action Session Nat := do
  let s ← Action.get
  let ready (c : Corpus) : Session := { s with stage := .ready c.vocabulary }
  Action.within c ready do return (← Corpus.trainVocabulary s.config).size

/-- Trains on the documents that were collected, and answers the size of the vocabulary. Without
documents the vocabulary has the unknown token only. A vocabulary that is ready stays. -/
def train : Action Session Nat := do
  match (← Action.get).stage with
  | .ready v => return v.size
  | .collecting c => trainOn c
  | .released => trainOn Corpus.fresh

/-- Saves the vocabulary; an open corpus is trained on first. -/
def save (p : Path) : Action Session Unit := do
  match (← Action.get).stage with
  | .collecting _ => discard train
  | _ => pure ()
  match (← Action.get).stage with
  | .ready v => v.save p
  | _ => Action.fail .notLoaded

/-- Replaces what is active by a saved vocabulary, and answers its size. A vocabulary that cannot
be loaded changes nothing. -/
def load (p : Path) : Action Session Nat := do
  let v ← Vocabulary.load p
  Action.put { ← Action.get with stage := .ready v }
  return v.size

/-- Releases what is active. -/
def free : Action Session Unit := do
  let s ← Action.get
  match s.stage with
  | .released => pure ()
  | _ => Action.report .released
  Action.put { s with stage := .released }

end Session

end BytePair
