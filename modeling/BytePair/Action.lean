import BytePair.Event

/-!
# Actions

What an operation does to the value it works on, to the files, and to those who read along. An
action that fails keeps everything it did before.

* `Action σ α`: an operation on a value of type `σ` that answers an `α`.
* `Action.andThen`: one action after another; an error stops the rest.
-/

namespace BytePair

/-- What an action leaves. -/
structure Outcome (σ α : Type) where
  result : Except Error α
  state : σ
  files : FileTree
  /-- The events reported, in order. -/
  log : List Event
  /-- The texts printed, in order. -/
  output : List String

/-- An operation on a value and the files. -/
def Action (σ α : Type) := σ → FileTree → Outcome σ α

namespace Action

variable {σ α β : Type}

/-- Answers a value and does nothing. -/
def answer (a : α) : Action σ α := fun s files => ⟨.ok a, s, files, [], []⟩

/-- Runs the second action on what the first one leaves, unless that failed. -/
def andThen (x : Action σ α) (f : α → Action σ β) : Action σ β := fun s files =>
  let first := x s files
  match first.result with
  | .error e => ⟨.error e, first.state, first.files, first.log, first.output⟩
  | .ok a =>
    let second := f a first.state first.files
    { second with log := first.log ++ second.log, output := first.output ++ second.output }

instance : Monad (Action σ) where
  pure := answer
  bind := andThen

/-- Stops with an error. -/
def fail (e : Error) : Action σ α := fun s files => ⟨.error e, s, files, [], []⟩

/-- Answers a result that may be an error. -/
def ofExcept : Except Error α → Action σ α
  | .ok a => answer a
  | .error e => fail e

def report (e : Event) : Action σ Unit := fun s files => ⟨.ok (), s, files, [e], []⟩

def reportAll (es : List Event) : Action σ Unit := fun s files => ⟨.ok (), s, files, es, []⟩

def print (text : String) : Action σ Unit := fun s files => ⟨.ok (), s, files, [], [text]⟩

def get : Action σ σ := fun s files => ⟨.ok s, s, files, [], []⟩

def put (s : σ) : Action σ Unit := fun _ files => ⟨.ok (), s, files, [], []⟩

def getFiles : Action σ FileTree := fun s files => ⟨.ok files, s, files, [], []⟩

/-! ## Files -/

def read (p : Path) : Action σ Bytes := fun s files =>
  ⟨(files.read p).mapError (.file p), s, files, [], []⟩

/-- Writes a file. If there is no room for all of it, the part that was written stays, and the
error is one for the shortage. -/
def createOr (ofShortage : Shortage → Error) (p : Path) (content : Bytes) : Action σ Unit :=
  fun s files =>
    match files.place p with
    | .error fault => ⟨.error (.file p fault), s, files, [], []⟩
    | .ok l => match files.fill l content with
      | (written, none) => ⟨.ok (), s, written, [], []⟩
      | (written, some shortage) => ⟨.error (ofShortage shortage), s, written, [], []⟩

def create (p : Path) (content : Bytes) : Action σ Unit :=
  createOr (fun shortage => .file p shortage.fault) p content

def makeDirectories (p : Path) : Action σ Unit := fun s files =>
  let (files, result) := files.makeDirectories p
  ⟨result.mapError (.file p), s, files, [], []⟩

/-- Moves a file over another place. If that fails, the file is removed, unless that fails too. -/
def moveOrRemove (source target : Path) : Action σ Unit := fun s files =>
  match files.moveFile source target with
  | .ok moved => ⟨.ok (), s, moved, [], []⟩
  | .error fault => ⟨.error (.file target fault), s, files.removeFile source, [], []⟩

/-- Runs an action on a part of a value, which `view` takes out and `set` puts back. -/
def within {τ : Type} (part : τ) (set : τ → σ) (x : Action τ α) : Action σ α := fun _ files =>
  let o := x part files
  ⟨o.result, set o.state, o.files, o.log, o.output⟩

end Action

end BytePair
