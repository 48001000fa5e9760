import BytePair.Proofs.Operations
import BytePair.Proofs.Rounds
import BytePair.Session.Report

/-!
# What a failed call leaves behind

A call that fails should leave no trace: whoever asks the session later on should get the answers,
files and events of a session on which the call was never made.

* `Action.Atomic`: an action that fails has done nothing. Actions that look first and change
  something only when they cannot fail any more are so (`Action.Looks.bind`, `Action.Atomic.bind`).
* `Session.load_of_error`, `Session.ingest_of_error`: loading is so, and ingesting nearly: a document
  that cannot be read leaves an empty corpus open (`Session.opened`).
* `Session.Request`, `Session.transcript`: what a session can be asked, and everything that others
  notice of it while it answers one request after another.
* `Session.failed_call_unnoticed_iff`: no later requests can tell whether a failed call was made, but
  for a failed ingest into a released session.
-/

namespace BytePair

/-! ## Actions that do all or nothing -/

namespace Action

variable {σ α β : Type} {x : Action σ α} {f : α → Action σ β} {a : α} {e : Error} {s : σ}
  {files : FileTree}

/-- If the action fails, it has done nothing. -/
def Atomic (x : Action σ α) : Prop :=
  ∀ s files e, (x s files).result = .error e → x s files = ⟨.error e, s, files, [], []⟩

/-- The action does nothing but answer. -/
def Looks (x : Action σ α) : Prop :=
  ∀ s files, x s files = ⟨(x s files).result, s, files, [], []⟩

/-- The action does not fail. -/
def Succeeds (x : Action σ α) : Prop := ∀ s files, ∃ a, (x s files).result = .ok a

theorem Succeeds.atomic (hx : x.Succeeds) : x.Atomic := by
  intro s files e he
  obtain ⟨a, ha⟩ := hx s files
  cases ha.symm.trans he

theorem Succeeds.bind (hx : x.Succeeds) (hf : ∀ a, (f a).Succeeds) : (x >>= f).Succeeds := by
  intro s files
  obtain ⟨a, ha⟩ := hx s files
  rw [result_bind_of_ok ha]
  exact hf a _ _

/-- Looking first does no harm. -/
theorem Looks.bind (hx : x.Looks) (hf : ∀ a, (f a).Atomic) : (x >>= f).Atomic := by
  intro s files e he
  cases ha : (x s files).result with
  | error e' =>
    rw [result_bind_of_error ha] at he
    cases he
    exact bind_of_error (ha ▸ hx s files)
  | ok a =>
    have hlook : x s files = ⟨.ok a, s, files, [], []⟩ := ha ▸ hx s files
    have hrest : (x >>= f) s files = f a s files := by
      show andThen x f s files = _
      simp only [andThen, hlook, List.nil_append]
    rw [hrest] at he ⊢
    exact hf a s files e he

/-- Nor does going on with what cannot fail. -/
theorem Atomic.bind (hx : x.Atomic) (hf : ∀ a, (f a).Succeeds) : (x >>= f).Atomic := by
  intro s files e he
  cases ha : (x s files).result with
  | error e' =>
    rw [result_bind_of_error ha] at he
    cases he
    exact bind_of_error (hx s files _ ha)
  | ok a =>
    rw [result_bind_of_ok ha] at he
    obtain ⟨b, hb⟩ := hf a (x s files).state (x s files).files
    cases hb.symm.trans he

theorem looks_read (p : Path) : (read p : Action σ Bytes).Looks := fun _ _ => rfl

theorem looks_ofExcept (r : Except Error α) : (ofExcept r : Action σ α).Looks := by
  intro s files
  cases r <;> rfl

theorem succeeds_pure (a : α) : (pure a : Action σ α).Succeeds := fun _ _ => ⟨a, rfl⟩

theorem succeeds_get : (get : Action σ σ).Succeeds := fun s _ => ⟨s, rfl⟩

theorem succeeds_put (s : σ) : (put s : Action σ Unit).Succeeds := fun _ _ => ⟨(), rfl⟩

theorem succeeds_report (e : Event) : (report e : Action σ Unit).Succeeds := fun _ _ => ⟨(), rfl⟩

end Action

open BytePair.Action

theorem Vocabulary.atomic_load {σ : Type} (p : Path) : (load p : Action σ Vocabulary).Atomic :=
  (looks_read p).bind fun _ => (looks_ofExcept _).bind fun v =>
    ((succeeds_report _).bind fun _ => succeeds_pure v).atomic

theorem Corpus.atomic_ingestFile (p : Path) : (ingestFile p).Atomic := by
  intro c files e he
  cases hread : files.read p with
  | error fault =>
    rw [ingestFile_of_fault hread] at he ⊢
    cases he
    rfl
  | ok content =>
    have hok := (ingestFile_of_read hread c).1
    cases hok.symm.trans he

namespace Session

/-! ## Failed calls -/

variable {s : Session} {c : Corpus} {p : Path} {files : FileTree} {e : Error}

/-- The session with an empty corpus open, if nothing was active. -/
def opened (s : Session) : Session :=
  match s.stage with
  | .released => { s with stage := .collecting Corpus.fresh }
  | _ => s

theorem opened_of_ne (h : s.stage ≠ .released) : s.opened = s := by
  unfold opened
  split
  · exact absurd ‹_› h
  · rfl

/-- A file that cannot be loaded leaves nothing behind. -/
theorem load_of_error (h : (load p s files).result = .error e) :
    load p s files = ⟨.error e, s, files, [], []⟩ := by
  refine ((Vocabulary.atomic_load p).bind fun v => ?_) s files e h
  exact succeeds_get.bind fun _ => (succeeds_put _).bind fun _ => succeeds_pure _

theorem opened_of_corpus (hc : s.corpus? = some c) :
    s.opened = { s with stage := .collecting c } := by
  obtain ⟨config, stage⟩ := s
  cases stage with
  | released =>
    cases hc
    rfl
  | collecting c' =>
    cases hc
    rfl
  | ready v => cases hc

/-- A document that is not taken in leaves at most an empty corpus open. -/
theorem ingest_of_error (h : (ingest p s files).result = .error e) :
    ingest p s files = ⟨.error e, s.opened, files, [], []⟩ := by
  cases hc : s.corpus? with
  | none =>
    obtain ⟨v, hv⟩ := corpus?_eq_none_iff.1 hc
    rw [ingest_of_ready hv] at h ⊢
    cases h
    rw [opened_of_ne (by simp [hv])]
  | some c =>
    have hwithin := withCorpus_eq_within (Corpus.ingestFile p) hc files
    rw [ingest, hwithin] at h ⊢
    rw [within, Corpus.atomic_ingestFile p c files e h, opened_of_corpus hc]

/-! ## Conversations -/

/-- Whatever a session can be asked. -/
inductive Request where
  | ingest (p : Path)
  | ingestBytes (document : Bytes)
  | train
  | save (p : Path)
  | load (p : Path)
  | free
  | isLoaded
  | size
  | vocabulary
  | tokenize (given : String)
  | text (id : TokenId)
  | summary (level : Nat)
  | probe (given : String)

inductive Answer where
  | done
  | flag (b : Bool)
  | number (n : Nat)
  | vocabulary (v : Vocabulary)
  | tokens (ids : Sequence)
  | text (s : String)

/-- Answers what there is to say about the session. -/
def ask (question : Session → Except Error Answer) : Action Session Answer := do
  Action.ofExcept (question (← Action.get))

def Request.action : Request → Action Session Answer
  | ingest p => (fun _ => .done) <$> Session.ingest p
  | ingestBytes document => (fun _ => .done) <$> Session.ingestBytes document
  | train => .number <$> Session.train
  | save p => (fun _ => .done) <$> Session.save p
  | load p => .number <$> Session.load p
  | free => (fun _ => .done) <$> Session.free
  | isLoaded => ask fun s => .ok (.flag s.isLoaded)
  | size => ask fun s => s.size.map .number
  | vocabulary => ask fun s => s.vocabulary.map .vocabulary
  | tokenize given => ask fun s => (s.tokenize given).map .tokens
  | text id => ask fun s => .ok (.text (s.text id))
  | summary level => ask fun s => .ok (.text (s.summary level))
  | probe given => .number <$> Session.probe given

/-- What others notice while a session answers requests, one after the other: each answer, the files
that the next request finds, the events and what is printed. A request may fail, and the ones behind
it are answered all the same. -/
def transcript : List Request → Session → FileTree → List (Outcome Unit Answer)
  | [], _, _ => []
  | request :: later, s, files =>
    let o := request.action s files
    { o with state := () } :: transcript later o.state o.files

/-- Whatever is requested later, all is as if there had been no such action. -/
def Unnoticed {α : Type} (o : Outcome Session α) (s : Session) (files : FileTree) : Prop :=
  ∀ later, transcript later o.state o.files = transcript later s files

/-- An empty corpus has a size, and a released session has none. -/
theorem transcript_opened_ne (h : s.stage = .released) (files : FileTree) :
    transcript [.size] s.opened files ≠ transcript [.size] s files := by
  obtain ⟨config, stage⟩ := s
  obtain rfl : stage = .released := h
  intro heq
  have hresult := congrArg (List.map Outcome.result) heq
  have hsizes : [Except.ok (Answer.number 1)] = [Except.error Error.notLoaded] := hresult
  cases hsizes

/-- **Failed calls.** A failed load goes unnoticed. So does a failed ingest, but not if the session
was released: it leaves an empty corpus open. -/
theorem failed_call_unnoticed_iff (s : Session) (files : FileTree) (p : Path) :
    (∀ e, (load p s files).result = .error e → Unnoticed (load p s files) s files) ∧
      ∀ e, (ingest p s files).result = .error e →
        (Unnoticed (ingest p s files) s files ↔ s.stage ≠ .released) := by
  refine ⟨fun e he => ?_, fun e he => ?_⟩
  · rw [load_of_error he]
    exact fun later => rfl
  · rw [ingest_of_error he]
    constructor
    · intro hsame hreleased
      exact transcript_opened_ne hreleased files (hsame [.size])
    · intro hactive later
      rw [opened_of_ne hactive]

/-- A document that is missing and a vocabulary that is missing, while documents are collected. -/
theorem failed_call_unnoticed_iff_collecting :
    let files := FileTree.empty ["home"]
    let s : Session := ⟨{}, .collecting (Corpus.fresh.ingest [97, 98])⟩
    (load ⟨"v"⟩ s files).result = .error (.file ⟨"v"⟩ .notFound) ∧
      Unnoticed (load ⟨"v"⟩ s files) s files ∧
      (ingest ⟨"d"⟩ s files).result = .error (.file ⟨"d"⟩ .notFound) ∧
      Unnoticed (ingest ⟨"d"⟩ s files) s files := by
  intro files s
  have hload : (load ⟨"v"⟩ s files).result = .error (.file ⟨"v"⟩ .notFound) := by decide +kernel
  have hingest : (ingest ⟨"d"⟩ s files).result = .error (.file ⟨"d"⟩ .notFound) := by decide +kernel
  refine ⟨hload, (failed_call_unnoticed_iff s files ⟨"v"⟩).1 _ hload, hingest, ?_⟩
  exact ((failed_call_unnoticed_iff s files ⟨"d"⟩).2 _ hingest).2 (by simp [s])

/-- Saving an open corpus trains on it and saves the vocabulary. -/
theorem save_of_collecting_eq (hc : s.stage = .collecting c) (p : Path) (files : FileTree) :
    let v := (c.train s.config).corpus.vocabulary
    (save p s files).result = (v.save p { s with stage := .ready v } files).result ∧
      (save p s files).files = (v.save p { s with stage := .ready v } files).files := by
  obtain ⟨config, stage⟩ := s
  obtain rfl : stage = .collecting c := hc
  have hresult : (discard train ⟨config, .collecting c⟩ files).result = .ok () := rfl
  have hstate : (discard train ⟨config, .collecting c⟩ files).state =
      ⟨config, .ready (c.train config).corpus.vocabulary⟩ := rfl
  have hfiles : (discard train ⟨config, .collecting c⟩ files).files = files := rfl
  unfold save
  rw [get_bind]
  dsimp only
  rw [result_bind_of_ok hresult, files_bind_of_ok hresult, hstate, hfiles, get_bind]
  exact ⟨rfl, rfl⟩

/-- A document that is missing is asked of a new session. Saving was refused before and writes a
vocabulary of the unknown token after. -/
theorem failed_ingest_noticed :
    let files := FileTree.empty ["home"]
    let s := fresh {}
    let failed := ingest ⟨"d"⟩ s files
    failed.result = .error (.file ⟨"d"⟩ .notFound) ∧ ¬Unnoticed failed s files ∧
      (save ⟨"v"⟩ s files).result = .error .notLoaded ∧
      (save ⟨"v"⟩ failed.state failed.files).result = .ok () ∧
      (save ⟨"v"⟩ failed.state failed.files).files.read ⟨"v"⟩ = .ok Vocabulary.fresh.toBytes := by
  intro files s failed
  have hresult : failed.result = .error (.file ⟨"d"⟩ .notFound) := by decide +kernel
  have hfailed : failed = ⟨.error _, s.opened, files, [], []⟩ := ingest_of_error hresult
  have htrained : (Corpus.fresh.train {}).corpus = Corpus.fresh :=
    Corpus.Reachable.fresh.sound.train_eq_self rfl {}
  obtain ⟨hanswer, hfiles⟩ := save_of_collecting_eq (s := s.opened) rfl ⟨"v"⟩ files
  rw [show s.opened.config = {} from rfl, htrained] at hanswer hfiles
  refine ⟨hresult, fun hsame => ?_, rfl, ?_, ?_⟩
  · rw [hfailed] at hsame
    exact transcript_opened_ne (s := s) rfl files (hsame [.size])
  · rw [hfailed]
    exact hanswer.trans (by decide +kernel)
  · rw [hfailed]
    show (save ⟨"v"⟩ s.opened files).files.read ⟨"v"⟩ = _
    rw [hfiles]
    decide +kernel

end Session

end BytePair
