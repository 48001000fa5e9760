import BytePair.Session

/-!
# What the operations of a session do

One statement for each operation and each way in which it can end: what it answers, and what it
leaves of the session.

* `Action.state_bind_of_ok`, `Action.Keeps`: actions in sequence, and actions that work on files and
  reports only.
* `Session.corpus?`: the corpus that documents go into.
* `Session.ingest_of_read`, `Session.train_of_corpus`, `Session.load_cases` and so on.
-/

namespace BytePair

/-! ## Actions in sequence -/

namespace Action

variable {σ α β : Type} {x : Action σ α} {f : α → Action σ β} {a : α} {e : Error} {s : σ}
  {files : FileTree}

theorem state_bind_of_ok (h : (x s files).result = .ok a) :
    ((x >>= f) s files).state = (f a (x s files).state (x s files).files).state := by
  show (andThen x f s files).state = _
  simp only [andThen, h]

theorem state_bind_of_error (h : (x s files).result = .error e) :
    ((x >>= f) s files).state = (x s files).state := by
  show (andThen x f s files).state = _
  simp only [andThen, h]

theorem result_bind_of_ok (h : (x s files).result = .ok a) :
    ((x >>= f) s files).result = (f a (x s files).state (x s files).files).result := by
  show (andThen x f s files).result = _
  simp only [andThen, h]

theorem files_bind_of_ok (h : (x s files).result = .ok a) :
    ((x >>= f) s files).files = (f a (x s files).state (x s files).files).files := by
  show (andThen x f s files).files = _
  simp only [andThen, h]

theorem files_bind_of_error (h : (x s files).result = .error e) :
    ((x >>= f) s files).files = (x s files).files := by
  show (andThen x f s files).files = _
  simp only [andThen, h]

theorem result_bind_of_error (h : (x s files).result = .error e) :
    ((x >>= f) s files).result = .error e := by
  show (andThen x f s files).result = _
  simp only [andThen, h]

section Outcomes

variable {s' : σ} {files' : FileTree} {log : List Event} {output : List String}

theorem bind_of_error (h : x s files = ⟨.error e, s', files', log, output⟩) :
    (x >>= f) s files = ⟨.error e, s', files', log, output⟩ := by
  show andThen x f s files = _
  simp only [andThen, h]

end Outcomes

/-- Two actions in sequence succeed just if both do. -/
theorem result_bind_eq_ok_iff {b : β} : ((x >>= f) s files).result = .ok b ↔
    ∃ a, (x s files).result = .ok a ∧ (f a (x s files).state (x s files).files).result = .ok b := by
  cases h : (x s files).result with
  | error e => simp [result_bind_of_error h]
  | ok a => simp [result_bind_of_ok h]

/-- The action succeeds, answers `a`, and leaves the value `s'` and the files `files'`. -/
structure Leads (x : Action σ α) (s : σ) (files : FileTree) (a : α) (s' : σ) (files' : FileTree) :
    Prop where
  result_eq : (x s files).result = .ok a
  state_eq : (x s files).state = s'
  files_eq : (x s files).files = files'

/-- An action that is known in full leads to what it is known to leave. -/
theorem Leads.of_eq {s' t : σ} {files' g : FileTree} {r : Except Error α} {log : List Event}
    {output : List String} (h : x.Leads s files a s' files')
    (ho : x s files = ⟨r, t, g, log, output⟩) : r = .ok a ∧ t = s' ∧ g = files' := by
  obtain ⟨hresult, hstate, hfiles⟩ := h
  rw [ho] at hresult hstate hfiles
  exact ⟨hresult, hstate, hfiles⟩

theorem leads_ofExcept_iff {r : Except Error α} {s' : σ} {files' : FileTree} :
    (ofExcept r).Leads s files a s' files' ↔ r = .ok a ∧ s = s' ∧ files = files' := by
  constructor
  · intro h
    cases r with
    | error e => cases h.result_eq
    | ok b => exact h.of_eq rfl
  · rintro ⟨rfl, rfl, rfl⟩
    exact ⟨rfl, rfl, rfl⟩

theorem Leads.unique {b : α} {s' t : σ} {files' g : FileTree} (h : x.Leads s files a s' files')
    (h' : x.Leads s files b t g) : a = b ∧ s' = t ∧ files' = g :=
  ⟨Except.ok.inj (h.result_eq.symm.trans h'.result_eq), h.state_eq.symm.trans h'.state_eq,
    h.files_eq.symm.trans h'.files_eq⟩

theorem discard_eq (x : Action σ α) (s : σ) (files : FileTree) :
    (discard x s files).result = (x s files).result.map (fun _ => ()) ∧
      (discard x s files).state = (x s files).state := by
  have h : discard x = x >>= fun _ => pure () := rfl
  rw [h]
  cases hx : (x s files).result with
  | error e => exact ⟨result_bind_of_error hx, state_bind_of_error hx⟩
  | ok a => exact ⟨result_bind_of_ok hx, state_bind_of_ok hx⟩

theorem get_bind (g : σ → Action σ β) : (get >>= g) s files = g s s files := rfl

/-- Whatever happens, the value is what it was; only files change and events are reported. -/
def Keeps (x : Action σ α) : Prop := ∀ s files, (x s files).state = s

theorem Keeps.bind (hx : x.Keeps) (hf : ∀ a, (f a).Keeps) : (x >>= f).Keeps := by
  intro s files
  cases h : (x s files).result with
  | error e => rw [state_bind_of_error h, hx]
  | ok a => rw [state_bind_of_ok h, hf, hx]

theorem keeps_createOr (ofShortage : Shortage → Error) (p : Path) (content : Bytes) :
    (createOr ofShortage p content : Action σ Unit).Keeps := by
  intro s files
  unfold createOr
  split
  · rfl
  · split <;> rfl

theorem keeps_moveOrRemove (source target : Path) :
    (moveOrRemove source target : Action σ Unit).Keeps := by
  intro s files
  unfold moveOrRemove
  cases files.moveFile source target <;> rfl

end Action

theorem Vocabulary.keeps_save {σ : Type} (v : Vocabulary) (p : Path) :
    (v.save p : Action σ Unit).Keeps :=
  (Action.keeps_createOr _ _ _).bind fun _ => (Action.keeps_moveOrRemove _ _).bind fun _ _ _ => rfl

/-! ## Reading and writing files -/

section Files

variable {p : Path} {files written : FileTree} {content : Bytes} {fault : Fault} {l : Location}
  {shortage : Shortage}

theorem Action.read_of_ok {σ : Type} (h : files.read p = .ok content) (s : σ) :
    Action.read p s files = ⟨.ok content, s, files, [], []⟩ := by
  rw [Action.read, h]
  rfl

theorem Action.read_of_error {σ : Type} (h : files.read p = .error fault) (s : σ) :
    Action.read p s files = ⟨.error (.file p fault), s, files, [], []⟩ := by
  rw [Action.read, h]
  rfl

theorem Action.createOr_of_fault {σ : Type} (h : files.place p = .error fault)
    (ofShortage : Shortage → Error) (content : Bytes) (s : σ) :
    createOr ofShortage p content s files = ⟨.error (.file p fault), s, files, [], []⟩ := by
  simp only [createOr, h]

/-- Where the room runs out, the part that was written stays. -/
theorem Action.createOr_of_shortage {σ : Type} (hplace : files.place p = .ok l)
    (hroom : files.shortageOf l content = some shortage) (ofShortage : Shortage → Error) (s : σ) :
    createOr ofShortage p content s files =
      ⟨.error (ofShortage shortage), s, files.set l (.file (content.take shortage.room)), [], []⟩ := by
  simp only [createOr, hplace, FileTree.fill, hroom]

theorem Action.createOr_of_create {σ : Type} (h : files.create p content = .ok written)
    (ofShortage : Shortage → Error) (s : σ) :
    createOr ofShortage p content s files = ⟨.ok (), s, written, [], []⟩ := by
  cases hplace : files.place p with
  | error fault =>
    simp only [FileTree.create, hplace] at h
    cases h
  | ok l =>
    simp only [FileTree.create, hplace, bind, Except.bind] at h
    simp only [createOr, hplace]
    split at h
    · cases h
    · rename_i hfill
      rw [hfill, Except.ok.inj h]

theorem Corpus.ingestFile_of_read (h : files.read p = .ok content) (c : Corpus) :
    (ingestFile p c files).result = .ok () ∧ (ingestFile p c files).state = c.ingest content := by
  unfold ingestFile
  simp only [bind, Action.andThen, Action.read_of_ok h]
  cases content <;> exact ⟨rfl, rfl⟩

theorem Corpus.ingestFile_of_fault (h : files.read p = .error fault) (c : Corpus) :
    ingestFile p c files = ⟨.error (.file p fault), c, files, [], []⟩ := by
  unfold ingestFile
  simp only [bind, Action.andThen, Action.read_of_error h]

/-- A vocabulary is loaded if its file can be read and is a vocabulary. -/
theorem Vocabulary.load_cases {σ : Type} (p : Path) (s : σ) (files : FileTree) :
    (load p s files).state = s ∧
      ((∃ content v, files.read p = .ok content ∧ ofBytes content = .ok v ∧
        (load p s files).result = .ok v) ∨ ∃ e, (load p s files).result = .error e) := by
  unfold load
  cases hread : files.read p with
  | error fault =>
    simp only [bind, Action.andThen, Action.read_of_error hread]
    exact ⟨trivial, .inr ⟨_, rfl⟩⟩
  | ok content =>
    simp only [bind, Action.andThen, Action.read_of_ok hread]
    cases hv : ofBytes content with
    | error reason => exact ⟨rfl, .inr ⟨_, rfl⟩⟩
    | ok v => exact ⟨rfl, .inl ⟨content, v, rfl, hv, rfl⟩⟩

end Files

/-! ## Operations -/

namespace Session

variable {s : Session} {c : Corpus} {v : Vocabulary} {p : Path} {files : FileTree}
  {content : Bytes} {fault : Fault}

/-- The corpus that the next document goes into. There is none once a vocabulary is ready. -/
def corpus? (s : Session) : Option Corpus :=
  match s.stage with
  | .released => some Corpus.fresh
  | .collecting c => some c
  | .ready _ => none

theorem corpus?_eq_none_iff : s.corpus? = none ↔ ∃ v, s.stage = .ready v := by
  unfold corpus?
  cases s.stage <;> simp

theorem isLoaded_of_corpus (hc : s.corpus? = some c) : s.isLoaded = false := by
  obtain ⟨config, stage⟩ := s
  cases stage with
  | released => rfl
  | collecting _ => rfl
  | ready v => cases hc

theorem withCorpus_eq_within {α : Type} (x : Action Corpus α) (hc : s.corpus? = some c)
    (files : FileTree) : withCorpus x s files =
      Action.within c (fun c => { s with stage := .collecting c }) x s files := by
  obtain ⟨config, stage⟩ := s
  cases stage with
  | released =>
    cases hc
    rfl
  | collecting c' =>
    cases hc
    rfl
  | ready v => cases hc

/-- An action on the open corpus leaves the session collecting. -/
theorem withCorpus_of_corpus {α : Type} (x : Action Corpus α) (hc : s.corpus? = some c)
    (files : FileTree) : (withCorpus x s files).result = (x c files).result ∧
      (withCorpus x s files).state = { s with stage := .collecting (x c files).state } := by
  rw [withCorpus_eq_within x hc]
  exact ⟨rfl, rfl⟩

theorem withCorpus_of_ready {α : Type} (x : Action Corpus α) (hv : s.stage = .ready v)
    (files : FileTree) : withCorpus x s files = ⟨.error .finalized, s, files, [], []⟩ := by
  obtain ⟨config, stage⟩ := s
  obtain rfl : stage = .ready v := hv
  rfl

theorem ingest_of_read (hc : s.corpus? = some c) (h : files.read p = .ok content) :
    (ingest p s files).result = .ok () ∧
      (ingest p s files).state = { s with stage := .collecting (c.ingest content) } := by
  obtain ⟨hresult, hstate⟩ := withCorpus_of_corpus (Corpus.ingestFile p) hc files
  obtain ⟨hresult', hstate'⟩ := Corpus.ingestFile_of_read h c
  exact ⟨hresult.trans hresult', hstate.trans (by rw [hstate'])⟩

/-- A file that cannot be read leaves the corpus as it was, but open. -/
theorem ingest_of_fault (hc : s.corpus? = some c) (h : files.read p = .error fault) :
    (ingest p s files).result = .error (.file p fault) ∧
      (ingest p s files).state = { s with stage := .collecting c } := by
  obtain ⟨hresult, hstate⟩ := withCorpus_of_corpus (Corpus.ingestFile p) hc files
  rw [Corpus.ingestFile_of_fault h] at hresult hstate
  exact ⟨hresult, hstate⟩

theorem ingest_of_ready (hv : s.stage = .ready v) (p : Path) (files : FileTree) :
    ingest p s files = ⟨.error .finalized, s, files, [], []⟩ :=
  withCorpus_of_ready _ hv files

theorem files_ingest (p : Path) (s : Session) (files : FileTree) :
    (ingest p s files).files = files := by
  cases hc : s.corpus? with
  | none =>
    obtain ⟨v, hv⟩ := corpus?_eq_none_iff.1 hc
    rw [ingest_of_ready hv]
  | some c =>
    rw [ingest, withCorpus_eq_within _ hc]
    show (Corpus.ingestFile p c files).files = files
    cases hread : files.read p with
    | error fault => rw [Corpus.ingestFile_of_fault hread]
    | ok content =>
      simp only [Corpus.ingestFile, bind, Action.andThen, Action.read_of_ok hread]
      cases content <;> rfl

theorem ingestBytes_of_corpus (hc : s.corpus? = some c) (document : Bytes) (files : FileTree) :
    (ingestBytes document s files).result = .ok () ∧
      (ingestBytes document s files).state = { s with stage := .collecting (c.ingest document) } :=
  withCorpus_of_corpus _ hc files

theorem ingestBytes_of_ready (hv : s.stage = .ready v) (document : Bytes) (files : FileTree) :
    ingestBytes document s files = ⟨.error .finalized, s, files, [], []⟩ :=
  withCorpus_of_ready _ hv files

theorem train_of_corpus (hc : s.corpus? = some c) (files : FileTree) :
    (train s files).result = .ok (c.train s.config).corpus.vocabulary.size ∧
      (train s files).state = { s with stage := .ready (c.train s.config).corpus.vocabulary } := by
  obtain ⟨config, stage⟩ := s
  cases stage with
  | released =>
    cases hc
    exact ⟨rfl, rfl⟩
  | collecting c' =>
    cases hc
    exact ⟨rfl, rfl⟩
  | ready v => cases hc

theorem train_of_ready (hv : s.stage = .ready v) (files : FileTree) :
    train s files = ⟨.ok v.size, s, files, [], []⟩ := by
  obtain ⟨config, stage⟩ := s
  obtain rfl : stage = .ready v := hv
  rfl

theorem save_of_released (h : s.stage = .released) (p : Path) (files : FileTree) :
    save p s files = ⟨.error .notLoaded, s, files, [], []⟩ := by
  obtain ⟨config, stage⟩ := s
  obtain rfl : stage = .released := h
  rfl

/-- Saving trains on an open corpus, whether or not the file can be written. -/
theorem save_of_collecting (hc : s.stage = .collecting c) (p : Path) (files : FileTree) :
    (save p s files).state = { s with stage := .ready (c.train s.config).corpus.vocabulary } := by
  obtain ⟨config, stage⟩ := s
  obtain rfl : stage = .collecting c := hc
  have hstate : (discard train ⟨config, .collecting c⟩ files).state =
      ⟨config, .ready (c.train config).corpus.vocabulary⟩ := rfl
  unfold save
  rw [Action.get_bind]
  dsimp only
  rw [Action.state_bind_of_ok (a := ()) rfl, hstate, Action.get_bind]
  exact Vocabulary.keeps_save _ p _ _

/-- A vocabulary that is ready is saved as it is. -/
theorem save_eq_of_ready (hv : s.stage = .ready v) (p : Path) (files : FileTree) :
    save p s files = v.save p s files := by
  obtain ⟨config, stage⟩ := s
  obtain rfl : stage = .ready v := hv
  unfold save
  rw [Action.get_bind]
  dsimp only
  rw [Action.get_bind]

theorem save_of_ready (hv : s.stage = .ready v) (p : Path) (files : FileTree) :
    (save p s files).state = s := by
  rw [save_eq_of_ready hv]
  exact v.keeps_save p s files

/-- Loading replaces what is active by what the file holds, or changes nothing. -/
theorem load_cases (p : Path) (s : Session) (files : FileTree) :
    (∃ content v, files.read p = .ok content ∧ Vocabulary.ofBytes content = .ok v ∧
      (load p s files).result = .ok v.size ∧
      (load p s files).state = { s with stage := .ready v }) ∨
    ∃ e, (load p s files).result = .error e ∧ (load p s files).state = s := by
  unfold load
  obtain ⟨hstate, ⟨content, v, hread, hv, hresult⟩ | ⟨e, hresult⟩⟩ :=
    Vocabulary.load_cases p s files
  · refine .inl ⟨content, v, hread, hv, ?_, ?_⟩
    · rw [Action.result_bind_of_ok hresult, hstate]
      rfl
    · rw [Action.state_bind_of_ok hresult, hstate]
      rfl
  · exact .inr ⟨e, Action.result_bind_of_error hresult, by
      rw [Action.state_bind_of_error hresult, hstate]⟩

theorem load_of_read (hread : files.read p = .ok content) (hv : Vocabulary.ofBytes content = .ok v)
    (s : Session) : load p s files =
      ⟨.ok v.size, { s with stage := .ready v }, files, [.loaded p v.size v.rules.size], []⟩ := by
  simp only [load, Vocabulary.load, bind, Action.andThen, Action.read_of_ok hread, hv]
  rfl

theorem free_state (s : Session) (files : FileTree) :
    (free s files).result = .ok () ∧ (free s files).state = { s with stage := .released } := by
  obtain ⟨config, stage⟩ := s
  cases stage <;> exact ⟨rfl, rfl⟩

/-! ## Tokens -/

theorem tokenize_of_ready (hv : s.stage = .ready v) (text : String) :
    s.tokenize text = .ok (v.encode (Bytes.ofText text)) := by
  simp only [tokenize, hv]

theorem tokenize_of_corpus (hc : s.corpus? = some c) (text : String) :
    ∃ e, s.tokenize text = .error e := by
  obtain ⟨config, stage⟩ := s
  cases stage with
  | released => exact ⟨_, rfl⟩
  | collecting _ => exact ⟨_, rfl⟩
  | ready v => cases hc

end Session

end BytePair
