import BytePair.Proofs.Operations
import BytePair.Proofs.Replay

/-!
# Where the vocabulary of a session comes from

A session is made by the calls on it, some of which fail. The steps of its history, newest first,
say which documents are open, from what the calls were given and answered, and which call made the
session ready last. This determines the vocabulary.

* `Session.Step`, `Session.history`: a call with the session it found, and all calls of a session.
* `Session.documents`, `Session.Origin`: what the history says about the vocabulary.
* `Session.Step.effect`: what a call can do.
* `Session.Follows`, `Session.Follows.step`: the session is what its history says. Every call keeps
  this.
* `Session.ready_vocabulary_origin`: so a vocabulary is that of the last load, or that of the
  documents.
-/

namespace BytePair.Session

/-! ## Histories -/

/-- The operations that can change a session. -/
inductive Operation where
  | ingest (p : Path)
  | ingestBytes (document : Bytes)
  | train
  | save (p : Path)
  | load (p : Path)
  | free

/-- What an operation does. The sizes that some operations answer are left out. -/
def Operation.action : Operation → Action Session Unit
  | ingest p => Session.ingest p
  | ingestBytes document => Session.ingestBytes document
  | train => discard Session.train
  | save p => Session.save p
  | load p => discard (Session.load p)
  | free => Session.free

/-- An operation, and the files that it finds. They need not be those that the call before has left:
others work on them too. -/
structure Call where
  operation : Operation
  files : FileTree

/-- A call, and the session that it finds. -/
structure Step extends Call where
  before : Session

namespace Step

def outcome (st : Step) : Outcome Session Unit := st.operation.action st.before st.files

/-- The session that the call leaves. -/
def after (st : Step) : Session := st.outcome.state

/-- The document that was added, unless the call failed. -/
def document? (st : Step) : Option Bytes :=
  match st.operation, st.outcome.result with
  | .ingest p, .ok () => (st.files.read p).toOption
  | .ingestBytes document, .ok () => some document
  | _, _ => none

/-- The file that was loaded, unless the call failed. -/
def loaded? (st : Step) : Option Bytes :=
  match st.operation, st.outcome.result with
  | .load p, .ok () => (st.files.read p).toOption
  | _, _ => none

/-- Whether the documents before this call are given up. -/
def clears (st : Step) : Bool := st.loaded?.isSome || st.operation matches .free

/-- Whether the call made the session ready: by a vocabulary that was loaded, or by one that was
trained where there was none. -/
def makesReady (st : Step) : Bool :=
  st.loaded?.isSome || (!st.before.isLoaded && st.after.isLoaded)

end Step

/-- The session that some steps lead to. -/
def current (config : Config) : List Step → Session
  | [] => fresh config
  | st :: _ => st.after

/-- The steps of some calls on a new session. Both come newest first. -/
def history (config : Config) : List Call → List Step
  | [] => []
  | call :: earlier =>
    let steps := history config earlier
    ⟨call, current config steps⟩ :: steps

/-- The documents that were added since the session was new, was released or was replaced by a
saved vocabulary, in the order of their arrival. -/
def documents (steps : List Step) : List Bytes :=
  ((steps.takeWhile (!·.clears)).filterMap Step.document?).reverse

/-- The call that made the session ready last tells the vocabulary: it is the one in the file that
was loaded last, or the one that training finds in the documents. -/
inductive Origin (config : Config) (steps : List Step) (v : Vocabulary) : Prop
  | loaded {st : Step} {content : Bytes} (hlast : steps.find? Step.makesReady = some st)
    (hst : st.loaded? = some content) (hcontent : steps.findSome? Step.loaded? = some content)
    (hv : Vocabulary.ofBytes content = .ok v)
  | trained {st : Step} (hlast : steps.find? Step.makesReady = some st) (hst : st.loaded? = none)
    (hv : v = ((Corpus.ofDocuments (documents steps)).train config).corpus.vocabulary)

variable {config : Config} {steps : List Step} {st : Step} {s : Session} {v : Vocabulary}

/-! ## One call -/

/-- What a call does, and what its step says about that. -/
inductive Step.Effect (st : Step) : Prop
  | kept (hafter : st.after = st.before) (hdocument : st.document? = none)
    (hclears : st.clears = false)
  | collected {c : Corpus} (hc : st.before.corpus? = some c)
    (hafter : st.after =
      { st.before with stage := .collecting (st.document?.toList.foldl Corpus.ingest c) })
    (hclears : st.clears = false)
  | trained {c : Corpus} (hc : st.before.corpus? = some c)
    (hafter : st.after =
      { st.before with stage := .ready (c.train st.before.config).corpus.vocabulary })
    (hdocument : st.document? = none) (hclears : st.clears = false)
  | loaded {content : Bytes} {v : Vocabulary} (hloaded : st.loaded? = some content)
    (hv : Vocabulary.ofBytes content = .ok v)
    (hafter : st.after = { st.before with stage := .ready v })
  | freed (hoperation : st.operation = .free)
    (hafter : st.after = { st.before with stage := .released })

namespace Step

/-- Every call has one of the effects, whatever the session and the files are. -/
theorem effect (st : Step) : st.Effect := by
  obtain ⟨⟨operation, files⟩, s⟩ := st
  -- a new session and one that collects have a corpus, and mostly act alike
  have hstage : (∃ c, s.corpus? = some c) ∨ ∃ v, s.stage = .ready v := by
    rw [← corpus?_eq_none_iff]
    cases s.corpus? <;> simp
  cases operation with
  | ingest p =>
    rcases hstage with ⟨c, hc⟩ | ⟨v, hv⟩
    · cases hread : files.read p with
      | ok content =>
        obtain ⟨hresult, hstate⟩ := ingest_of_read hc hread
        have hdocument : document? ⟨⟨.ingest p, files⟩, s⟩ = some content := by
          simp [document?, outcome, Operation.action, hresult, hread, Except.toOption]
        exact .collected hc (hdocument ▸ hstate) rfl
      | error fault =>
        obtain ⟨hresult, hstate⟩ := ingest_of_fault hc hread
        have hdocument : document? ⟨⟨.ingest p, files⟩, s⟩ = none := by
          simp [document?, outcome, Operation.action, hresult]
        exact .collected hc (hdocument ▸ hstate) rfl
    · have hrejected := ingest_of_ready hv p files
      refine .kept (congrArg Outcome.state hrejected) ?_ rfl
      simp [document?, outcome, Operation.action, hrejected]
  | ingestBytes document =>
    rcases hstage with ⟨c, hc⟩ | ⟨v, hv⟩
    · obtain ⟨hresult, hstate⟩ := ingestBytes_of_corpus hc document files
      have hdocument : document? ⟨⟨.ingestBytes document, files⟩, s⟩ = some document := by
        simp [document?, outcome, Operation.action, hresult]
      exact .collected hc (hdocument ▸ hstate) rfl
    · have hrejected := ingestBytes_of_ready hv document files
      refine .kept (congrArg Outcome.state hrejected) ?_ rfl
      simp [document?, outcome, Operation.action, hrejected]
  | train =>
    have hstate := (Action.discard_eq train s files).2
    rcases hstage with ⟨c, hc⟩ | ⟨v, hv⟩
    · exact .trained hc (hstate.trans (train_of_corpus hc files).2) rfl rfl
    · exact .kept (hstate.trans (congrArg Outcome.state (train_of_ready hv files))) rfl rfl
  | save p =>
    cases hs : s.stage with
    | released => exact .kept (congrArg Outcome.state (save_of_released hs p files)) rfl rfl
    | collecting c =>
      have hc : s.corpus? = some c := by rw [corpus?, hs]
      exact .trained hc (save_of_collecting hs p files) rfl rfl
    | ready v => exact .kept (save_of_ready hs p files) rfl rfl
  | load p =>
    obtain ⟨hresult', hstate'⟩ := Action.discard_eq (load p) s files
    obtain ⟨content, v, hread, hv, hresult, hstate⟩ | ⟨e, hresult, hstate⟩ := load_cases p s files
    · have hloaded : loaded? ⟨⟨.load p, files⟩, s⟩ = some content := by
        simp [loaded?, outcome, Operation.action, hresult', hresult, hread, Except.toOption,
          Except.map]
      exact .loaded hloaded hv (hstate'.trans hstate)
    · have hloaded : loaded? ⟨⟨.load p, files⟩, s⟩ = none := by
        simp [loaded?, outcome, Operation.action, hresult', hresult, Except.map]
      refine .kept (hstate'.trans hstate) rfl ?_
      simp [clears, hloaded]
  | free => exact .freed rfl (free_state s files).2

theorem loaded?_of_clears (h : st.clears = false) : st.loaded? = none := by
  simp_all [clears]

/-- Only loading a file loads one. -/
theorem succeeded_of_loaded? {content : Bytes} (h : st.loaded? = some content) :
    (∃ p, st.operation = .load p) ∧ st.outcome.result = .ok () := by
  unfold loaded? at h
  split at h
  · rename_i p hoperation hresult
    exact ⟨⟨p, hoperation⟩, hresult⟩
  · cases h

end Step

/-- A vocabulary that is ready stays, unless another one is loaded or it is released. -/
theorem ready_cases (hv : s.stage = .ready v) (operation : Operation) (files : FileTree) :
    (operation.action s files).state = s ∨ operation = .free ∨
      (∃ p, operation = .load p) ∧ (operation.action s files).result = .ok () := by
  have hnone : s.corpus? = none := corpus?_eq_none_iff.2 ⟨v, hv⟩
  cases Step.effect ⟨⟨operation, files⟩, s⟩ with
  | kept hafter _ _ => exact .inl hafter
  | collected hc _ _ => exact absurd (hnone.symm.trans hc) (by simp)
  | trained hc _ _ _ => exact absurd (hnone.symm.trans hc) (by simp)
  | loaded hloaded _ _ => exact .inr (.inr (Step.succeeded_of_loaded? hloaded))
  | freed hoperation _ => exact .inr (.inl hoperation)

/-! ## All calls -/

theorem documents_cons (st : Step) (steps : List Step) : documents (st :: steps) =
    if st.clears then [] else documents steps ++ st.document?.toList := by
  unfold documents
  rw [List.takeWhile_cons]
  cases st.clears with
  | true => rfl
  | false => cases h : st.document? <;> simp [h]

theorem documents_cons_of_none (hdocument : st.document? = none) (hclears : st.clears = false) :
    documents (st :: steps) = documents steps := by
  simp [documents_cons, hclears, hdocument]

/-- The session is what its history says: its open corpus has the documents, and its vocabulary
comes from the call that made it ready last. -/
structure Follows (config : Config) (steps : List Step) (s : Session) : Prop where
  config_eq : s.config = config
  corpus_eq (c : Corpus) : s.corpus? = some c → c = Corpus.ofDocuments (documents steps)
  origin (v : Vocabulary) : s.stage = .ready v → Origin config steps v

theorem follows_fresh (config : Config) : (fresh config).Follows config [] where
  config_eq := rfl
  corpus_eq _ hc := (Option.some.inj hc).symm
  origin _ hv := by cases hv

/-- A call that does not make the session ready, and leaves the documents, changes no origin. -/
theorem Origin.kept (h : Origin config steps v) (hmakes : st.makesReady = false)
    (hdocuments : documents (st :: steps) = documents steps) : Origin config (st :: steps) v := by
  have hlast : (st :: steps).find? Step.makesReady = steps.find? Step.makesReady :=
    List.find?_cons_of_neg (by simp [hmakes])
  have hloaded : st.loaded? = none := by simp_all [Step.makesReady]
  cases h with
  | loaded hlast' hst hcontent hv =>
    exact .loaded (hlast.trans hlast') hst (by rw [List.findSome?_cons, hloaded, hcontent]) hv
  | trained hlast' hst hv =>
    exact .trained (hlast.trans hlast') hst (by rw [hdocuments]; exact hv)

/-- Every call leaves the session as the history with this call says. -/
theorem Follows.step (st : Step) (h : st.before.Follows config steps) :
    st.after.Follows config (st :: steps) := by
  obtain ⟨hconfig, hcorpus, horigin⟩ := h
  cases st.effect with
  | kept hafter hdocument hclears =>
    have hdocuments : documents (st :: steps) = documents steps :=
      documents_cons_of_none hdocument hclears
    have hmakes : st.makesReady = false := by
      simp [Step.makesReady, Step.loaded?_of_clears hclears, hafter]
    rw [hafter]
    exact ⟨hconfig, hdocuments ▸ hcorpus, fun v hv => (horigin v hv).kept hmakes hdocuments⟩
  | @collected c hc hafter hclears =>
    have hdocuments : documents (st :: steps) = documents steps ++ st.document?.toList := by
      simp [documents_cons, hclears]
    have hopen : Corpus.ofDocuments (documents (st :: steps)) =
        st.document?.toList.foldl Corpus.ingest c := by
      rw [hdocuments, hcorpus c hc]
      exact List.foldl_append
    rw [hafter]
    refine ⟨hconfig, fun c' hc' => ?_, fun v hv => by cases hv⟩
    exact (Option.some.inj hc').symm.trans hopen.symm
  | @trained c hc hafter hdocument hclears =>
    have hdocuments : documents (st :: steps) = documents steps :=
      documents_cons_of_none hdocument hclears
    have hloaded : st.loaded? = none := Step.loaded?_of_clears hclears
    have hready : st.after.isLoaded := by
      rw [hafter]
      rfl
    have hmakes : st.makesReady := by
      simp [Step.makesReady, hloaded, isLoaded_of_corpus hc, hready]
    rw [hafter]
    refine ⟨hconfig, fun c' hc' => (by cases hc'), fun v hv => ?_⟩
    refine .trained (List.find?_cons_of_pos hmakes) hloaded ?_
    rw [hdocuments, ← hcorpus c hc, ← hconfig]
    exact (Stage.ready.inj hv).symm
  | @loaded content v hloaded hv hafter =>
    have hmakes : st.makesReady := by simp [Step.makesReady, hloaded]
    rw [hafter]
    refine ⟨hconfig, fun c' hc' => (by cases hc'), fun v' hv' => ?_⟩
    obtain rfl : v = v' := Stage.ready.inj hv'
    refine .loaded (List.find?_cons_of_pos hmakes) hloaded ?_ hv
    rw [List.findSome?_cons, hloaded]
  | freed hoperation hafter =>
    have hdocuments : documents (st :: steps) = [] := by
      simp [documents_cons, Step.clears, hoperation]
    rw [hafter]
    refine ⟨hconfig, fun c hc => ?_, fun v hv => by cases hv⟩
    rw [hdocuments]
    exact (Option.some.inj hc).symm

theorem follows_history (config : Config) (calls : List Call) :
    (current config (history config calls)).Follows config (history config calls) := by
  induction calls with
  | nil => exact follows_fresh config
  | cons call earlier ih => exact Follows.step ⟨call, current config (history config earlier)⟩ ih

/-- **Where a vocabulary comes from.** After any calls, of which any may have failed, a vocabulary
that is ready is the one in the file that was loaded last, or the one that training finds in the
documents added since the session last began anew; the call that made the session ready last says
which. It stays until another vocabulary is loaded or it is released. Text can be tokenized as long
as there is one, and is encoded by it. -/
theorem ready_vocabulary_origin (config : Config) (calls : List Call) :
    let steps := history config calls
    let s := current config steps
    (∀ v, s.stage = .ready v → Origin config steps v ∧
      (∀ text, s.tokenize text = .ok (v.encode (Bytes.ofText text))) ∧
      ∀ (operation : Operation) (files : FileTree),
        (operation.action s files).state = s ∨ operation = .free ∨
          (∃ p, operation = .load p) ∧ (operation.action s files).result = .ok ()) ∧
      (∀ text, (∃ ids, s.tokenize text = .ok ids) ↔ ∃ v, s.stage = .ready v) ∧
      ((Corpus.ofDocuments []).train config).corpus.vocabulary = Vocabulary.fresh := by
  intro steps s
  have h : s.Follows config steps := follows_history config calls
  have hempty : ((Corpus.ofDocuments []).train config).corpus = Corpus.fresh :=
    Corpus.Reachable.fresh.sound.train_eq_self rfl config
  refine ⟨fun v hv => ⟨h.origin v hv, tokenize_of_ready hv, ready_cases hv⟩, fun text => ?_,
    congrArg Corpus.vocabulary hempty⟩
  rw [← corpus?_eq_none_iff]
  constructor
  · rintro ⟨ids, hids⟩
    cases hc : s.corpus? with
    | none => rfl
    | some c =>
      obtain ⟨e, he⟩ := tokenize_of_corpus hc text
      cases hids.symm.trans he
  · intro hnone
    obtain ⟨v, hv⟩ := corpus?_eq_none_iff.1 hnone
    exact ⟨_, tokenize_of_ready hv text⟩

/-- A document is added, a file cannot be read, saving trains but cannot write, and no vocabulary
can be loaded: the session has the vocabulary of the document. -/
theorem ready_vocabulary_origin_after_faults :
    let files := FileTree.empty ["home"]
    let calls : List Call := [⟨.load ⟨""⟩, files⟩, ⟨.save ⟨""⟩, files⟩, ⟨.ingest ⟨""⟩, files⟩,
      ⟨.ingestBytes [97, 98, 97, 98], files⟩]
    let s := current {} (history {} calls)
    let v := ((Corpus.ofDocuments [[97, 98, 97, 98]]).train {}).corpus.vocabulary
    s.stage = .ready v ∧ Origin {} (history {} calls) v ∧ s.tokenize "abab" = .ok [3, 3] := by
  intro files calls s v
  have hopen : (current {} (history {} (calls.drop 2))).stage =
      .collecting (Corpus.ofDocuments [[97, 98, 97, 98]]) := rfl
  have hsaved : (current {} (history {} (calls.drop 1))).stage = .ready v :=
    congrArg stage (save_of_collecting hopen ⟨""⟩ files)
  have hv : s.stage = .ready v := hsaved
  obtain ⟨horigin, htokenize, -⟩ := (ready_vocabulary_origin {} calls).1 v hv
  have hencode : v.encode (Bytes.ofText "abab") = [3, 3] := by
    have hnaive : v = _ := congrArg (fun o => o.corpus.vocabulary)
      ((Corpus.reachable_ofDocuments _).sound.train_eq {})
    rw [hnaive]
    decide +kernel
  exact ⟨hv, horigin, (htokenize "abab").trans (congrArg _ hencode)⟩

end BytePair.Session
