import BytePair.Proofs.Arguments
import BytePair.Proofs.Building
import BytePair.Proofs.Walking

/-!
# Runs that are refused

A build command that cannot use what it is given changes nothing: whatever is wrong with its
arguments, its configuration and its inputs is found out before the first file is written.

* `FileTree.Unreadable`: an input that cannot be opened, or that has something below it that cannot.
  `FileTree.unreadable_iff`: the walk through the inputs comes upon it, wherever it is. A path that
  is too long is one reason (`FileTree.unreadable_slashed`).
* `Action.Refuses`: an action fails and leaves the files alone. `Action.refuses_bind`: so does
  whatever begins with an action that leaves the files alone and goes on so.
* `Build.unusable_run_changes_nothing`: the result. The exit code is 1, unless the reading of the
  arguments is broken off.
-/

namespace BytePair

/-! ## Inputs that cannot be read -/

namespace FileTree

variable {t : FileTree} {p q : Path} {dir : Location} {name : Bytes} {names : List Bytes}
  {e : Entry}

def NotRead (t : FileTree) (p : Path) : Prop := ∀ content, t.read p ≠ .ok content

/-- The path leads to a file or directory that may be read. -/
def Opens (t : FileTree) (p : Path) : Prop :=
  ∃ l e, t.locate p = .ok l ∧ t.get? l = some e ∧ t.refuses l .read = none

/-- The input cannot be opened, or something below it cannot. -/
inductive Unreadable (t : FileTree) (p : Path) : Prop
  | here (h : ¬ t.Opens p)
  | below {dir : Location} {names : List Bytes} {e : Entry} (hp : t.locate p = .ok dir)
    (hnames : t.Reaches dir names e) (h : ¬ t.Opens (p.joinAll names))

/-- What is read has been opened, and it is no directory. -/
theorem not_notRead_iff : ¬ t.NotRead p ↔ t.Opens p ∧ t.isDirectory p = false := by
  unfold NotRead Opens isDirectory read
  cases hp : t.locate p with
  | error fault => simp [bind, Except.bind]
  | ok l =>
    cases hget : t.get? l with
    | none => simp [bind, Except.bind, hget]
    | some e =>
      cases hread : t.refuses l .read with
      | some fault => cases e <;> simp [bind, Except.bind, hget, permit, hread]
      | none => cases e <;> simp [bind, Except.bind, hget, permit, hread]

theorem not_opens_of_not_fits (h : ¬ fits p) : ¬ t.Opens p := by
  rintro ⟨l, e, hl, -⟩
  exact h (checkedSteps_eq_ok_iff.1 (locate_eq_ok_iff.1 hl).1).2.2.1

/-- Where the path of something below a directory can be opened, it leads there. -/
theorem locate_of_opens (ht : t.Proper) (hp : t.locate p = .ok dir) (hnames : t.Reaches dir names e)
    (h : t.Opens (p.joinAll names)) :
    t.locate (p.joinAll names) = .ok (dir ++ names) ∧ t.refuses (dir ++ names) .read = none := by
  obtain ⟨l, e', hl, -, hread⟩ := h
  obtain ⟨-, rfl⟩ := (locate_joinAll_iff ht hp hnames).1 hl
  exact ⟨hl, hread⟩

/-- Whatever cannot be opened below a directory, the walk comes upon it, or upon a directory above it
that it does not see. -/
theorem exists_notRead_of_reaches (ht : t.Proper) (hp : t.locate p = .ok dir)
    (hdir : t.get? dir = some .directory)
    (hlisted : ∀ names, t.Enters p dir names → t.refuses (dir ++ names) .read = none)
    (hnames : t.Reaches dir names e) (h : ¬ t.Opens (p.joinAll names)) :
    ∃ found, t.Ends p dir found ∧ t.NotRead (p.joinAll found) := by
  induction names generalizing p dir with
  | nil =>
    have hhere := hlisted [] (enters_nil hp hdir)
    rw [List.append_nil] at hhere
    exact absurd ⟨dir, _, hp, hdir, hhere⟩ h
  | cons name names ih =>
    have hcons (names : List Bytes) : t.Enters p dir (name :: names) ↔ _ :=
      enters_cons_iff ht hp hdir
    by_cases hname : t.Enters p dir [name]
    · have hlocate : t.locate (p.join name) = .ok (dir ++ [name]) := hname.locate ht hp
      have hbelow : t.get? (dir ++ [name]) = some .directory := hname.reaches.2
      obtain ⟨found, hfound, hread⟩ := ih hlocate hbelow
        (fun names henters => by simpa using hlisted _ ((hcons names).2 ⟨hname, henters⟩))
        hnames.2 h
      have hne : found ≠ [] := by
        rintro rfl
        exact not_ends_nil hlocate hbelow hfound
      exact ⟨name :: found, (ends_cons_iff ht hp hdir hne).2 ⟨hname, hfound⟩, hread⟩
    · have hentry : ∃ e, t.get? (dir ++ [name]) = some e := by
        cases names with
        | nil => exact ⟨e, hnames.2⟩
        | cons next names => exact ⟨_, hnames.2.1⟩
      refine ⟨[name], (ends_singleton_iff ht hp hdir).2 ⟨hentry, hname⟩, ?_⟩
      by_contra hread
      obtain ⟨hopens, -⟩ := not_notRead_iff.1 hread
      cases names with
      | nil => exact h hopens
      | cons next names =>
        have hreaches : t.Reaches dir [name] .directory := ⟨hdir, hnames.2.1⟩
        obtain ⟨hlocate, -⟩ := locate_of_opens ht hp hreaches hopens
        exact hname ⟨hreaches, isDirectory_of_locate hlocate hnames.2.1⟩

/-- An input has something that cannot be opened just if the walk through it fails, or comes upon a
path that cannot be read. -/
theorem unreadable_iff (ht : t.Proper) : t.Unreadable p ↔
    ∀ found, t.collect p = .ok found → ∃ q ∈ found, t.NotRead q := by
  cases hseen : t.isDirectory p with
  | false =>
    have hread : t.NotRead p ↔ ¬ t.Opens p := by
      rw [← not_iff_not, not_notRead_iff, not_not, and_iff_left hseen]
    simp only [collect_of_not_isDirectory hseen, Except.ok.injEq, forall_eq', List.mem_singleton,
      exists_eq_left, hread]
    refine ⟨fun h => ?_, .here⟩
    cases h with
    | here h => exact h
    | @below dir names e hp hnames h =>
      cases names with
      | nil => exact h
      | cons name names =>
        cases hseen.symm.trans (isDirectory_of_locate hp hnames.1)
  | true =>
    obtain ⟨dir, hp, hdir⟩ : ∃ dir, t.locate p = .ok dir ∧ t.get? dir = some .directory := by
      unfold isDirectory at hseen
      split at hseen
      · exact ⟨_, ‹_›, of_decide_eq_true hseen⟩
      · cases hseen
    have hmem (names : List Bytes) : names ∈ t.namesBelow p dir ↔ t.Ends p dir names :=
      mem_namesBelow_iff ht hp hdir
    rw [collect_of_directory hp hdir]
    constructor
    · intro h found hfound
      obtain ⟨hlisted, rfl⟩ := (collectBelow_eq_ok_iff ht hp hdir).1 hfound
      obtain ⟨names, e, hnames, hnot⟩ : ∃ names e, t.Reaches dir names e ∧
          ¬ t.Opens (p.joinAll names) := by
        cases h with
        | here h => exact ⟨[], _, hdir, h⟩
        | below hp' hnames h =>
          obtain rfl := Except.ok.inj (hp'.symm.trans hp)
          exact ⟨_, _, hnames, h⟩
      obtain ⟨found, hends, hread⟩ := exists_notRead_of_reaches ht hp hdir hlisted hnames hnot
      exact ⟨_, List.mem_map_of_mem ((hmem found).2 hends), hread⟩
    · intro h
      cases hcollect : t.collectBelow p dir with
      | error e =>
        obtain ⟨names, fault, henters, hrefused, -⟩ := collectBelow_eq_error ht hp hdir hcollect
        refine .below hp henters.reaches fun hopens => ?_
        cases hrefused.symm.trans (locate_of_opens ht hp henters.reaches hopens).2
      | ok found =>
        obtain ⟨q, hq, hread⟩ := h found hcollect
        obtain ⟨-, rfl⟩ := (collectBelow_eq_ok_iff ht hp hdir).1 hcollect
        obtain ⟨names, hnames, rfl⟩ := List.mem_map.1 hq
        obtain ⟨⟨e, he⟩, -, hnot⟩ := (hmem names).1 hnames
        exact .below hp he fun hopens => not_notRead_iff.2 ⟨hopens, hnot⟩ hread

/-- Nothing in a directory can be opened where the path of the directory is as long as a path may
be. -/
theorem unreadable_slashed (hp : t.locate p = .ok dir) (hdir : t.get? dir = some .directory)
    (hname : name ∈ t.names dir) (hne : name ≠ []) {n : Nat}
    (hn : p.bytes.length + n = pathLimit) : t.Unreadable (p.slashed n) := by
  have hlength := p.length_slashed n
  have hfits : fits (p.slashed n) := by
    rw [fits, decide_eq_true_eq]
    omega
  obtain ⟨e, he⟩ := mem_names_iff.1 hname
  have hreaches : t.Reaches dir [name] e := ⟨hdir, he⟩
  have hlong : ¬ fits ((p.slashed n).join name) := not_fits_join (by omega) hne
  exact .below (locate_slashed hp hdir hfits) hreaches (not_opens_of_not_fits hlong)

theorem Reads.read_of_mem {paths : List Path} {documents : List Bytes}
    (h : t.Reads paths documents) (hq : q ∈ paths) : ∃ content, t.read q = .ok content := by
  induction h with
  | nil => cases hq
  | cons hread _ ih =>
    cases hq with
    | head => exact ⟨_, hread⟩
    | tail _ hq => exact ih hq

end FileTree

/-! ## Actions that refuse -/

namespace Action

variable {σ α β : Type} {x : Action σ α} {f : α → Action σ β} {s : σ} {files : FileTree}

/-- Two actions leave the files alone if both do, or if the first one stops there. -/
theorem files_bind (hx : (x s files).files = files)
    (hf : ∀ a, (x s files).result = .ok a → (f a (x s files).state files).files = files) :
    ((x >>= f) s files).files = files := by
  cases h : (x s files).result with
  | error e => rw [files_bind_of_error h, hx]
  | ok a => rw [files_bind_of_ok h, hx, hf a h]

/-- The action fails and leaves the files alone. -/
structure Refuses (x : Action σ α) (s : σ) (files : FileTree) : Prop where
  fails : ∃ e, (x s files).result = .error e
  files_eq : (x s files).files = files

/-- An action may succeed as long as it leaves the files alone and what follows it refuses. -/
theorem refuses_bind (hx : (x s files).files = files)
    (hf : ∀ a, (x s files).result = .ok a → (f a).Refuses (x s files).state files) :
    (x >>= f).Refuses s files := by
  refine ⟨?_, files_bind hx fun a h => (hf a h).files_eq⟩
  cases h : (x s files).result with
  | error e => exact ⟨e, result_bind_of_error h⟩
  | ok a =>
    obtain ⟨e, he⟩ := (hf a h).fails
    exact ⟨e, by rw [result_bind_of_ok h, hx, he]⟩

end Action

/-- Ingesting leaves the files alone, however far it gets. -/
theorem Session.files_ingestAll (paths : List Path) (s : Session) (files : FileTree) :
    (paths.forM ingest s files).files = files := by
  induction paths generalizing s with
  | nil => rfl
  | cons p paths ih => exact Action.files_bind (files_ingest p s files) fun _ _ => ih _

namespace Build

variable {request : Request} {env : Environment} {files : FileTree}

/-! ## The command -/

/-- The command cannot use what it is given: the arguments mean nothing, or they name a
configuration, of which the last one counts, that is missing or none, or an input that cannot be
read. -/
inductive CannotUse (env : Environment) (files : FileTree) : Prop
  | arguments (h : ∀ items, ¬ Means env.arguments items)
  | config {items : List Item} {p : Path} (hitems : Means env.arguments items)
    (hp : (items.filterMap Item.config?).getLast? = some p)
    (h : ∀ content, files.read p = .ok content → Config.parse? content = none)
  | input {items : List Item} {p : Path} (hitems : Means env.arguments items)
    (hp : p ∈ (items.filterMap Item.path?).tail) (h : files.Unreadable p)

theorem configIn_ne_ok {p : Path} {config : Config} (hp : request.config? = some p)
    (h : ∀ content, files.read p = .ok content → Config.parse? content = none) :
    request.configIn files ≠ .ok config := by
  intro hconfig
  simp only [Request.configIn, hp, Config.load] at hconfig
  cases hread : files.read p with
  | error fault =>
    rw [hread] at hconfig
    cases fault <;> cases hconfig
  | ok content =>
    simp only [hread, h content hread] at hconfig
    cases hconfig

/-- The command writes nothing before it has read its configuration and all its inputs. -/
theorem perform_refuses (h : ∀ config inputs documents, request.configIn files = .ok config →
      request.inputFiles files = .ok inputs → ¬ files.Reads inputs documents) (s : Session) :
    (perform env request).Refuses s files := by
  refine Action.refuses_bind ?_ fun _ hopen => ?_
  · rw [openSession_eq]
    cases request.configIn files <;> rfl
  obtain ⟨config, parallel, hconfig, hstate, -⟩ := openSession_of_leads ⟨hopen, rfl, rfl⟩
  rw [hstate]
  refine Action.refuses_bind rfl fun _ hfiles => ?_
  obtain rfl := Except.ok.inj hfiles
  refine Action.refuses_bind ?_ fun inputs hinputs => ?_
  · cases request.inputFiles files <;> rfl
  obtain ⟨hinputs, hstate, -⟩ := Action.leads_ofExcept_iff.1 ⟨hinputs, rfl, rfl⟩
  rw [← hstate]
  refine Action.refuses_bind (Session.files_ingestAll _ _ _) fun _ hingest => ?_
  obtain ⟨documents, hreads⟩ := Session.reads_of_ingestAll rfl hingest
  exact absurd hreads (h config inputs documents hconfig hinputs)

theorem run_of_refuses (hrequest : Request.ofArguments env.arguments = .ok request)
    (h : (perform env request).Refuses (Session.fresh {}) files) :
    (run env files).exitCode = 1 ∧ (run env files).files = files := by
  obtain ⟨⟨e, he⟩, hfiles⟩ := h
  simp only [run, hrequest, Command.runFor, Command.run, he]
  exact ⟨trivial, hfiles⟩

/-- Without a request nothing is done. -/
theorem run_of_unusable {unusable : Command.Unusable}
    (h : Request.ofArguments env.arguments = .error unusable) :
    (run env files).exitCode = (if unusable = .notText then 101 else 1) ∧
      (run env files).files = files := by
  cases unusable with
  | notText =>
    simp only [run, h, Command.runFor]
    exact ⟨(if_pos trivial).symm, trivial⟩
  | misconfigured problem =>
    simp only [run, h, Command.runFor]
    exact ⟨rfl, rfl⟩

theorem not_reads_of_cannotUse {config : Config} {inputs : List Path} {documents : List Bytes}
    (ht : files.Proper) (h : CannotUse env files)
    (hrequest : Request.ofArguments env.arguments = .ok request)
    (hconfig : request.configIn files = .ok config)
    (hinputs : request.inputFiles files = .ok inputs) : ¬ files.Reads inputs documents := by
  intro hreads
  cases h with
  | arguments h =>
    obtain ⟨items, hitems⟩ := exists_means hrequest
    exact h items hitems
  | config hitems hp h =>
    obtain ⟨request', hrequest', -, hconfig'⟩ := hitems.ofArguments
    obtain rfl := Except.ok.inj (hrequest.symm.trans hrequest')
    exact configIn_ne_ok (hconfig'.trans hp) h hconfig
  | input hitems hp h =>
    obtain ⟨request', hrequest', hpaths, -⟩ := hitems.ofArguments
    obtain rfl := Except.ok.inj (hrequest.symm.trans hrequest')
    rw [← hpaths] at hp
    obtain ⟨lists, hlists, rfl⟩ := map_eq_ok_iff.1 hinputs
    obtain ⟨found, hmem, hfound⟩ := exists_of_mapM_eq_ok hlists _ hp
    obtain ⟨q, hq, hnot⟩ := (FileTree.unreadable_iff ht).1 h found hfound
    obtain ⟨content, hcontent⟩ := hreads.read_of_mem (List.mem_flatten.2 ⟨found, hmem, hq⟩)
    exact hnot content hcontent

/-- **A run that cannot use its inputs changes nothing.** Whatever the arguments are and whatever
files there are: if the arguments are invalid, or the configuration is missing or invalid, or an
input cannot be read, wherever it stands and be it below a directory, then the command leaves every
file as it was. It exits with 1, unless it comes to an argument that is no text. -/
theorem unusable_run_changes_nothing (ht : files.Proper) (h : CannotUse env files) :
    (run env files).files = files ∧
      (¬ BreaksOff env.arguments → (run env files).exitCode = 1) ∧
      (BreaksOff env.arguments → (run env files).exitCode = 101) := by
  cases hrequest : Request.ofArguments env.arguments with
  | error unusable =>
    obtain ⟨hexit, hfiles⟩ : (run env files).exitCode = _ ∧ (run env files).files = files :=
      run_of_unusable hrequest
    refine ⟨hfiles, fun hnot => ?_, fun hbreaks => ?_⟩
    · rw [hexit, if_neg]
      rintro rfl
      exact hnot (ofArguments_eq_notText_iff.1 hrequest)
    · have hnotText := hrequest.symm.trans (ofArguments_eq_notText_iff.2 hbreaks)
      rw [hexit, if_pos (Except.error.inj hnotText)]
  | ok request =>
    obtain ⟨hexit, hfiles⟩ := run_of_refuses hrequest (perform_refuses
      (fun _ _ _ hconfig hinputs => not_reads_of_cannotUse ht h hrequest hconfig hinputs) _)
    refine ⟨hfiles, fun _ => hexit, fun hbreaks => ?_⟩
    cases hrequest.symm.trans (ofArguments_eq_notText_iff.2 hbreaks)

theorem ofText_slashes (text : String) (n : Nat) :
    Bytes.ofText (text ++ String.ofList (List.replicate n '/')) =
      ((⟨Bytes.ofText text⟩ : Path).slashed n).bytes := by
  have hslashes : (List.replicate n '/').flatMap String.utf8EncodeChar =
      List.replicate n Path.slash := by
    induction n with
    | zero => rfl
    | succ n ih =>
      rw [List.replicate_succ, List.flatMap_cons, ih]
      rfl
  rw [Path.slashed, Bytes.ofText_eq, Bytes.ofText_eq, String.toList_append, List.flatMap_append,
    String.toList_ofList, hslashes]

/-- The last input is missing, after a directory with a file in it; or the only input is a directory
whose path has so many slashes at its end that no file in it can be opened; or an argument is no
text. The vocabulary that was saved before is still there. -/
theorem unusable_run_changes_nothing_over_old :
    let saved := Vocabulary.fresh.toBytes
    let files : FileTree :=
      { workingDirectory := ["w"]
        entries := [(["w"], .directory), (["w", "v"], .file saved), (["w", "d"], .directory),
          (["w", "d", "a"], .file [97])] }
    let missing : Environment := { arguments := ["v", "d", "--dot", "g", "x"] }
    let long : Environment := { arguments := ["v", ((⟨"d"⟩ : Path).slashed 4094).bytes] }
    let noText : Environment := { arguments := ["v", "d", "--dot", [0xFF]] }
    ((run missing files).exitCode = 1 ∧ (run missing files).files = files) ∧
      ((run long files).exitCode = 1 ∧ (run long files).files = files) ∧
      ((run noText files).exitCode = 101 ∧ (run noText files).files = files) ∧
      files.read ⟨"v"⟩ = .ok saved := by
  intro saved files missing long noText
  have hfiles : files.Proper := ⟨by decide +kernel, by decide +kernel⟩
  have hplain {arguments : List Bytes} {items : List Item} (h : Means arguments items) :
      ¬ BreaksOff arguments := fun hbreaks => hbreaks.not_means items h
  have hmissing : Means missing.arguments [.path "v", .path "d", .option "--dot" "g", .path "x"] :=
    ⟨rfl, by simp [Item.Valid, optionNames], by decide⟩
  have hx : files.locate ⟨"x"⟩ = .ok ["w", "x"] := by decide +kernel
  have hnone : files.get? ["w", "x"] = none := by decide +kernel
  have hclosed : files.Unreadable ⟨"x"⟩ := by
    refine .here ?_
    rintro ⟨l, e, hl, he, -⟩
    obtain rfl := Except.ok.inj (hx.symm.trans hl)
    cases hnone.symm.trans he
  let text := "d" ++ String.ofList (List.replicate 4094 '/')
  have htext : Bytes.ofText text = ((⟨"d"⟩ : Path).slashed 4094).bytes := ofText_slashes "d" 4094
  have hlong : Means long.arguments [.path "v", .path text] := by
    refine ⟨congrArg (Bytes.ofText "v" :: [·]) htext, List.forall_mem_cons.2
      ⟨by simp [Item.Valid, optionNames], List.forall_mem_singleton.2 fun hoption => ?_⟩, by decide⟩
    have hshort : ∀ name ∈ optionNames, name.toList.length < 4095 := by decide
    have hlength : text.toList.length = 4095 := by
      rw [String.toList_append, List.length_append, String.toList_ofList, String.toList_ofList,
        List.length_replicate]
      rfl
    exact absurd (hshort text hoption) (by omega)
  have hd : files.locate ⟨"d"⟩ = .ok ["w", "d"] := by decide +kernel
  have ha : Bytes.ofText "a" ∈ files.names ["w", "d"] := by decide +kernel
  have hunreadable : files.Unreadable ⟨Bytes.ofText text⟩ := by
    rw [htext]
    exact FileTree.unreadable_slashed hd (by decide +kernel) ha (by decide) (by decide +kernel)
  have hbad : Utf8.decode? [0xFF] = none := by decide +kernel
  have hvalid : ∀ i ∈ [Item.path "v", Item.path "d"], i.Valid := by
    simp [Item.Valid, optionNames]
  have hdot : "--dot" ∈ optionNames := by decide
  have hnoText : BreaksOff noText.arguments :=
    BreaksOff.value hvalid hdot (Command.ofText_ne_of_decode? hbad)
  obtain ⟨hmissing₁, hmissing₂, -⟩ := unusable_run_changes_nothing hfiles
    (.input hmissing (p := ⟨"x"⟩) (by simp [Item.path?]) hclosed)
  obtain ⟨hlong₁, hlong₂, -⟩ := unusable_run_changes_nothing hfiles
    (.input hlong (by simp [Item.path?]) hunreadable)
  obtain ⟨hnoText₁, -, hnoText₂⟩ :=
    unusable_run_changes_nothing hfiles (.arguments hnoText.not_means)
  exact ⟨⟨hmissing₂ (hplain hmissing), hmissing₁⟩, ⟨hlong₂ (hplain hlong), hlong₁⟩,
    ⟨hnoText₂ hnoText, hnoText₁⟩, by decide +kernel⟩

/-- A configuration that is missing does not matter if another one is named behind it. -/
theorem earlier_configuration_unused :
    let files : FileTree :=
      { workingDirectory := ["w"]
        entries := [(["w"], .directory), (["w", "f"], .file [97]),
          (["w", "ok.json"], .file [123, 125])] }
    let env : Environment :=
      { arguments := ["v", "f", "--config", "missing.json", "--config", "ok.json"] }
    let noText : Environment := { arguments := ["v", "f", [0xFF]] }
    files.read ⟨"missing.json"⟩ = .error .notFound ∧ files.read ⟨"v"⟩ = .error .notFound ∧
      (run env files).exitCode = 0 ∧
      (run env files).files.read ⟨"v"⟩ = .ok ((Corpus.fresh.ingest [97]).vocabulary.toBytes) ∧
      (∀ text, Bytes.ofText text ≠ [0xFF]) ∧ (run noText files).exitCode = 101 := by
  intro files env noText
  exact ⟨by decide +kernel, by decide +kernel, by decide +kernel, by decide +kernel,
    Command.ofText_ne_of_decode? (by decide +kernel), by decide +kernel⟩

end Build

end BytePair
