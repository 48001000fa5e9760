import BytePair.Files.Tree
import BytePair.Proofs.BinaryForm

/-!
# What stands at a path

Writing, moving and removing files changes what is at single locations. What a path leads to changes
with it only if the path leads there.

* `FileTree.find`: what is at the end of a path.
* `FileTree.Names`: the path leads to a name in a directory, where a file may be put.
  `FileTree.Admits`: nothing keeps a file from being opened there.
* `FileTree.place_eq_ok_iff`, `FileTree.create_eq_ok_iff`, `FileTree.moveFile_eq_ok_iff`: what
  writing and moving ask for.
* `FileTree.KeepsDirectories`: as long as directories stay, paths lead where they led.
-/

namespace BytePair.FileTree

variable {t t' : FileTree} {p : Path} {l m dir dir' : Location} {name name' : Bytes}
  {content : Bytes} {e : Entry} {steps dots : List Bytes} {access : Permission}
  {refused : Permission → Option Fault}

/-! ## Entries -/

theorem get?_nil (t : FileTree) : t.get? [] = some .directory := by simp [get?]

theorem get?_put_of_ne_nil (t : FileTree) (hl : l ≠ []) (e : Entry)
    (refused : Permission → Option Fault) (m : Location) :
    (t.put l e refused).get? m = if m = l then some e else t.get? m := by
  by_cases hm : m = []
  · subst hm
    rw [if_neg hl.symm, get?_nil, get?_nil]
  · exact get?_put t l e refused hm

theorem get?_set_of_ne_nil (t : FileTree) (hl : l ≠ []) (e : Entry) (m : Location) :
    (t.set l e).get? m = if m = l then some e else t.get? m :=
  get?_put_of_ne_nil t hl e _ m

theorem get?_erase_of_ne_nil (t : FileTree) (hl : l ≠ []) (m : Location) :
    (t.erase l).get? m = if m = l then none else t.get? m := by
  by_cases hm : m = []
  · subst hm
    rw [if_neg hl.symm, get?_nil, get?_nil]
  · exact get?_erase t l hm

theorem refuses_put (t : FileTree) (l : Location) (e : Entry) (refused : Permission → Option Fault)
    (m : Location) : (t.put l e refused).refuses m = if m = l then refused else t.refuses m := by
  funext access
  show (if m = l then refused access else t.refuses m access) = _
  split <;> rfl

/-! ## Following a path -/

theorem permit_eq_ok_iff {u : Unit} : t.permit l access = .ok u ↔ t.refuses l access = none := by
  unfold permit
  split <;> simp_all

theorem permit_of_none (h : t.refuses l access = none) : t.permit l access = .ok () :=
  permit_eq_ok_iff.2 h

/-- There is a directory at the location, and names may be looked up in it. -/
structure Searchable (t : FileTree) (l : Location) : Prop where
  get?_eq : t.get? l = some .directory
  search : t.refuses l .search = none

theorem expectDirectory_eq_ok_iff : t.expectDirectory l = .ok () ↔ t.Searchable l := by
  unfold expectDirectory
  split
  · rename_i hget
    rw [permit_eq_ok_iff]
    exact ⟨fun h => ⟨hget, h⟩, Searchable.search⟩
  all_goals
    refine ⟨fun h => (by cases h), fun h => ?_⟩
    have hget := h.get?_eq
    simp_all

theorem walk_append (t : FileTree) (l : Location) (steps steps' : List Bytes) :
    t.walk l (steps ++ steps') = t.walk l steps >>= fun m => t.walk m steps' := by
  induction steps generalizing l with
  | nil => rfl
  | cons piece steps ih =>
    simp only [List.cons_append, walk, bind_assoc, ih]

theorem walk_singleton (hl : t.Searchable l) (name : Bytes) :
    t.walk l [name] = (checkName name).map fun _ => step l name := by
  rw [walk, expectDirectory_eq_ok_iff.2 hl]
  cases checkName name <;> rfl

theorem walk_cons_dot (t : FileTree) (l : Location) (steps : List Bytes) :
    t.walk l (Path.dot :: steps) = t.expectDirectory l >>= fun _ => t.walk l steps := rfl

/-- Dots lead nowhere else. -/
theorem walk_dots (hl : t.Searchable l) (hdots : ∀ dot ∈ dots, dot = Path.dot) :
    t.walk l dots = .ok l := by
  induction dots with
  | nil => rfl
  | cons dot dots ih =>
    obtain ⟨rfl, hrest⟩ := List.forall_mem_cons.1 hdots
    rw [walk_cons_dot, expectDirectory_eq_ok_iff.2 hl]
    exact ih hrest

theorem checkedSteps_eq_ok_iff : checkedSteps p = .ok steps ↔
    p.bytes ≠ [] ∧ 0 ∉ p.bytes ∧ fits p ∧ p.steps = steps := by
  unfold checkedSteps
  split
  · simp_all
  split
  · simp_all
  split <;> simp_all

theorem eq_steps_of_checkedSteps (h : checkedSteps p = .ok steps) : steps = p.steps :=
  (checkedSteps_eq_ok_iff.1 h).2.2.2.symm

theorem enter_eq_ok_iff : t.enter p = .ok (dir, name) ↔
    checkedSteps p = .ok p.steps ∧ t.walk (t.startOf p) p.steps.dropLast = .ok dir ∧
      t.Searchable dir ∧ p.steps.getLastD Path.dot = name := by
  simp only [enter, bind_eq_ok, pure_eq_ok, Prod.mk.injEq]
  constructor
  · rintro ⟨steps, hsteps, dir, hdir, ⟨⟩, hexpect, rfl, rfl⟩
    obtain rfl := eq_steps_of_checkedSteps hsteps
    exact ⟨hsteps, hdir, expectDirectory_eq_ok_iff.1 hexpect, rfl⟩
  · rintro ⟨hsteps, hdir, hexpect, rfl⟩
    exact ⟨_, hsteps, _, hdir, (), expectDirectory_eq_ok_iff.2 hexpect, rfl, rfl⟩

theorem locate_eq_ok_iff : t.locate p = .ok l ↔
    checkedSteps p = .ok p.steps ∧ t.walk (t.startOf p) p.steps = .ok l ∧
      (p.endsWithSlash → t.get? l = none ∨ t.get? l = some .directory) := by
  simp only [locate, bind_eq_ok]
  constructor
  · rintro ⟨steps, hsteps, m, hwalk, h⟩
    obtain rfl := eq_steps_of_checkedSteps hsteps
    split at h
    · obtain rfl := Except.ok.inj h
      exact ⟨hsteps, hwalk, fun _ => .inl ‹_›⟩
    · obtain rfl := Except.ok.inj h
      exact ⟨hsteps, hwalk, fun _ => .inr ‹_›⟩
    · split at h
      · cases h
      · rename_i hslash
        obtain rfl := Except.ok.inj h
        exact ⟨hsteps, hwalk, fun h => absurd h hslash⟩
  · rintro ⟨hsteps, hwalk, hslash⟩
    refine ⟨_, hsteps, _, hwalk, ?_⟩
    split
    · rfl
    · rfl
    · rw [if_neg fun h => ?_]
      rcases hslash h with hnone | hdir <;> simp_all

/-! ## What a path leads to -/

theorem read_of_locate (hl : t.locate p = .ok l) (hfile : t.get? l = some (.file content))
    (hread : t.refuses l .read = none) : t.read p = .ok content := by
  simp only [read, hl, bind, Except.bind, hfile, permit_of_none hread]

/-- The path leads to a name in a directory, at which there is no directory. So a file may be put
there. -/
structure Names (t : FileTree) (p : Path) (dir : Location) (name : Bytes) : Prop where
  enter : t.enter p = .ok (dir, name)
  isDots : isDots name = false
  endsWithSlash : p.endsWithSlash = false
  checkName : checkName name = .ok ()
  get?_ne : t.get? (dir ++ [name]) ≠ some .directory

theorem Names.unique (h : t.Names p dir name) (h' : t.Names p dir' name') :
    dir = dir' ∧ name = name' := by
  have heq := h.enter.symm.trans h'.enter
  simpa using heq

theorem step_of_not_isDots (h : isDots name = false) (l : Location) :
    step l name = l ++ [name] := by
  simp only [FileTree.isDots, Bool.or_eq_false_iff, decide_eq_false_iff_not] at h
  rw [step, if_neg h.1, if_neg h.2]

/-- A name among dots leads to its place in the directory before it. -/
theorem walk_name {above : List Bytes} (hwalk : t.walk l above = .ok dir)
    (hdir : t.Searchable dir) (hdots : ∀ dot ∈ dots, dot = Path.dot)
    (hcheck : checkName name = .ok ()) (hname : isDots name = false) (behind : List Bytes) :
    t.walk l (above ++ (dots ++ name :: behind)) = t.walk (dir ++ [name]) behind := by
  have hsingle : t.walk dir [name] = .ok (dir ++ [name]) := by
    rw [walk_singleton hdir, hcheck, step_of_not_isDots hname]
    rfl
  have hcons : name :: behind = [name] ++ behind := rfl
  rw [walk_append, hwalk]
  show t.walk dir (dots ++ name :: behind) = _
  rw [walk_append, walk_dots hdir hdots]
  show t.walk dir (name :: behind) = _
  rw [hcons, walk_append, hsingle]
  rfl

theorem Names.locate (h : t.Names p dir name) : t.locate p = .ok (dir ++ [name]) := by
  obtain ⟨hsteps, hwalk, hdir, hlast⟩ := enter_eq_ok_iff.1 h.enter
  have hne : p.steps ≠ [] := by
    intro hnil
    rw [hnil] at hlast
    subst hlast
    exact absurd h.isDots (by decide)
  have hname : p.steps = p.steps.dropLast ++ [name] := by
    rw [← hlast, List.getLastD_eq_getLast?, List.getLast?_eq_some_getLast hne, Option.getD_some,
      List.dropLast_concat_getLast]
  have hplace : t.walk (t.startOf p) p.steps = .ok (dir ++ [name]) := by
    rw [hname]
    exact walk_name hwalk hdir (List.forall_mem_nil _) h.checkName h.isDots []
  have hslash := h.endsWithSlash
  simp only [FileTree.locate, hsteps, bind, Except.bind] at hplace ⊢
  rw [hplace]
  simp only [hslash, Bool.false_eq_true, if_false]
  split <;> rfl

theorem lookUp_eq_ok_iff {found : Option Entry} : t.lookUp dir name = .ok found ↔
    checkName name = .ok () ∧ t.get? (dir ++ [name]) = found := by
  simp only [lookUp, bind_eq_ok, pure_eq_ok]
  exact ⟨fun ⟨_, hname, hfound⟩ => ⟨hname, hfound⟩, fun ⟨hname, hfound⟩ => ⟨_, hname, hfound⟩⟩

/-- Nothing keeps a file from being opened for writing: one that is added to a directory, or one that
is there. -/
inductive Admits (t : FileTree) (dir : Location) (name : Bytes) : Prop
  | new (hnone : t.get? (dir ++ [name]) = none) (hadd : t.refuses dir .add = none)
  | old {content : Bytes} (hfile : t.get? (dir ++ [name]) = some (.file content))
    (hread : t.refuses (dir ++ [name]) .read = none)
    (hwrite : t.refuses (dir ++ [name]) .write = none)

theorem place_eq_ok_iff : t.place p = .ok l ↔
    ∃ dir name, t.Names p dir name ∧ t.Admits dir name ∧ dir ++ [name] = l := by
  simp only [place, bind_eq_ok, throw_bind, ite_throw_eq_ok, Prod.exists, lookUp_eq_ok_iff,
    Bool.or_eq_true, not_or, Bool.not_eq_true]
  constructor
  · rintro ⟨dir, name, henter, ⟨hname, hslash⟩, found, ⟨hcheck, rfl⟩, hopen⟩
    have hnames (hne : t.get? (dir ++ [name]) ≠ some .directory) : t.Names p dir name :=
      ⟨henter, hname, hslash, hcheck, hne⟩
    split at hopen
    · cases hopen
    · cases hopen
    · rename_i content hfile
      simp only [bind_eq_ok, permit_eq_ok_iff, pure_eq_ok] at hopen
      obtain ⟨-, hread, -, hwrite, rfl⟩ := hopen
      exact ⟨dir, name, hnames (by simp [hfile]), .old hfile hread hwrite, rfl⟩
    · rename_i hnone
      simp only [bind_eq_ok, permit_eq_ok_iff, pure_eq_ok] at hopen
      obtain ⟨-, hadd, rfl⟩ := hopen
      exact ⟨dir, name, hnames (by simp [hnone]), .new hnone hadd, rfl⟩
  · rintro ⟨dir, name, h, hadmits, rfl⟩
    refine ⟨dir, name, h.enter, ⟨h.isDots, h.endsWithSlash⟩, _, ⟨h.checkName, rfl⟩, ?_⟩
    cases hadmits with
    | new hnone hadd =>
      simp only [hnone, permit_of_none hadd]
      rfl
    | old hfile hread hwrite =>
      simp only [hfile, permit_of_none hread, permit_of_none hwrite]
      rfl

theorem create_eq_ok_iff : t.create p content = .ok t' ↔
    ∃ dir name, t.Names p dir name ∧ t.Admits dir name ∧
      t.shortageOf (dir ++ [name]) content = none ∧
      t' = t.set (dir ++ [name]) (.file content) := by
  simp only [create, bind_eq_ok, place_eq_ok_iff, fill]
  constructor
  · rintro ⟨_, ⟨dir, name, h, hadmits, rfl⟩, hfill⟩
    split at hfill
    · cases hfill
    · rename_i written hwritten
      split at hwritten
      · cases hwritten
      · cases hwritten
        exact ⟨dir, name, h, hadmits, ‹_›, (Except.ok.inj hfill).symm⟩
  · rintro ⟨dir, name, h, hadmits, hroom, rfl⟩
    exact ⟨_, ⟨dir, name, h, hadmits, rfl⟩, by simp only [hroom]⟩

theorem create_of_place (hplace : t.place p = .ok l) (hroom : t.shortageOf l content = none) :
    t.create p content = .ok (t.set l (.file content)) := by
  simp only [create, hplace, bind, Except.bind, fill, hroom]

/-- The second tree has the directories of the first one, and they may be searched as before. -/
structure KeepsDirectories (t t' : FileTree) : Prop where
  workingDirectory_eq : t'.workingDirectory = t.workingDirectory
  searchable {l : Location} : t.Searchable l → t'.Searchable l

theorem KeepsDirectories.startOf_eq (h : t.KeepsDirectories t') (p : Path) :
    t'.startOf p = t.startOf p := by
  rw [startOf, startOf, h.workingDirectory_eq]

theorem KeepsDirectories.walk (h : t.KeepsDirectories t') (hm : t.walk l steps = .ok m) :
    t'.walk l steps = .ok m := by
  induction steps generalizing l with
  | nil => exact hm
  | cons piece steps ih =>
    simp only [FileTree.walk, bind_eq_ok] at hm ⊢
    obtain ⟨_, hl, _, hpiece, hm⟩ := hm
    have hl := h.searchable (expectDirectory_eq_ok_iff.1 hl)
    exact ⟨_, expectDirectory_eq_ok_iff.2 hl, _, hpiece, ih hm⟩

theorem KeepsDirectories.enter (h : t.KeepsDirectories t') (hp : t.enter p = .ok (dir, name)) :
    t'.enter p = .ok (dir, name) := by
  obtain ⟨hsteps, hwalk, hdir, hlast⟩ := enter_eq_ok_iff.1 hp
  refine enter_eq_ok_iff.2 ⟨hsteps, ?_, h.searchable hdir, hlast⟩
  rw [h.startOf_eq]
  exact h.walk hwalk

/-- A name keeps its place, as long as no directory takes it. -/
theorem KeepsDirectories.names (h : t.KeepsDirectories t') (hp : t.Names p dir name)
    (hget : t'.get? (dir ++ [name]) ≠ some .directory) : t'.Names p dir name :=
  ⟨h.enter hp.enter, hp.isDots, hp.endsWithSlash, hp.checkName, hget⟩

theorem KeepsDirectories.trans {t'' : FileTree} (h : t.KeepsDirectories t')
    (h' : t'.KeepsDirectories t'') : t.KeepsDirectories t'' :=
  ⟨h'.workingDirectory_eq.trans h.workingDirectory_eq, fun hl => h'.searchable (h.searchable hl)⟩

theorem keepsDirectories_put (hl : l ≠ []) (hget : t.get? l ≠ some .directory) (e : Entry)
    (refused : Permission → Option Fault) : t.KeepsDirectories (t.put l e refused) := by
  refine ⟨rfl, fun {m} hm => ?_⟩
  have hne : m ≠ l := by
    rintro rfl
    exact hget hm.get?_eq
  refine ⟨?_, (if_neg hne).trans hm.search⟩
  rw [get?_put_of_ne_nil t hl, if_neg hne]
  exact hm.get?_eq

theorem keepsDirectories_set (hl : l ≠ []) (hget : t.get? l ≠ some .directory) (e : Entry) :
    t.KeepsDirectories (t.set l e) :=
  keepsDirectories_put hl hget e _

theorem keepsDirectories_erase (hl : l ≠ []) (hget : t.get? l ≠ some .directory) :
    t.KeepsDirectories (t.erase l) := by
  refine ⟨rfl, fun {m} hm => ⟨?_, hm.search⟩⟩
  rw [get?_erase_of_ne_nil t hl, if_neg]
  · exact hm.get?_eq
  · rintro rfl
    exact hget hm.get?_eq

theorem append_singleton_ne_nil (dir : Location) (name : Bytes) : dir ++ [name] ≠ [] := by simp

/-- A file that is written is found at its path. -/
theorem Names.put (h : t.Names p dir name) (he : e ≠ .directory)
    (refused : Permission → Option Fault) : (t.put (dir ++ [name]) e refused).Names p dir name := by
  have hne := append_singleton_ne_nil dir name
  refine (keepsDirectories_put hne h.get?_ne _ _).names h ?_
  rw [get?_put_of_ne_nil t hne, if_pos rfl]
  simpa using he

theorem Names.set (h : t.Names p dir name) (content : Bytes) :
    (t.set (dir ++ [name]) (.file content)).Names p dir name :=
  h.put (by simp) _

theorem Names.erase (h : t.Names p dir name) : (t.erase (dir ++ [name])).Names p dir name := by
  have hne := append_singleton_ne_nil dir name
  refine (keepsDirectories_erase hne h.get?_ne).names h ?_
  rw [get?_erase_of_ne_nil t hne, if_pos rfl]
  simp

theorem refuses_set_self (t : FileTree) (l : Location) (e : Entry) (access : Permission) :
    (t.set l e).refuses l access = none := by
  rw [set, refuses_put, if_pos rfl]

theorem Names.read (h : t.Names p dir name)
    (hfile : t.get? (dir ++ [name]) = some (.file content))
    (hread : t.refuses (dir ++ [name]) .read = none) : t.read p = .ok content :=
  read_of_locate h.locate hfile hread

/-- What was written is read. -/
theorem read_of_create (h : t.create p content = .ok t') : t'.read p = .ok content := by
  obtain ⟨dir, name, hnames, -, -, rfl⟩ := create_eq_ok_iff.1 h
  refine (hnames.set content).read ?_ (refuses_set_self _ _ _ _)
  rw [get?_set_of_ne_nil t (append_singleton_ne_nil dir name), if_pos rfl]

theorem Names.removeFile (h : t.Names p dir name)
    (hfile : t.get? (dir ++ [name]) = some (.file content)) :
    t.removeFile p = if t.refuses dir .remove = none then t.erase (dir ++ [name]) else t := by
  simp only [FileTree.removeFile, h.locate, hfile, List.dropLast_concat]

/-! ## Trees that differ at some places -/

/-- The trees have the same everywhere but at some places. -/
structure SameBut (places : List Location) (t t' : FileTree) : Prop where
  workingDirectory_eq : t'.workingDirectory = t.workingDirectory
  get?_eq (l : Location) : l ∉ places → t'.get? l = t.get? l
  refuses_eq (l : Location) : l ∉ places → t'.refuses l = t.refuses l
  shortage_eq : t'.shortage = t.shortage

theorem sameBut_set (t : FileTree) (hl : l ≠ []) (e : Entry) : t.SameBut [l] (t.set l e) := by
  refine ⟨rfl, fun m hm => ?_, fun m hm => ?_, rfl⟩
  · rw [get?_set_of_ne_nil t hl, if_neg (by simpa using hm)]
  · rw [set, refuses_put, if_neg (by simpa using hm)]

end BytePair.FileTree
