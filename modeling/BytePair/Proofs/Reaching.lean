import BytePair.Files.Walk
import BytePair.Proofs.Paths
import BytePair.Proofs.Places

/-!
# What is below a directory

Names lead from a directory down to what is below it. A path that goes on with these names leads
there too, if it is short enough and the names may be looked up on the way.

* `Path.joinAll`: a path extended by names.
* `FileTree.Proper`: a tree that has no location twice, and only names that can be looked up.
* `FileTree.Reaches`: names that lead down to an entry. `FileTree.Passes`: names that may be looked
  up on the way.
* `FileTree.locate_joinAll_iff`, `FileTree.isDirectory_joinAll_iff`: where the extended path leads,
  and when it is seen to lead to a directory.
* `FileTree.locate_slashed`: slashes behind the path of a directory change nothing, until it is too
  long.
-/

namespace BytePair

namespace Path

variable {p : Path} {b : UInt8} {name : Bytes} {names : List Bytes}

/-! ## Longer paths -/

/-- The path extended by names, one after another. -/
def joinAll (p : Path) (names : List Bytes) : Path := names.foldl join p

theorem joinAll_nil (p : Path) : p.joinAll [] = p := rfl

theorem joinAll_cons (p : Path) (name : Bytes) (names : List Bytes) :
    p.joinAll (name :: names) = (p.join name).joinAll names := rfl

theorem le_length_join (p : Path) (name : Bytes) :
    p.bytes.length + name.length ≤ (p.join name).bytes.length := by
  unfold join
  split <;> simp only [List.length_append, List.length_cons]
  · exact Nat.le_refl _
  · omega

theorem le_length_joinAll (p : Path) (names : List Bytes) :
    p.bytes.length ≤ (p.joinAll names).bytes.length := by
  induction names generalizing p with
  | nil => exact Nat.le_refl _
  | cons name names ih =>
    have hjoin := p.le_length_join name
    have hrest := ih (p.join name)
    rw [joinAll_cons]
    omega

theorem notMem_join (hb : b ≠ slash) (hp : b ∉ p.bytes) (hname : b ∉ name) :
    b ∉ (p.join name).bytes := by
  unfold join
  split <;> simp [hp, hname, hb]

theorem endsWithSlash_join (hname : name ≠ []) (hslash : slash ∉ name) :
    (p.join name).endsWithSlash = false := by
  have hlast : name.getLast hname ≠ slash := fun h => hslash (h ▸ List.getLast_mem hname)
  have hname? := List.getLast?_eq_some_getLast hname
  unfold join endsWithSlash
  split <;> simp [List.getLast?_append, List.getLast?_cons, hname?, hlast]

/-! ## Slashes at the end of a path -/

/-- The path with slashes at its end. -/
def slashed (p : Path) (n : Nat) : Path := ⟨p.bytes ++ List.replicate n slash⟩

theorem length_slashed (p : Path) (n : Nat) :
    (p.slashed n).bytes.length = p.bytes.length + n := by
  simp [slashed]

theorem steps_slashed (p : Path) (n : Nat) : (p.slashed n).steps = p.steps := by
  induction n with
  | zero => simp [slashed]
  | succ n ih =>
    have hsucc : (p.slashed (n + 1)).bytes = (p.slashed n).bytes ++ slash :: [] := by
      simp [slashed, List.replicate_succ']
    have hempty : (⟨[]⟩ : Path).pieces = [[]] := rfl
    rw [← ih, steps, show p.slashed (n + 1) = ⟨_⟩ from congrArg Path.mk hsucc,
      pieces_append_slash, hempty]
    simp [steps]

theorem isAbsolute_slashed (hp : p.bytes ≠ []) (n : Nat) :
    (p.slashed n).isAbsolute = p.isAbsolute := by
  obtain ⟨b, bs, hbs⟩ := List.exists_cons_of_ne_nil hp
  simp [isAbsolute, slashed, hbs]

end Path

namespace FileTree

variable {t t' : FileTree} {p : Path} {dir l : Location} {name : Bytes} {names : List Bytes}
  {e : Entry}

theorem fits_of_joinAll (h : fits (p.joinAll names)) : fits p := by
  have hle := p.le_length_joinAll names
  simp only [fits, decide_eq_true_eq] at h ⊢
  omega

theorem not_fits_join (hp : pathLimit ≤ p.bytes.length) (hname : name ≠ []) :
    ¬ fits (p.join name) := by
  have hjoin := p.le_length_join name
  have hpos := List.length_pos_iff.2 hname
  rw [fits, decide_eq_true_eq]
  omega

/-! ## Trees -/

/-- A name that an entry may have. -/
structure IsName (name : Bytes) : Prop where
  ne_nil : name ≠ []
  slash : Path.slash ∉ name
  nul : 0 ∉ name
  isDots : isDots name = false
  length : name.length ≤ nameLimit

instance : Decidable (IsName name) :=
  decidable_of_iff (name ≠ [] ∧ Path.slash ∉ name ∧ 0 ∉ name ∧ isDots name = false ∧
      name.length ≤ nameLimit)
    ⟨fun ⟨hempty, hslash, hnul, hdots, hlength⟩ => ⟨hempty, hslash, hnul, hdots, hlength⟩,
      fun ⟨hempty, hslash, hnul, hdots, hlength⟩ => ⟨hempty, hslash, hnul, hdots, hlength⟩⟩

theorem IsName.checkName (h : IsName name) : checkName name = .ok () :=
  if_neg (Nat.not_lt.2 h.length)

/-- No location is taken twice, and locations consist of names. -/
structure Proper (t : FileTree) : Prop where
  nodup : (t.entries.map (·.1)).Nodup
  isName : ∀ x ∈ t.entries, ∀ name ∈ x.1, IsName name

/-- A directory has every name once. -/
theorem Proper.nodup_names (ht : t.Proper) (dir : Location) : (t.names dir).Nodup := by
  rw [names, List.Nodup, List.pairwise_filterMap]
  refine (List.pairwise_map.1 ht.nodup).imp fun {x y} hxy m hm n hn hmn => hxy ?_
  simp only [Option.ite_none_right_eq_some, List.getLast?_eq_some_iff] at hm hn
  obtain ⟨hxdir, xs, hx⟩ := hm
  obtain ⟨hydir, ys, hy⟩ := hn
  rw [hx, List.dropLast_concat] at hxdir
  rw [hy, List.dropLast_concat] at hydir
  rw [hx, hy, hxdir, hydir, hmn]

theorem mem_names_iff : name ∈ t.names dir ↔ ∃ e, t.get? (dir ++ [name]) = some e := by
  rw [get?, if_neg (by simp), mem_names]
  constructor
  · rintro ⟨e, he⟩
    exact Option.isSome_iff_exists.1 (List.lookup_isSome_iff.2 ⟨_, he, by simp⟩)
  · rintro ⟨e, he⟩
    obtain ⟨before, after, hentries, -⟩ := List.lookup_eq_some_iff.1 he
    exact ⟨e, by simp [hentries]⟩

theorem Proper.isName_of_get? (ht : t.Proper) (h : t.get? (dir ++ [name]) = some e) :
    IsName name := by
  obtain ⟨e', he'⟩ := mem_names.1 (mem_names_iff.2 ⟨e, h⟩)
  exact ht.isName _ he' name (by simp)

/-! ## Names that lead down -/

/-- The names lead from the location through directories to the entry. -/
def Reaches (t : FileTree) (l : Location) : List Bytes → Entry → Prop
  | [], e => t.get? l = some e
  | name :: names, e => t.get? l = some .directory ∧ t.Reaches (l ++ [name]) names e

/-- Each of the names may be looked up in what the names before it lead to. -/
def Passes (t : FileTree) (l : Location) : List Bytes → Prop
  | [] => True
  | name :: names => t.refuses l .search = none ∧ t.Passes (l ++ [name]) names

theorem isName_of_reaches (ht : t.Proper) (h : t.Reaches dir names e) :
    ∀ name ∈ names, IsName name := by
  induction names generalizing dir with
  | nil => exact List.forall_mem_nil _
  | cons name names ih =>
    have hname : IsName name := by
      cases names with
      | nil => exact ht.isName_of_get? h.2
      | cons _ _ => exact ht.isName_of_get? h.2.1
    exact List.forall_mem_cons.2 ⟨hname, ih h.2⟩

theorem get?_of_reaches (h : t.Reaches dir names e) : t.get? (dir ++ names) = some e := by
  induction names generalizing dir with
  | nil => simpa [Reaches] using h
  | cons name names ih => simpa using ih h.2

theorem get?_of_reaches_directory (h : t.Reaches dir names .directory) :
    t.get? dir = some .directory := by
  cases names with
  | nil => exact h
  | cons name names => exact h.1

theorem reaches_dropLast (hne : names ≠ []) (h : t.Reaches dir names e) :
    t.Reaches dir names.dropLast .directory := by
  induction names generalizing dir with
  | nil => exact absurd rfl hne
  | cons name names ih =>
    cases names with
    | nil => exact h.1
    | cons next names => exact ⟨h.1, ih (List.cons_ne_nil _ _) h.2⟩

theorem Passes.dropLast (h : t.Passes dir names) : t.Passes dir names.dropLast := by
  induction names generalizing dir with
  | nil => trivial
  | cons name names ih =>
    cases names with
    | nil => trivial
    | cons next names => exact ⟨h.1, ih h.2⟩

/-- Following names that lead down leads to where they lead, just if they may be looked up. -/
theorem walk_eq_ok_iff_of_reaches (h : t.Reaches dir names e)
    (hnames : ∀ name ∈ names, IsName name) :
    t.walk dir names = .ok l ↔ t.Passes dir names ∧ l = dir ++ names := by
  induction names generalizing dir with
  | nil => simp [walk, Passes, eq_comm]
  | cons name names ih =>
    obtain ⟨hname, hrest⟩ := List.forall_mem_cons.1 hnames
    have hstep := step_of_not_isDots hname.isDots dir
    simp only [walk, bind_eq_ok, hstep, ih h.2 hrest, List.append_assoc, List.singleton_append,
      Passes]
    constructor
    · rintro ⟨_, hdir, _, -, hpasses, hl⟩
      exact ⟨⟨(expectDirectory_eq_ok_iff.1 hdir).search, hpasses⟩, hl⟩
    · rintro ⟨⟨hsearch, hpasses⟩, hl⟩
      exact ⟨(), expectDirectory_eq_ok_iff.2 ⟨h.1, hsearch⟩, (), hname.checkName, hpasses, hl⟩

/-! ## Paths that lead down -/

theorem steps_joinAll (h : ∀ name ∈ names, IsName name) :
    (p.joinAll names).steps = p.steps ++ names := by
  induction names generalizing p with
  | nil => simp [Path.joinAll]
  | cons name names ih =>
    obtain ⟨hname, hnames⟩ := List.forall_mem_cons.1 h
    rw [Path.joinAll_cons, ih hnames, Path.steps_join hname.ne_nil hname.slash,
      List.append_assoc, List.singleton_append]

theorem joinAll_inj {names' : List Bytes} (h : ∀ name ∈ names, IsName name)
    (h' : ∀ name ∈ names', IsName name) : p.joinAll names = p.joinAll names' ↔ names = names' := by
  refine ⟨fun heq => ?_, fun heq => heq ▸ rfl⟩
  have hsteps := congrArg Path.steps heq
  rw [steps_joinAll h, steps_joinAll h'] at hsteps
  exact List.append_cancel_left hsteps

theorem isAbsolute_joinAll (h : ∀ name ∈ names, IsName name) :
    (p.joinAll names).isAbsolute = p.isAbsolute := by
  induction names generalizing p with
  | nil => rfl
  | cons name names ih =>
    obtain ⟨hname, hnames⟩ := List.forall_mem_cons.1 h
    rw [Path.joinAll_cons, ih hnames, Path.isAbsolute_join hname.slash]

theorem nul_notMem_joinAll (h : ∀ name ∈ names, IsName name) (hp : 0 ∉ p.bytes) :
    0 ∉ (p.joinAll names).bytes := by
  induction names generalizing p with
  | nil => exact hp
  | cons name names ih =>
    obtain ⟨hname, hnames⟩ := List.forall_mem_cons.1 h
    exact ih hnames (Path.notMem_join (by decide) hp hname.nul)

theorem bytes_joinAll_ne (hp : p.bytes ≠ []) : (p.joinAll names).bytes ≠ [] := by
  have hle := p.le_length_joinAll names
  have hpos := List.length_pos_iff.2 hp
  exact List.ne_nil_of_length_pos (by omega)

theorem endsWithSlash_joinAll (h : ∀ name ∈ names, IsName name) (hne : names ≠ []) :
    (p.joinAll names).endsWithSlash = false := by
  induction names generalizing p with
  | nil => exact absurd rfl hne
  | cons name names ih =>
    obtain ⟨hname, hnames⟩ := List.forall_mem_cons.1 h
    cases names with
    | nil => exact Path.endsWithSlash_join hname.ne_nil hname.slash
    | cons next names => exact ih hnames (List.cons_ne_nil _ _)

/-- A path that goes on with names that lead down leads to where they lead, just if it is short
enough and the names may be looked up. -/
theorem locate_joinAll_iff (ht : t.Proper) (hp : t.locate p = .ok dir)
    (h : t.Reaches dir names e) : t.locate (p.joinAll names) = .ok l ↔
      (fits (p.joinAll names) ∧ t.Passes dir names) ∧ l = dir ++ names := by
  have hnames := isName_of_reaches ht h
  obtain ⟨hsteps, hwalk, hslash⟩ := locate_eq_ok_iff.1 hp
  obtain ⟨hbytes, hnul, -, -⟩ := checkedSteps_eq_ok_iff.1 hsteps
  have hchecked : checkedSteps (p.joinAll names) = .ok (p.joinAll names).steps ↔
      fits (p.joinAll names) := by
    rw [checkedSteps_eq_ok_iff]
    exact ⟨fun h => h.2.2.1, fun h =>
      ⟨bytes_joinAll_ne hbytes, nul_notMem_joinAll hnames hnul, h, rfl⟩⟩
  have hstart : t.startOf (p.joinAll names) = t.startOf p := by
    rw [startOf, startOf, isAbsolute_joinAll hnames]
  have hfollow : t.walk (t.startOf p) (p.steps ++ names) = t.walk dir names := by
    rw [walk_append, hwalk]
    rfl
  rw [locate_eq_ok_iff, hchecked, steps_joinAll hnames, hstart, hfollow,
    walk_eq_ok_iff_of_reaches h hnames]
  constructor
  · rintro ⟨hfits, ⟨hpasses, hl⟩, -⟩
    exact ⟨⟨hfits, hpasses⟩, hl⟩
  · rintro ⟨⟨hfits, hpasses⟩, hl⟩
    refine ⟨hfits, ⟨hpasses, hl⟩, fun hend => ?_⟩
    by_cases hne : names = []
    · subst hne
      rw [hl, List.append_nil]
      exact hslash hend
    · rw [endsWithSlash_joinAll hnames hne] at hend
      cases hend

/-- It is seen to lead to a directory, if it leads to one. -/
theorem isDirectory_joinAll_iff (ht : t.Proper) (hp : t.locate p = .ok dir)
    (h : t.Reaches dir names e) : t.isDirectory (p.joinAll names) ↔
      e = .directory ∧ fits (p.joinAll names) ∧ t.Passes dir names := by
  have hlocate (l : Location) := locate_joinAll_iff ht hp (l := l) h
  unfold isDirectory
  cases hl : t.locate (p.joinAll names) with
  | error fault =>
    refine iff_of_false (by simp) fun h => ?_
    cases hl.symm.trans ((hlocate _).2 ⟨h.2, rfl⟩)
  | ok l =>
    obtain ⟨hpasses, rfl⟩ := (hlocate l).1 hl
    simp only [get?_of_reaches h, Option.some.injEq, decide_eq_true_eq]
    exact (and_iff_left hpasses).symm

theorem read_joinAll (ht : t.Proper) (hp : t.locate p = .ok dir) {content : Bytes}
    (h : t.Reaches dir names (.file content)) (hfits : fits (p.joinAll names))
    (hpasses : t.Passes dir names) (hread : t.refuses (dir ++ names) .read = none) :
    t.read (p.joinAll names) = .ok content :=
  read_of_locate ((locate_joinAll_iff ht hp h).2 ⟨⟨hfits, hpasses⟩, rfl⟩) (get?_of_reaches h) hread

/-- Slashes behind the path of a directory lead to the same directory. -/
theorem locate_slashed (hp : t.locate p = .ok dir) (hdir : t.get? dir = some .directory) {n : Nat}
    (hfits : fits (p.slashed n)) : t.locate (p.slashed n) = .ok dir := by
  obtain ⟨hsteps, hwalk, -⟩ := locate_eq_ok_iff.1 hp
  obtain ⟨hbytes, hnul, -, -⟩ := checkedSteps_eq_ok_iff.1 hsteps
  have hslashed : checkedSteps (p.slashed n) = .ok (p.slashed n).steps :=
    checkedSteps_eq_ok_iff.2 ⟨by simp [Path.slashed, hbytes],
      by simp [Path.slashed, hnul, Path.slash], hfits, rfl⟩
  have hstart : t.startOf (p.slashed n) = t.startOf p := by
    simp only [startOf, Path.isAbsolute_slashed hbytes]
  exact locate_eq_ok_iff.2 ⟨hslashed, by rwa [hstart, p.steps_slashed n], fun _ => .inr hdir⟩

end FileTree

end BytePair
