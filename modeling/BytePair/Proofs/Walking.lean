import BytePair.Proofs.Reaching
import Mathlib.Data.List.Nodup
import Mathlib.Order.Defs.LinearOrder

/-!
# The walk through a directory

Everything below a directory is collected once, in an order that depends on the names only.

* `FileTree.Enters`: names that lead to a directory that the walk goes into. `FileTree.Ends`: names
  that lead to what it collects.
* `FileTree.namesBelow`: the names to everything that is collected, in their order
  (`FileTree.mem_namesBelow_iff`, `FileTree.collectBelow_eq_ok_iff`).
* `FileTree.pairwise_namesBelow`: they ascend, first by the first name, then by the second one, and
  so on, and names by their bytes. This is the order of a walk that finishes a directory before it
  goes on.
* `FileTree.collectBelow_eq_error`: the walk fails at a directory that cannot be listed.
* `FileTree.collect_of_perm`: the order in which directories list their names has no influence.
* `FileTree.collect_walks`: the result.
-/

namespace BytePair

/-! ## Lists of results -/

section Lists

variable {α β ε : Type} {f : α → Except ε β} {xs : List α} {ys : List β} {e : ε}

theorem mapError_eq_ok_iff {ε' : Type} {x : Except ε α} {f : ε → ε'} {a : α} :
    x.mapError f = .ok a ↔ x = .ok a := by
  cases x <;> simp [Except.mapError]

theorem map_eq_ok_iff {x : Except ε α} {g : α → β} {b : β} :
    x.map g = .ok b ↔ ∃ a, x = .ok a ∧ g a = b := by
  cases x <;> simp [Except.map]

theorem bind_pure_eq_error {x : Except ε α} {g : α → β} :
    (x >>= fun a => pure (g a)) = .error e ↔ x = .error e := by
  cases x <;> simp [bind, Except.bind, pure, Except.pure]

theorem mapM_eq_ok_iff {P : α → Prop} {g : α → β}
    (h : ∀ x ∈ xs, ∀ y, f x = .ok y ↔ P x ∧ y = g x) :
    xs.mapM f = .ok ys ↔ (∀ x ∈ xs, P x) ∧ ys = xs.map g := by
  induction xs generalizing ys with
  | nil => simp [pure, Except.pure, eq_comm]
  | cons x xs ih =>
    obtain ⟨hx, hxs⟩ := List.forall_mem_cons.1 h
    simp only [List.mapM_cons, bind_eq_ok, pure_eq_ok, hx, ih hxs, List.forall_mem_cons,
      List.map_cons]
    constructor
    · rintro ⟨_, ⟨hP, rfl⟩, _, ⟨hPs, rfl⟩, rfl⟩
      exact ⟨⟨hP, hPs⟩, rfl⟩
    · rintro ⟨⟨hP, hPs⟩, rfl⟩
      exact ⟨_, ⟨hP, rfl⟩, _, ⟨hPs, rfl⟩, rfl⟩

theorem mapM_congr {g : α → Except ε β} (h : ∀ x ∈ xs, f x = g x) : xs.mapM f = xs.mapM g := by
  induction xs with
  | nil => rfl
  | cons x xs ih =>
    obtain ⟨hx, hxs⟩ := List.forall_mem_cons.1 h
    rw [List.mapM_cons, List.mapM_cons, hx, ih hxs]

theorem exists_of_mapM_eq_ok (h : xs.mapM f = .ok ys) : ∀ x ∈ xs, ∃ y ∈ ys, f x = .ok y := by
  induction xs generalizing ys with
  | nil => exact List.forall_mem_nil _
  | cons x xs ih =>
    simp only [List.mapM_cons, bind_eq_ok, pure_eq_ok] at h
    obtain ⟨y, hy, ys, hys, rfl⟩ := h
    refine List.forall_mem_cons.2 ⟨⟨y, List.mem_cons_self, hy⟩, fun x' hx' => ?_⟩
    obtain ⟨y', hy', hfx'⟩ := ih hys x' hx'
    exact ⟨y', List.mem_cons_of_mem y hy', hfx'⟩

theorem exists_of_mapM_eq_error (h : xs.mapM f = .error e) : ∃ x ∈ xs, f x = .error e := by
  induction xs with
  | nil => cases h
  | cons x xs ih =>
    rw [List.mapM_cons] at h
    cases hx : f x with
    | error e' =>
      rw [hx] at h
      exact ⟨x, List.mem_cons_self, hx.trans (congrArg _ (Except.error.inj h))⟩
    | ok y =>
      rw [hx] at h
      cases hxs : xs.mapM f with
      | error e' =>
        rw [hxs] at h
        obtain rfl : e' = e := Except.error.inj h
        obtain ⟨x', hx', hfx'⟩ := ih hxs
        exact ⟨x', List.mem_cons_of_mem x hx', hfx'⟩
      | ok ys =>
        rw [hxs] at h
        cases h

end Lists

namespace FileTree

variable {t t' : FileTree} {p q : Path} {dir : Location} {name : Bytes} {names : List Bytes}
  {e : Entry}

/-! ## Where the walk goes -/

/-- The names lead to a directory, and it is seen to be one. -/
structure Enters (t : FileTree) (p : Path) (dir : Location) (names : List Bytes) : Prop where
  reaches : t.Reaches dir names .directory
  isDirectory : t.isDirectory (p.joinAll names)

/-- The names lead to something that is not seen to be a directory, in a directory that is. -/
structure Ends (t : FileTree) (p : Path) (dir : Location) (names : List Bytes) : Prop where
  reaches : ∃ e, t.Reaches dir names e
  above : t.isDirectory (p.joinAll names.dropLast)
  isDirectory : t.isDirectory (p.joinAll names) = false

theorem isDirectory_of_locate (hp : t.locate p = .ok dir) (hdir : t.get? dir = some .directory) :
    t.isDirectory p := by
  simp only [isDirectory, hp, hdir, decide_true]

theorem enters_nil (hp : t.locate p = .ok dir) (hdir : t.get? dir = some .directory) :
    t.Enters p dir [] :=
  ⟨hdir, isDirectory_of_locate hp hdir⟩

theorem not_ends_nil (hp : t.locate p = .ok dir) (hdir : t.get? dir = some .directory) :
    ¬ t.Ends p dir [] := by
  intro h
  cases (isDirectory_of_locate hp hdir).symm.trans h.isDirectory

section Walk

variable (ht : t.Proper) (hp : t.locate p = .ok dir)

include ht hp

theorem Enters.locate (h : t.Enters p dir names) :
    t.locate (p.joinAll names) = .ok (dir ++ names) :=
  have hseen := (isDirectory_joinAll_iff ht hp h.reaches).1 h.isDirectory
  (locate_joinAll_iff ht hp h.reaches).2 ⟨hseen.2, rfl⟩

variable (hdir : t.get? dir = some .directory)

include hdir

/-- A name is seen to be that of a directory just if its path is. -/
theorem seesDirectory_iff : t.seesDirectory p dir name ↔ t.Enters p dir [name] := by
  constructor
  · intro h
    simp only [seesDirectory, Bool.and_eq_true, decide_eq_true_eq, Option.isNone_iff_eq_none] at h
    obtain ⟨⟨hfits, hsearch⟩, hget⟩ := h
    have hreaches : t.Reaches dir [name] .directory := ⟨hdir, hget⟩
    exact ⟨hreaches, (isDirectory_joinAll_iff ht hp hreaches).2 ⟨rfl, hfits, hsearch, trivial⟩⟩
  · rintro ⟨hreaches, hseen⟩
    obtain ⟨-, hfits, hsearch, -⟩ := (isDirectory_joinAll_iff ht hp hreaches).1 hseen
    have hfits : fits (p.join name) := hfits
    have hget : t.get? (dir ++ [name]) = some .directory := hreaches.2
    simp [seesDirectory, hfits, hsearch, hget]

theorem enters_cons_iff : t.Enters p dir (name :: names) ↔
    t.Enters p dir [name] ∧ t.Enters (p.join name) (dir ++ [name]) names := by
  constructor
  · rintro ⟨hreaches, hseen⟩
    have hname : t.Reaches dir [name] .directory := ⟨hdir, get?_of_reaches_directory hreaches.2⟩
    obtain ⟨-, hfits, hsearch, -⟩ := (isDirectory_joinAll_iff ht hp hreaches).1 hseen
    exact ⟨⟨hname, (isDirectory_joinAll_iff ht hp hname).2
      ⟨rfl, fits_of_joinAll hfits, hsearch, trivial⟩⟩, hreaches.2, hseen⟩
  · rintro ⟨-, hreaches, hseen⟩
    exact ⟨⟨hdir, hreaches⟩, hseen⟩

theorem ends_singleton_iff : t.Ends p dir [name] ↔
    (∃ e, t.get? (dir ++ [name]) = some e) ∧ ¬ t.Enters p dir [name] := by
  constructor
  · rintro ⟨⟨e, he⟩, -, hnot⟩
    refine ⟨⟨e, he.2⟩, fun h => ?_⟩
    cases h.isDirectory.symm.trans hnot
  · rintro ⟨⟨e, he⟩, hnot⟩
    have hreaches : t.Reaches dir [name] e := ⟨hdir, he⟩
    refine ⟨⟨e, hreaches⟩, isDirectory_of_locate hp hdir, ?_⟩
    refine Bool.eq_false_iff.2 fun hseen => hnot ⟨?_, hseen⟩
    exact ((isDirectory_joinAll_iff ht hp hreaches).1 hseen).1 ▸ hreaches

theorem ends_cons_iff (hne : names ≠ []) : t.Ends p dir (name :: names) ↔
    t.Enters p dir [name] ∧ t.Ends (p.join name) (dir ++ [name]) names := by
  have hlast := List.dropLast_cons_of_ne_nil (x := name) hne
  constructor
  · rintro ⟨⟨e, he⟩, habove, hnot⟩
    have hbefore : t.Enters p dir (name :: names.dropLast) :=
      ⟨hlast ▸ reaches_dropLast (List.cons_ne_nil _ _) he, hlast ▸ habove⟩
    obtain ⟨hname, hrest⟩ := (enters_cons_iff ht hp hdir).1 hbefore
    exact ⟨hname, ⟨e, he.2⟩, hrest.isDirectory, hnot⟩
  · rintro ⟨-, ⟨e, he⟩, habove, hnot⟩
    exact ⟨⟨e, hdir, he⟩, by rw [hlast]; exact habove, hnot⟩

end Walk


/-! ## What is collected -/

/-- The names that lead from a directory to what is collected below it. -/
def namesBelow (t : FileTree) (p : Path) (dir : Location) : List (List Bytes) :=
  (t.sortedNames dir).attach.flatMap fun ⟨name, _⟩ =>
    if t.seesDirectory p dir name then
      (t.namesBelow (p.join name) (dir ++ [name])).map (name :: ·)
    else [[name]]
termination_by (t.below dir).length
decreasing_by
  rename_i h _
  exact length_below_lt (mem_sortedNames.1 h)

theorem namesBelow_eq (t : FileTree) (p : Path) (dir : Location) : t.namesBelow p dir =
    (t.sortedNames dir).flatMap fun name =>
      if t.seesDirectory p dir name then
        (t.namesBelow (p.join name) (dir ++ [name])).map (name :: ·)
      else [[name]] := by
  rw [namesBelow, List.flatMap_subtype (fun _ _ => rfl), List.unattach_attach]
  rfl

theorem collectBelow_eq (t : FileTree) (p : Path) (dir : Location) : t.collectBelow p dir =
    (t.permit dir .read).mapError (.file p) >>= fun _ =>
      ((t.sortedNames dir).mapM fun name =>
        if t.seesDirectory p dir name then t.collectBelow (p.join name) (dir ++ [name])
        else pure [p.join name]) >>= fun found => pure found.flatten := by
  rw [collectBelow, List.mapM_subtype (fun _ _ => rfl), List.unattach_attach]
  rfl

theorem exists_get?_of_mem_sortedNames (h : name ∈ t.sortedNames dir) :
    ∃ e, t.get? (dir ++ [name]) = some e :=
  mem_names_iff.1 (mem_sortedNames.1 h)

theorem nil_notMem_namesBelow : [] ∉ t.namesBelow p dir := by
  rw [namesBelow_eq, List.mem_flatMap]
  rintro ⟨name, -, hname⟩
  split at hname <;> simp at hname

theorem cons_mem_namesBelow_iff : name :: names ∈ t.namesBelow p dir ↔
    (∃ e, t.get? (dir ++ [name]) = some e) ∧
      if t.seesDirectory p dir name then names ∈ t.namesBelow (p.join name) (dir ++ [name])
      else names = [] := by
  rw [namesBelow_eq, List.mem_flatMap, ← mem_names_iff, ← mem_sortedNames]
  constructor
  · rintro ⟨next, hnext, h⟩
    split at h
    · obtain ⟨rest, hrest, heq⟩ := List.mem_map.1 h
      obtain ⟨rfl, rfl⟩ := List.cons.inj heq
      rename_i hsees
      exact ⟨hnext, by rwa [if_pos hsees]⟩
    · obtain ⟨rfl, rfl⟩ := List.cons.inj (List.mem_singleton.1 h)
      rename_i hsees
      exact ⟨hnext, by rw [if_neg hsees]⟩
  · rintro ⟨hname, h⟩
    refine ⟨name, hname, ?_⟩
    split at h
    · rename_i hsees
      rw [if_pos hsees]
      exact List.mem_map_of_mem h
    · rename_i hsees
      rw [if_neg hsees, h]
      exact List.mem_singleton_self _

/-- The names that the walk collects. -/
theorem mem_namesBelow_iff (ht : t.Proper) (hp : t.locate p = .ok dir)
    (hdir : t.get? dir = some .directory) : names ∈ t.namesBelow p dir ↔ t.Ends p dir names := by
  induction names generalizing p dir with
  | nil => exact iff_of_false nil_notMem_namesBelow (not_ends_nil hp hdir)
  | cons name names ih =>
    have hsees : t.seesDirectory p dir name ↔ _ := seesDirectory_iff ht hp hdir
    have hsingle : t.Ends p dir [name] ↔ _ := ends_singleton_iff ht hp hdir
    have hcons (hne : names ≠ []) : t.Ends p dir (name :: names) ↔ _ :=
      ends_cons_iff ht hp hdir hne
    rw [cons_mem_namesBelow_iff]
    by_cases hseen : t.seesDirectory p dir name
    · have hname := hsees.1 hseen
      have hbelow : t.get? (dir ++ [name]) = some .directory := hname.reaches.2
      have hlocate : t.locate (p.join name) = .ok (dir ++ [name]) := hname.locate ht hp
      rw [if_pos hseen, ih hlocate hbelow, and_iff_right ⟨_, hbelow⟩]
      by_cases hne : names = []
      · subst hne
        exact iff_of_false (not_ends_nil hlocate hbelow) fun h => (hsingle.1 h).2 hname
      · rw [hcons hne, and_iff_right hname]
    · have hname := mt hsees.2 hseen
      rw [if_neg hseen]
      by_cases hne : names = []
      · subst hne
        rw [hsingle, and_iff_left rfl, and_iff_left hname]
      · exact iff_of_false (fun h => hne h.2) fun h => hname ((hcons hne).1 h).1

/-- The walk succeeds just if it can list all directories that it goes into. -/
theorem collectBelow_eq_ok_iff (ht : t.Proper) (hp : t.locate p = .ok dir)
    (hdir : t.get? dir = some .directory) {found : List Path} :
    t.collectBelow p dir = .ok found ↔
      (∀ names, t.Enters p dir names → t.refuses (dir ++ names) .read = none) ∧
        found = (t.namesBelow p dir).map p.joinAll := by
  induction p, dir using collectBelow.induct t generalizing found with
  | case1 p dir ih =>
    let collected (name : Bytes) : List Path :=
      (if t.seesDirectory p dir name then
        (t.namesBelow (p.join name) (dir ++ [name])).map (name :: ·) else [[name]]).map p.joinAll
    have hname : ∀ name ∈ t.sortedNames dir, ∀ found : List Path,
        (if t.seesDirectory p dir name then t.collectBelow (p.join name) (dir ++ [name])
          else pure [p.join name]) = .ok found ↔
        (∀ names, t.Enters p dir (name :: names) → t.refuses (dir ++ name :: names) .read = none) ∧
          found = collected name := by
      intro name hmem found
      have hcons (names : List Bytes) : t.Enters p dir (name :: names) ↔ _ :=
        enters_cons_iff ht hp hdir
      have hsees : t.seesDirectory p dir name ↔ _ := seesDirectory_iff ht hp hdir
      by_cases hseen : t.seesDirectory p dir name
      · have henters := hsees.1 hseen
        have hbelow (names : List Bytes) := (hcons names).trans (and_iff_right henters)
        simp only [collected, if_pos hseen, List.map_map, hbelow]
        rw [ih name hmem (henters.locate ht hp) henters.reaches.2]
        simp only [List.append_assoc, List.singleton_append]
        rfl
      · have hnot (names : List Bytes) : ¬ t.Enters p dir (name :: names) :=
          fun h => hseen (hsees.2 ((hcons names).1 h).1)
        simp only [collected, if_neg hseen, hnot, false_implies, implies_true, true_and,
          pure_eq_ok]
        exact eq_comm
    have hfound : ((t.sortedNames dir).map collected).flatten =
        (t.namesBelow p dir).map p.joinAll := by
      rw [namesBelow_eq, List.map_flatMap, List.flatten_eq_flatMap, List.flatMap_map]
      rfl
    rw [collectBelow_eq]
    simp only [bind_eq_ok, mapError_eq_ok_iff, permit_eq_ok_iff, pure_eq_ok, mapM_eq_ok_iff hname]
    constructor
    · rintro ⟨_, hdirRead, _, ⟨hbelow, rfl⟩, rfl⟩
      refine ⟨fun names hnames => ?_, hfound⟩
      cases names with
      | nil => rwa [List.append_nil]
      | cons name names =>
        obtain ⟨e, he⟩ : ∃ e, t.get? (dir ++ [name]) = some e :=
          ⟨_, get?_of_reaches_directory hnames.reaches.2⟩
        exact hbelow name (mem_sortedNames.2 (mem_names_iff.2 ⟨e, he⟩)) names hnames
    · rintro ⟨hlisted, rfl⟩
      have hhere := hlisted [] (enters_nil hp hdir)
      rw [List.append_nil] at hhere
      exact ⟨(), hhere, _, ⟨fun name _ names hnames => hlisted _ hnames, rfl⟩, hfound⟩

/-- The walk fails at a directory that it goes into and that it cannot list. -/
theorem collectBelow_eq_error (ht : t.Proper) (hp : t.locate p = .ok dir)
    (hdir : t.get? dir = some .directory) {e : Error} (h : t.collectBelow p dir = .error e) :
    ∃ names fault, t.Enters p dir names ∧ t.refuses (dir ++ names) .read = some fault ∧
      e = .file (p.joinAll names) fault := by
  induction p, dir using collectBelow.induct t with
  | case1 p dir ih =>
    rw [collectBelow_eq, permit] at h
    cases hread : t.refuses dir .read with
    | some fault =>
      rw [hread] at h
      exact ⟨[], fault, enters_nil hp hdir, by rwa [List.append_nil], (Except.error.inj h).symm⟩
    | none =>
      rw [hread] at h
      obtain ⟨name, hmem, hname⟩ := exists_of_mapM_eq_error (bind_pure_eq_error.1 h)
      split at hname
      · rename_i hseen
        have henters := (seesDirectory_iff ht hp hdir).1 hseen
        obtain ⟨names, fault, hnames, hrefused, rfl⟩ :=
          ih name hmem (henters.locate ht hp) henters.reaches.2 hname
        exact ⟨name :: names, fault, (enters_cons_iff ht hp hdir).2 ⟨henters, hnames⟩,
          by simpa using hrefused, rfl⟩
      · cases hname

/-! ## The order -/

theorem pairwise_le_sortedNames (t : FileTree) (dir : Location) :
    (t.sortedNames dir).Pairwise (· ≤ ·) := by
  refine (List.pairwise_mergeSort (fun a b c hab hbc => ?_) (fun a b => ?_) _).imp of_decide_eq_true
  · exact decide_eq_true (List.le_trans (of_decide_eq_true hab) (of_decide_eq_true hbc))
  · simpa using List.le_total a b

theorem sortedNames_eq (hperm : names.Perm (t.names dir)) (h : names.Pairwise (· ≤ ·)) :
    t.sortedNames dir = names :=
  ((List.mergeSort_perm _ _).trans hperm.symm).eq_of_pairwise (fun _ _ _ _ => List.le_antisymm)
    (t.pairwise_le_sortedNames dir) h

theorem pairwise_lt_sortedNames (ht : t.Proper) (dir : Location) :
    (t.sortedNames dir).Pairwise (· < ·) := by
  have hnodup : (t.sortedNames dir).Nodup := List.nodup_mergeSort.2 (ht.nodup_names dir)
  exact (t.pairwise_le_sortedNames dir).imp₂
    (fun m n hle hne => (List.le_iff_lt_or_eq.1 hle).resolve_right hne) hnodup

theorem exists_cons_of_mem {found : List (List Bytes)} {x : List Bytes} {opened : Prop}
    [Decidable opened] (h : x ∈ if opened then found.map (name :: ·) else [[name]]) :
    ∃ rest, x = name :: rest := by
  split at h
  · obtain ⟨rest, -, rfl⟩ := List.mem_map.1 h
    exact ⟨rest, rfl⟩
  · exact ⟨[], List.mem_singleton.1 h⟩

/-- Everything that is collected for a name starts with it, so the order of the names decides. -/
theorem pairwise_namesBelow (ht : t.Proper) (p : Path) (dir : Location) :
    (t.namesBelow p dir).Pairwise (· < ·) := by
  induction p, dir using namesBelow.induct t with
  | case1 p dir ih =>
    rw [namesBelow_eq, List.pairwise_flatMap]
    refine ⟨fun name hname => ?_, (pairwise_lt_sortedNames ht dir).imp
      fun {m n} hmn x hx y hy => ?_⟩
    · split
      · exact List.pairwise_map.2 ((ih name hname).imp .cons)
      · exact List.pairwise_singleton _ _
    · obtain ⟨xs, rfl⟩ := exists_cons_of_mem hx
      obtain ⟨ys, rfl⟩ := exists_cons_of_mem hy
      exact .rel hmn

theorem nodup_namesBelow (ht : t.Proper) (p : Path) (dir : Location) :
    (t.namesBelow p dir).Nodup := by
  refine (pairwise_namesBelow ht p dir).imp fun {x y} h => ?_
  rintro rfl
  exact List.lt_irrefl x h

theorem nodup_map_joinAll {found : List (List Bytes)} (hfound : found.Nodup)
    (h : ∀ names ∈ found, ∀ name ∈ names, IsName name) : (found.map p.joinAll).Nodup :=
  List.Nodup.map_on (fun x hx y hy => (joinAll_inj (h x hx) (h y hy)).1) hfound

/-! ## The order of the entries -/

theorem lookup_eq_some_iff_mem {es : List (Location × Entry)} (hes : (es.map (·.1)).Nodup)
    {l : Location} : es.lookup l = some e ↔ (l, e) ∈ es := by
  induction es with
  | nil => simp
  | cons x es ih =>
    obtain ⟨m, e'⟩ := x
    obtain ⟨hm, hes⟩ := List.nodup_cons.1 hes
    rw [List.lookup_cons, List.mem_cons]
    by_cases hl : l = m
    · subst hl
      have hnot : (l, e) ∉ es := fun h => hm (List.mem_map.2 ⟨_, h, rfl⟩)
      simp [hnot, eq_comm]
    · have hne : (l == m) = false := by simpa using hl
      simp only [hne, ih hes, Prod.mk.injEq, hl, false_and, false_or]

theorem get?_of_perm (ht : t.Proper) (h : t'.entries.Perm t.entries) (l : Location) :
    t'.get? l = t.get? l := by
  have hnodup : (t'.entries.map (·.1)).Nodup := (h.map (·.1)).nodup_iff.2 ht.nodup
  rw [get?, get?]
  split
  · rfl
  · refine Option.ext fun e => ?_
    rw [lookup_eq_some_iff_mem hnodup, lookup_eq_some_iff_mem ht.nodup, h.mem_iff]

theorem sortedNames_of_perm (h : t'.entries.Perm t.entries) (dir : Location) :
    t'.sortedNames dir = t.sortedNames dir :=
  sortedNames_eq ((List.mergeSort_perm _ _).trans (h.filterMap _).symm)
    (t.pairwise_le_sortedNames dir)

section Congruence

variable (hrefuses : t'.refuses = t.refuses)

include hrefuses

theorem walk_congr (h : ∀ l, t'.get? l = t.get? l) (l : Location) (steps : List Bytes) :
    t'.walk l steps = t.walk l steps := by
  induction steps generalizing l with
  | nil => rfl
  | cons step steps ih => simp only [walk, expectDirectory, permit, h, hrefuses, ih]

theorem locate_congr (hdir : t'.workingDirectory = t.workingDirectory)
    (h : ∀ l, t'.get? l = t.get? l) (p : Path) : t'.locate p = t.locate p := by
  simp only [locate, startOf, hdir, walk_congr hrefuses h, h]

theorem collectBelow_of_perm (ht : t.Proper) (h : t'.entries.Perm t.entries) (p : Path)
    (dir : Location) : t'.collectBelow p dir = t.collectBelow p dir := by
  induction p, dir using collectBelow.induct t with
  | case1 p dir ih =>
    rw [collectBelow_eq, collectBelow_eq, sortedNames_of_perm h, permit, permit, hrefuses]
    have hname : ∀ name ∈ t.sortedNames dir,
        (if t'.seesDirectory p dir name then t'.collectBelow (p.join name) (dir ++ [name])
          else pure [p.join name]) =
        (if t.seesDirectory p dir name then t.collectBelow (p.join name) (dir ++ [name])
          else pure [p.join name]) := by
      intro name hname
      rw [seesDirectory, seesDirectory, get?_of_perm ht h, hrefuses, ih name hname]
    rw [mapM_congr hname]

/-- The same entries in another order are collected in the same order. -/
theorem collect_of_perm (ht : t.Proper) (hdir : t'.workingDirectory = t.workingDirectory)
    (h : t'.entries.Perm t.entries) (p : Path) : t'.collect p = t.collect p := by
  simp only [collect, locate_congr hrefuses hdir (get?_of_perm ht h), get?_of_perm ht h,
    collectBelow_of_perm hrefuses ht h]

end Congruence

/-! ## The walk -/

theorem collect_of_not_isDirectory (h : t.isDirectory p = false) : t.collect p = .ok [p] := by
  unfold isDirectory at h
  unfold collect
  cases hp : t.locate p with
  | error fault => rfl
  | ok dir =>
    rw [hp] at h
    exact if_neg (by simpa using h)

theorem collect_of_directory (hp : t.locate p = .ok dir) (hdir : t.get? dir = some .directory) :
    t.collect p = t.collectBelow p dir := by
  simp only [collect, hp, hdir, if_true]

/-- Where all directories are seen, just the other entries are collected. -/
theorem ends_iff_of_seen (hdir : t.get? dir = some .directory)
    (hp : t.locate p = .ok dir) (ht : t.Proper)
    (hall : ∀ names, t.Reaches dir names .directory → t.isDirectory (p.joinAll names)) :
    t.Ends p dir names ↔ ∃ e, e ≠ .directory ∧ t.Reaches dir names e := by
  constructor
  · rintro ⟨⟨e, he⟩, -, hnot⟩
    refine ⟨e, ?_, he⟩
    rintro rfl
    cases (hall names he).symm.trans hnot
  · rintro ⟨e, hne, he⟩
    have hnames : names ≠ [] := by
      rintro rfl
      exact hne (Option.some.inj (he.symm.trans hdir))
    refine ⟨⟨e, he⟩, hall _ (reaches_dropLast hnames he), Bool.eq_false_iff.2 fun hseen => ?_⟩
    exact hne ((isDirectory_joinAll_iff ht hp he).1 hseen).1

/-- **The walk through a directory.** A path that leads to no directory is collected as it is. For a
directory, everything below it that is no directory is collected once and nothing else, as long as
all directories below it are seen to be directories; one that is not seen to be one is collected as
it is, in place of what it has. The order is that of the names along the way, compared one after
another by their bytes. If one of the directories that are seen cannot be listed, the walk fails
there, and otherwise it succeeds. A directory is seen to be one if its path is short enough and may
be followed, and then files can be read unless that is refused. The order of the entries has no
influence. -/
theorem collect_walks (ht : t.Proper) (p : Path) :
    (t.isDirectory p = false → t.collect p = .ok [p]) ∧
    (∀ dir, t.locate p = .ok dir → t.get? dir = some .directory →
      (∃ found : List (List Bytes), (found.map p.joinAll).Nodup ∧ found.Pairwise (· < ·) ∧
        (∀ names, names ∈ found ↔ t.Ends p dir names) ∧
        ((∀ names, t.Reaches dir names .directory → t.isDirectory (p.joinAll names)) →
          ∀ names, names ∈ found ↔ ∃ e, e ≠ .directory ∧ t.Reaches dir names e) ∧
        (t.collect p = .ok (found.map p.joinAll) ∧
            (∀ names, t.Enters p dir names → t.refuses (dir ++ names) .read = none) ∨
          ∃ names fault, t.Enters p dir names ∧ t.refuses (dir ++ names) .read = some fault ∧
            t.collect p = .error (.file (p.joinAll names) fault))) ∧
      (∀ names, t.Reaches dir names .directory → (t.isDirectory (p.joinAll names) ↔
        fits (p.joinAll names) ∧ t.Passes dir names)) ∧
      ∀ names content, t.Reaches dir names (.file content) → fits (p.joinAll names) →
        t.Passes dir names → t.refuses (dir ++ names) .read = none →
          t.read (p.joinAll names) = .ok content) ∧
    ∀ t' : FileTree, t'.workingDirectory = t.workingDirectory → t'.refuses = t.refuses →
      t'.entries.Perm t.entries → t'.collect p = t.collect p := by
  refine ⟨collect_of_not_isDirectory, fun dir hp hdir => ⟨?_, fun names hnames => ?_,
    fun names content => read_joinAll ht hp⟩, fun t' hworking hrefuses hperm =>
    collect_of_perm hrefuses ht hworking hperm p⟩
  · have hmem (names : List Bytes) : names ∈ t.namesBelow p dir ↔ t.Ends p dir names :=
      mem_namesBelow_iff ht hp hdir
    refine ⟨t.namesBelow p dir, ?_, pairwise_namesBelow ht p dir, hmem, fun hall names => ?_, ?_⟩
    · refine nodup_map_joinAll (nodup_namesBelow ht p dir) fun names hnames => ?_
      obtain ⟨e, he⟩ := ((hmem names).1 hnames).reaches
      exact isName_of_reaches ht he
    · rw [hmem, ends_iff_of_seen hdir hp ht hall]
    · rw [collect_of_directory hp hdir]
      cases hcollect : t.collectBelow p dir with
      | ok found =>
        obtain ⟨hlisted, rfl⟩ := (collectBelow_eq_ok_iff ht hp hdir).1 hcollect
        exact .inl ⟨rfl, hlisted⟩
      | error e =>
        obtain ⟨names, fault, henters, hrefused, rfl⟩ :=
          collectBelow_eq_error ht hp hdir hcollect
        exact .inr ⟨names, fault, henters, hrefused, rfl⟩
  · rw [isDirectory_joinAll_iff ht hp hnames, and_iff_right rfl]

/-- A directory whose name is the start of the next one, and a pipe whose name is no text, listed in
either order. -/
theorem collect_walks_of_reverse :
    let entries : List (Location × Entry) := [(["w"], .directory), (["w", "d"], .directory),
      (["w", "d", [0xE9]], .special [3]), (["w", "d", "a.txt"], .file [2]),
      (["w", "d", "a"], .directory), (["w", "d", "a", "b"], .file [1])]
    let t : FileTree := { workingDirectory := ["w"], entries }
    let t' : FileTree := { workingDirectory := ["w"], entries := entries.reverse }
    let found : List Path := [⟨"d/a/b"⟩, ⟨"d/a.txt"⟩, ⟨Bytes.ofText "d/" ++ [0xE9]⟩]
    t.Proper ∧ found.Nodup ∧ t.collect ⟨"d"⟩ = .ok found ∧ t'.collect ⟨"d"⟩ = .ok found ∧
      t.read ⟨"d/a/b"⟩ = .ok [1] ∧ t.collect ⟨"x"⟩ = .ok [⟨"x"⟩] := by
  intro entries t t' found
  have ht : t.Proper := ⟨by decide +kernel, by decide +kernel⟩
  have hp : t.locate ⟨"d"⟩ = .ok ["w", "d"] := by decide +kernel
  have hdir : t.get? ["w", "d"] = some .directory := by decide +kernel
  obtain ⟨hother, hbelow, hperm⟩ := collect_walks ht ⟨"d"⟩
  obtain ⟨-, -, hread⟩ := hbelow _ hp hdir
  have hgetb : t.get? ["w", "d", "a", "b"] = some (.file [1]) := by decide +kernel
  have hb : t.Reaches ["w", "d"] ["a", "b"] (.file [1]) :=
    ⟨by decide +kernel, by decide +kernel, hgetb⟩
  have hd : t.sortedNames ["w", "d"] = ([("a" : Bytes), "a.txt", [0xE9]] : List Bytes) :=
    sortedNames_eq (by decide +kernel) (by decide +kernel)
  have ha : t.sortedNames ["w", "d", "a"] = [("b" : Bytes)] := by decide +kernel
  have hbelowA : t.collectBelow ⟨"d/a"⟩ ["w", "d", "a"] = .ok [⟨"d/a/b"⟩] := by
    rw [collectBelow_eq, ha]
    rfl
  have hcollect : t.collect ⟨"d"⟩ = .ok found := by
    have hjoin : (⟨"d"⟩ : Path).join "a" = ⟨"d/a"⟩ := by decide +kernel
    rw [collect_of_directory hp hdir, collectBelow_eq, hd, List.mapM_cons,
      if_pos (by decide +kernel), hjoin]
    exact bind_eq_ok.2 ⟨(), rfl, bind_eq_ok.2
      ⟨[[_], _, _], bind_eq_ok.2 ⟨_, hbelowA, rfl⟩, by decide +kernel⟩⟩
  exact ⟨ht, by decide +kernel, hcollect,
    (hperm t' rfl rfl (List.reverse_perm entries)).trans hcollect,
    hread _ _ hb (by decide +kernel) ⟨rfl, rfl, trivial⟩ rfl,
    (collect_walks ht ⟨"x"⟩).1 (by decide +kernel)⟩

/-- Below a path that is as long as a path may be, everything is taken for a file. -/
theorem collect_of_longest (ht : t.Proper) (hp : t.locate p = .ok dir)
    (hdir : t.get? dir = some .directory) (hread : t.refuses dir .read = none)
    (hlength : p.bytes.length = pathLimit) : t.collect p = .ok ((t.sortedNames dir).map p.join) := by
  have hsees : ∀ name ∈ t.sortedNames dir, t.seesDirectory p dir name = false := by
    intro name hname
    obtain ⟨e, he⟩ := exists_get?_of_mem_sortedNames hname
    have hlong := not_fits_join (Nat.le_of_eq hlength.symm) (ht.isName_of_get? he).ne_nil
    simp [seesDirectory, hlong]
  have hname : ∀ name ∈ t.sortedNames dir, ∀ found : List Path,
      (if t.seesDirectory p dir name then t.collectBelow (p.join name) (dir ++ [name])
        else pure [p.join name]) = .ok found ↔ True ∧ found = [p.join name] := by
    intro name hmem found
    rw [if_neg (by simp [hsees name hmem]), pure_eq_ok, true_and, eq_comm]
  rw [collect_of_directory hp hdir, collectBelow_eq, permit_of_none hread]
  refine bind_eq_ok.2 ⟨(), rfl, bind_eq_ok.2 ⟨_, (mapM_eq_ok_iff hname).2 ⟨by simp, rfl⟩, ?_⟩⟩
  rw [pure_eq_ok, List.flatten_eq_flatMap, List.flatMap_map]
  exact List.flatMap_pure_eq_map _ _

/-- A directory with a file in it, below such a path: the directory is collected, and the file is
not. -/
theorem collect_stops_at_long_path :
    let content : Bytes := [99, 100, 99, 100]
    let t : FileTree :=
      { workingDirectory := ["w"]
        entries := [(["w"], .directory), (["w", "d"], .directory), (["w", "d", "s"], .directory),
          (["w", "d", "s", "a"], .file content)] }
    let p := (⟨"d"⟩ : Path).slashed 4094
    t.Proper ∧ t.locate p = .ok ["w", "d"] ∧
      t.Reaches ["w", "d"] ["s", "a"] (.file content) ∧ t.Reaches ["w", "d"] ["s"] .directory ∧
      t.collect p = .ok [p.joinAll ["s"]] ∧ p.joinAll ["s", "a"] ∉ [p.joinAll ["s"]] := by
  intro content t p
  have ht : t.Proper := ⟨by decide +kernel, by decide +kernel⟩
  have hd : t.get? ["w", "d"] = some .directory := by decide +kernel
  have hs : t.get? ["w", "d", "s"] = some .directory := by decide +kernel
  have ha : t.get? ["w", "d", "s", "a"] = some (.file content) := by decide +kernel
  have hnames : t.sortedNames ["w", "d"] = [("s" : Bytes)] := by decide +kernel
  have hlength : p.bytes.length = pathLimit := Path.length_slashed _ _
  have hp : t.locate p = .ok ["w", "d"] :=
    locate_slashed (by decide +kernel) hd (decide_eq_true (Nat.le_of_eq hlength))
  have hcollect : t.collect p = .ok [p.joinAll ["s"]] := by
    rw [collect_of_longest ht hp hd rfl hlength, hnames, List.map_singleton, Path.joinAll_cons,
      Path.joinAll_nil]
  have hne : p.joinAll ["s", "a"] ≠ p.joinAll ["s"] := by
    rw [Ne, joinAll_inj (by decide +kernel) (by decide +kernel)]
    decide
  exact ⟨ht, hp, ⟨hd, hs, ha⟩, ⟨hd, hs⟩, hcollect, by rwa [List.mem_singleton]⟩

end FileTree

end BytePair
