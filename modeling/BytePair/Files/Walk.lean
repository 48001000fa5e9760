import BytePair.Error

/-!
# All files below a path

`FileTree.collect` lists the files below a directory depth first, the names of every directory in
the order of their bytes. The order in which directories list their names has no influence. A
directory that cannot be looked up is taken for a file, and one that cannot be listed is an error.
-/

namespace BytePair.FileTree

/-- The entries below a location. -/
def below (t : FileTree) (dir : Location) : List (Location × Entry) :=
  t.entries.filter fun (l, _) => dir.isPrefixOf l && l ≠ dir

theorem mem_names {t : FileTree} {dir : Location} {name : Bytes} :
    name ∈ t.names dir ↔ ∃ e, (dir ++ [name], e) ∈ t.entries := by
  simp only [names, List.mem_filterMap, Prod.exists, Option.ite_none_right_eq_some,
    List.getLast?_eq_some_iff]
  constructor
  · rintro ⟨l, e, hl, rfl, pre, rfl⟩
    exact ⟨e, by simpa using hl⟩
  · rintro ⟨e, h⟩
    exact ⟨_, e, h, by simp, dir, rfl⟩

/-- Fewer entries are below a directory's name than below the directory. -/
theorem length_below_lt {t : FileTree} {dir : Location} {name : Bytes} (h : name ∈ t.names dir) :
    (t.below (dir ++ [name])).length < (t.below dir).length := by
  obtain ⟨e, he⟩ := mem_names.1 h
  have hsub : t.below (dir ++ [name]) = (t.below dir).filter
      fun (l, _) => (dir ++ [name]).isPrefixOf l && l ≠ dir ++ [name] := by
    rw [below, below, List.filter_filter]
    refine List.filter_congr fun x _ => ?_
    by_cases hx : (dir ++ [name]) <+: x.1
    · obtain ⟨r, hr⟩ := hx
      have : dir <+: x.1 := ⟨name :: r, by simpa using hr⟩
      have hne : x.1 ≠ dir := fun hd => by
        have := congrArg List.length hr
        simp [hd] at this
      simp [this, hne, List.isPrefixOf_iff_prefix]
    · simp [List.isPrefixOf_iff_prefix, hx]
  rw [hsub]
  refine List.length_filter_lt_length_iff_exists.2 ⟨(dir ++ [name], e), ?_, by simp⟩
  simp [below, he, List.isPrefixOf_iff_prefix]

/-- The names in a directory in the order of their bytes. -/
def sortedNames (t : FileTree) (dir : Location) : List Bytes := (t.names dir).mergeSort (· ≤ ·)

theorem mem_sortedNames {t : FileTree} {dir : Location} {name : Bytes} :
    name ∈ t.sortedNames dir ↔ name ∈ t.names dir :=
  List.mem_mergeSort

/-- Whether a name in a directory, which `p` leads to, is seen to be that of another directory. The
name is looked up by its path, which may be too long to be followed. -/
def seesDirectory (t : FileTree) (p : Path) (dir : Location) (name : Bytes) : Bool :=
  fits (p.join name) && (t.refuses dir .search).isNone && t.get? (dir ++ [name]) = some .directory

/-- The files below the directory at a location, which `p` leads to. What is not seen to be a
directory is taken as it is. A listing fails as a whole, whether the directory does not open or one
of its entries cannot be read. -/
def collectBelow (t : FileTree) (p : Path) (dir : Location) : Except Error (List Path) := do
  (t.permit dir .read).mapError (.file p)
  let found ← (t.sortedNames dir).attach.mapM fun ⟨name, _⟩ =>
    if t.seesDirectory p dir name then t.collectBelow (p.join name) (dir ++ [name])
    else pure [p.join name]
  return found.flatten
termination_by (t.below dir).length
decreasing_by
  rename_i h _
  exact length_below_lt (mem_sortedNames.1 h)

/-- The files below a directory; any other path is taken as it is. -/
def collect (t : FileTree) (p : Path) : Except Error (List Path) :=
  match t.locate p with
  | .ok dir => if t.get? dir = some .directory then t.collectBelow p dir else .ok [p]
  | .error _ => .ok [p]

end BytePair.FileTree
