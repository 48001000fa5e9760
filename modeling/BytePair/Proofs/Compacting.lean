import BytePair.Proofs.Replay

/-!
# A pass in place

The pass of a rule reads and writes the cells of one array. It never comes back to a cell that it
has overwritten, so it works on the tokens as they were, and leaves what a merge leaves.

* `CellProgram`: a program that reads and writes cells. It learns what a cell holds only by reading
  it, so `CellProgram.run` records all that it looks at.
* `pass`: the pass of a rule as such a program; `run_passFrom`: it computes `compactFrom`.
* `ReadsAhead`: all reads are of cells from a position on, and of none that was written before.
* `compact_merges_reading_ahead`: the result.
-/

namespace BytePair

/-! ## Programs on cells -/

/-- A program that reads and writes cells of tokens, and at its end keeps the first of them. -/
inductive CellProgram where
  | done (kept : Nat)
  | read (i : Nat) (next : TokenId → CellProgram)
  | write (i : Nat) (x : TokenId) (next : CellProgram)

/-- A token that was read from a cell, or written into one. -/
inductive Access where
  | read (i : Nat) (x : TokenId)
  | write (i : Nat) (x : TokenId)
  deriving DecidableEq, Repr

namespace CellProgram

/-- The cells at the end, and all accesses in their order. There is no end if the program reads or
writes where there is no cell. -/
def run : CellProgram → Array TokenId → Option (Array TokenId × List Access)
  | done kept, ids => some (ids.shrink kept, [])
  | read i next, ids =>
    match ids[i]? with
    | none => none
    | some x => ((next x).run ids).map fun o => (o.1, .read i x :: o.2)
  | write i x next, ids =>
    if i < ids.size then
      (next.run (ids.setIfInBounds i x)).map fun o => (o.1, .write i x :: o.2)
    else none

/-- Copies a cell. -/
def copy (source target : Nat) (next : CellProgram) : CellProgram :=
  read source fun x => write target x next

variable {next : CellProgram} {f : TokenId → CellProgram} {ids result : Array TokenId}
  {accesses : List Access} {i j : Nat} {x : TokenId}

theorem run_read (hi : ids[i]? = some x) (h : (f x).run ids = some (result, accesses)) :
    (read i f).run ids = some (result, .read i x :: accesses) := by
  simp only [run, hi, h, Option.map_some]

theorem run_write (hi : i < ids.size)
    (h : next.run (ids.setIfInBounds i x) = some (result, accesses)) :
    (write i x next).run ids = some (result, .write i x :: accesses) := by
  simp only [run, hi, if_true, h, Option.map_some]

theorem run_copy (hi : ids[i]? = some x) (hj : j < ids.size)
    (h : next.run (ids.setIfInBounds j x) = some (result, accesses)) :
    (copy i j next).run ids = some (result, .read i x :: .write j x :: accesses) :=
  run_read hi (run_write hj h)

end CellProgram

/-! ## Reading ahead -/

/-- All reads are of cells from position `start` on and find what the cells hold now. No read is of
a cell that was written before. -/
structure ReadsAhead (ids : Array TokenId) (start : Nat) (accesses : List Access) : Prop where
  reads (i : Nat) (x : TokenId) : .read i x ∈ accesses → start ≤ i ∧ ids[i]? = some x
  unwritten : accesses.Pairwise fun earlier later =>
    ∀ i x y, earlier = .write i x → later ≠ .read i y

namespace ReadsAhead

variable {ids : Array TokenId} {start next i target : Nat} {x : TokenId} {accesses : List Access}

theorem nil (ids : Array TokenId) (start : Nat) : ReadsAhead ids start [] where
  reads i x h := by cases h
  unwritten := .nil

theorem read (h : ReadsAhead ids start accesses) (hi : start ≤ i) (hx : ids[i]? = some x) :
    ReadsAhead ids start (.read i x :: accesses) where
  reads j y hj := by
    rcases List.mem_cons.1 hj with hj | hj
    · cases hj
      exact ⟨hi, hx⟩
    · exact h.reads j y hj
  unwritten := List.pairwise_cons.2 ⟨fun _ _ _ _ _ => nofun, h.unwritten⟩

/-- What is written behind the cells to be read is not read any more. -/
theorem write (h : ReadsAhead (ids.setIfInBounds target x) next accesses) (htarget : target < next)
    (hstart : start ≤ next) : ReadsAhead ids start (.write target x :: accesses) where
  reads i y hi := by
    obtain ⟨hnext, hy⟩ := h.reads i y ((List.mem_cons.1 hi).resolve_left nofun)
    rw [Array.getElem?_setIfInBounds_ne (by omega)] at hy
    exact ⟨by omega, hy⟩
  unwritten := by
    refine List.pairwise_cons.2 ⟨?_, h.unwritten⟩
    rintro a ha i y z ⟨⟩ rfl
    have := (h.reads _ _ ha).1
    omega

end ReadsAhead

/-! ## The pass of a rule -/

/-- The pass of a rule over `size` cells, which reads on from position `read` and writes on from
position `write`. -/
def passFrom (rule : Rule) (size read write : Nat) : CellProgram :=
  if read < size then
    let keep := CellProgram.copy read write (passFrom rule size (read + 1) (write + 1))
    if read + 1 < size then
      .read read fun x =>
        if x = rule.pair.left then
          .read (read + 1) fun y =>
            if y = rule.pair.right then
              .write write rule.new (passFrom rule size (read + 2) (write + 1))
            else keep
        else keep
    else keep
  else .done write
termination_by size - read

/-- The whole pass. -/
def pass (rule : Rule) (size : Nat) : CellProgram := passFrom rule size 0 0

/-- The pass finds out in up to two reads that a token stays, and copies it. -/
theorem run_passFrom_of_kept {rule : Rule} {ids result : Array TokenId} {read write : Nat}
    {accesses : List Access} (hread : read < ids.size)
    (hpair : ¬(ids[read] = rule.pair.left ∧ ids[read + 1]? = some rule.pair.right))
    (hahead : ReadsAhead ids read accesses)
    (hrun : (CellProgram.copy read write (passFrom rule ids.size (read + 1) (write + 1))).run ids =
      some (result, accesses)) :
    ∃ accesses, ReadsAhead ids read accesses ∧
      (passFrom rule ids.size read write).run ids = some (result, accesses) := by
  have hx : ids[read]? = some ids[read] := Array.getElem?_eq_getElem hread
  rw [passFrom, if_pos hread]
  by_cases hlt : read + 1 < ids.size
  · have hy : ids[read + 1]? = some ids[read + 1] := Array.getElem?_eq_getElem hlt
    rw [if_pos hlt]
    by_cases hleft : ids[read] = rule.pair.left
    · have hright : ids[read + 1] ≠ rule.pair.right := fun hright => hpair ⟨hleft, hright ▸ hy⟩
      refine ⟨_, (hahead.read (Nat.le_succ read) hy).read (Nat.le_refl read) hx, ?_⟩
      refine CellProgram.run_read hx ?_
      rw [if_pos hleft]
      refine CellProgram.run_read hy ?_
      rwa [if_neg hright]
    · refine ⟨_, hahead.read (Nat.le_refl read) hx, ?_⟩
      refine CellProgram.run_read hx ?_
      rwa [if_neg hleft]
  · refine ⟨_, hahead, ?_⟩
    rwa [if_neg hlt]

theorem run_passFrom (rule : Rule) (ids : Array TokenId) (read write : Nat) (h : write ≤ read) :
    ∃ accesses, ReadsAhead ids read accesses ∧
      (passFrom rule ids.size read write).run ids =
        some (compactFrom rule ids read write, accesses) := by
  fun_induction compactFrom rule ids read write with
  | case1 ids read write hread hpair ih =>
    obtain ⟨hleft, hright⟩ := hpair
    obtain ⟨accesses, hahead, hrun⟩ := ih (by omega)
    obtain ⟨hlt, -⟩ := Array.getElem?_eq_some_iff.1 hright
    have hx : ids[read]? = some rule.pair.left := hleft ▸ Array.getElem?_eq_getElem hread
    rw [Array.size_setIfInBounds] at hrun
    have hwrite : ReadsAhead ids read (.write write rule.new :: accesses) :=
      hahead.write (by omega) (by omega)
    refine ⟨_, (hwrite.read (Nat.le_succ read) hright).read (Nat.le_refl read) hx, ?_⟩
    rw [passFrom, if_pos hread, if_pos hlt]
    refine CellProgram.run_read hx ?_
    rw [if_pos rfl]
    refine CellProgram.run_read hright ?_
    rw [if_pos rfl]
    exact CellProgram.run_write (by omega) hrun
  | case2 ids read write hread hpair ih =>
    obtain ⟨accesses, hahead, hrun⟩ := ih (by omega)
    have hx : ids[read]? = some ids[read] := Array.getElem?_eq_getElem hread
    rw [Array.size_setIfInBounds] at hrun
    have hwrite : ReadsAhead ids read (.write write ids[read] :: accesses) :=
      hahead.write (by omega) (by omega)
    exact run_passFrom_of_kept hread hpair (hwrite.read (Nat.le_refl read) hx)
      (CellProgram.run_copy hx (by omega) hrun)
  | case3 ids read write hread =>
    refine ⟨[], .nil ids read, ?_⟩
    rw [passFrom, if_neg hread]
    rfl

/-- **A pass in place is a merge.** It leaves what merging the pair of the rule leaves, whatever
the tokens of the rule are. As a program on cells it comes to its end, no token is read from a cell
that was written before, and so all that is read is what the cells held at the start. -/
theorem compact_merges_reading_ahead (rule : Rule) (ids : Array TokenId) :
    (compact rule ids).toList = (Sequence.merge rule.pair rule.new ids.toList).1 ∧
      ∃ accesses, (pass rule ids.size).run ids = some (compact rule ids, accesses) ∧
        (accesses.Pairwise fun earlier later =>
          ∀ i x y, earlier = .write i x → later ≠ .read i y) ∧
        ∀ i x, .read i x ∈ accesses → ids[i]? = some x := by
  obtain ⟨accesses, hahead, hrun⟩ := run_passFrom rule ids 0 0 (Nat.le_refl 0)
  refine ⟨by rw [toList_compact, Sequence.merge_fst], accesses, hrun, hahead.unwritten, ?_⟩
  exact fun i x hread => (hahead.reads i x hread).2

/-- In `aaab` the first two cells become one; the last token is copied down. -/
example : (pass ⟨⟨1, 1⟩, 1⟩ 4).run #[1, 1, 1, 2] = some (#[1, 1, 2],
    [.read 0 1, .read 1 1, .write 0 1, .read 2 1, .read 3 2, .read 2 1, .write 1 1, .read 3 2,
      .write 2 2]) := by
  cbv

end BytePair
