import BytePair.Proofs.Candidacy
import BytePair.Proofs.Counting

/-!
# Counts from several workers

Workers that merge report their changes in no particular order, and workers that count put their
shares together as they get them. Neither shows in a tally.

* `Census.Gathering`: shares of the sequences, each counted by itself, and put together two by two.
  `Census.Gathering.census_eq`: the result is the census of all sequences, wherever they are cut and
  in whatever order the shares are put together.
* `Tally.apply_perm`: changes may be taken over in any order.
* `Tally.Operation.Reordered`: the same look, or the same changes in another order.
  `Tally.after_reordered`, `Tally.findings_reordered`: a run of such operations finds and leaves the
  same.
* `Tally.reports_in_any_order`: the result.
-/

namespace BytePair

namespace Census

/-! ## Maps with all their entries -/

/-- No pair is listed without a holder. -/
def Held (holders : Std.ExtTreeMap Pair (Std.ExtTreeSet Nat)) : Prop :=
  ∀ p ∈ holders, ∃ i, i ∈ holders.getD p ∅

variable {N : Type} [Add N] [OfNat N 0] {c d : Census N}
  {holders holders' : Std.ExtTreeMap Pair (Std.ExtTreeSet Nat)} {p q : Pair} {i : Nat}
  {placed placed' : List (Sequence × Nat)}

theorem held_empty : Held ∅ := by simp [Held]

theorem Held.addHolder (h : Held holders) (p : Pair) (i : Nat) : Held (addHolder holders p i) := by
  intro q hq
  rw [Census.addHolder, Std.ExtTreeMap.mem_alter] at hq
  by_cases hpq : p = q
  · exact ⟨i, mem_addHolder.2 (.inr ⟨hpq, rfl⟩)⟩
  · rw [if_neg (by simpa using hpq)] at hq
    obtain ⟨j, hj⟩ := h q hq
    exact ⟨j, mem_addHolder.2 (.inl hj)⟩

theorem Held.mem_iff (h : Held holders) : p ∈ holders ↔ ∃ i, i ∈ holders.getD p ∅ := by
  refine ⟨h p, fun ⟨i, hi⟩ => Decidable.byContradiction fun hp => ?_⟩
  rw [Std.ExtTreeMap.getD_eq_fallback hp] at hi
  simp at hi

/-- The holders of every pair determine the whole map. -/
theorem Held.ext (h : Held holders) (h' : Held holders')
    (hmem : ∀ p i, i ∈ holders.getD p ∅ ↔ i ∈ holders'.getD p ∅) : holders = holders' := by
  refine Std.ExtTreeMap.ext_getElem? fun p => ?_
  by_cases hp : p ∈ holders
  · have hp' : p ∈ holders' := h'.mem_iff.2 ((h p hp).imp fun i => (hmem p i).1)
    have hget : holders[p]? = some (holders.getD p ∅) := Std.ExtTreeMap.getElem?_eq_some_getD hp
    have hget' : holders'[p]? = some (holders'.getD p ∅) :=
      Std.ExtTreeMap.getElem?_eq_some_getD hp'
    rw [hget, hget', Std.ExtTreeSet.ext_mem (hmem p)]
  · have hp' : p ∉ holders' := fun hp' => hp (h.mem_iff.2 ((h' p hp').imp fun i => (hmem p i).2))
    rw [Std.ExtTreeMap.getElem?_eq_none hp, Std.ExtTreeMap.getElem?_eq_none hp']

theorem held_union (h : Held c.holders) (d : Census N) : Held (c.union d).holders := by
  simp only [union, Std.ExtTreeMap.foldl_eq_foldl_toList, Std.ExtTreeSet.foldl_eq_foldl_toList]
  exact List.foldlRecOn _ _ h fun _ h e _ => List.foldlRecOn _ _ h fun _ h i _ => h.addHolder e.1 i

variable [OfNat N 1]

/-- There is one census of the same sequences, in whatever order they are listed. -/
theorem Describes.unique (hc : c.Describes placed) (hd : d.Describes placed')
    (hperm : placed.Perm placed') (hcheld : Held c.holders) (hdheld : Held d.holders) : c = d := by
  have hpairs : (placedPairs placed).Perm (placedPairs placed') := hperm.flatMap_right _
  have hcounts : c.counts = d.counts := by
    refine Std.ExtTreeMap.ext_getElem? fun p => ?_
    have hmem : p ∈ c.counts ↔ p ∈ d.counts := by
      rw [hc.mem_counts, hd.mem_counts, hpairs.mem_iff]
    have hcount : c.counts.getD p 0 = d.counts.getD p 0 := by
      have hcount := hc.count_eq p
      rwa [hpairs.count_eq, ← hd.count_eq p] at hcount
    by_cases hp : p ∈ c.counts
    · have hget : c.counts[p]? = some (c.counts.getD p 0) :=
        Std.ExtTreeMap.getElem?_eq_some_getD hp
      have hget' : d.counts[p]? = some (d.counts.getD p 0) :=
        Std.ExtTreeMap.getElem?_eq_some_getD (hmem.1 hp)
      rw [hget, hget', hcount]
    · rw [Std.ExtTreeMap.getElem?_eq_none hp, Std.ExtTreeMap.getElem?_eq_none (mt hmem.2 hp)]
  have hholders : c.holders = d.holders :=
    hcheld.ext hdheld fun p i => by simp only [hc.held, hd.held, hperm.mem_iff]
  obtain ⟨counts, holders⟩ := c
  simp_all

theorem held_ofSequence (i : Nat) (s : Sequence) : Held (ofSequence i s : Census N).holders :=
  List.foldlRecOn (motive := fun c : Census N => Held c.holders) _ _ held_empty
    fun _ hc p _ => hc.addHolder p i

theorem held_oneByOne (start : Nat) (seqs : List Sequence) :
    Held (oneByOne start seqs : Census N).holders :=
  List.foldlRecOn (motive := fun c : Census N => Held c.holders) _ _ held_empty
    fun _ hc x _ => held_union hc (ofSequence x.2 x.1)

theorem held_byHalves (start : Nat) (seqs : List Sequence) :
    Held (byHalves start seqs : Census N).holders := by
  fun_induction @byHalves N _ _ _ start seqs with
  | case1 => exact held_empty
  | case2 start s => exact held_ofSequence start s
  | case3 _ _ _ _ _ first _ => exact held_union first _

theorem held_ofSequences (parallel : Bool) (seqs : Array Sequence) :
    Held (ofSequences parallel seqs : Census N).holders := by
  cases parallel with
  | true => exact held_byHalves 0 seqs.toList
  | false => exact held_oneByOne 0 seqs.toList

/-! ## Shares put together -/

/-- Shares of the sequences, each with the position of its first one, as they are put together. -/
inductive Gathering where
  | share (start : Nat) (seqs : List Sequence)
  | together (first second : Gathering)

namespace Gathering

/-- Every share is counted by itself. -/
def census : Gathering → Census N
  | share start seqs => oneByOne start seqs
  | together first second => first.census.union second.census

def shares : Gathering → List (Nat × List Sequence)
  | share start seqs => [(start, seqs)]
  | together first second => first.shares ++ second.shares

end Gathering

/-- The pieces of a list that is cut, each with the position of its first item. -/
def piecesFrom (start : Nat) : List (List Sequence) → List (Nat × List Sequence)
  | [] => []
  | piece :: pieces => (start, piece) :: piecesFrom (start + piece.length) pieces

/-- The sequences of some shares, each with its position. -/
def placedIn (shares : List (Nat × List Sequence)) : List (Sequence × Nat) :=
  shares.flatMap fun share => share.2.zipIdx share.1

theorem placedIn_piecesFrom (start : Nat) (pieces : List (List Sequence)) :
    placedIn (piecesFrom start pieces) = pieces.flatten.zipIdx start := by
  induction pieces generalizing start with
  | nil => rfl
  | cons piece pieces ih =>
    have hcons : placedIn (piecesFrom start (piece :: pieces)) =
        piece.zipIdx start ++ placedIn (piecesFrom (start + piece.length) pieces) :=
      List.flatMap_cons
    rw [hcons, ih, List.flatten_cons, List.zipIdx_append]

theorem Gathering.held (g : Gathering) : Held (g.census : Census N).holders := by
  induction g with
  | share start seqs => exact held_oneByOne start seqs
  | together first second hfirst _ => exact held_union hfirst _

variable [Std.Associative fun a b : N => a + b] [Std.LawfulIdentity (fun a b : N => a + b) 0]

theorem Gathering.describes (g : Gathering) :
    (g.census : Census N).Describes (placedIn g.shares) := by
  induction g with
  | share start seqs =>
    have h : (oneByOne start seqs : Census N).Describes _ := describes_oneByOne start seqs
    simpa [placedIn, shares, census] using h
  | together first second hfirst hsecond =>
    have h := hfirst.union hsecond
    simpa [placedIn, shares, census] using h

/-- However sequences are cut, and however the pieces are put together, all of them are counted. -/
theorem Gathering.census_eq {g : Gathering} {pieces : List (List Sequence)}
    (h : g.shares.Perm (piecesFrom 0 pieces)) (parallel : Bool) :
    (g.census : Census N) = ofSequences parallel pieces.flatten.toArray := by
  have hplaced : (placedIn g.shares).Perm pieces.flatten.zipIdx := by
    rw [← placedIn_piecesFrom 0 pieces]
    exact h.flatMap_right _
  exact g.describes.unique (describes_ofSequences parallel _) hplaced g.held
    (held_ofSequences parallel _)

/-! ## Changes one after another -/

theorem raise_raise (counts : Std.ExtTreeMap Pair Int64) (p q : Pair) (m n : Int64) :
    raise (raise counts p m) q n = raise (raise counts q n) p m := by
  refine Std.ExtTreeMap.ext_getElem? fun r => ?_
  simp only [raise, Std.ExtTreeMap.getElem?_alter, Std.LawfulEqCmp.compare_eq_iff_eq]
  by_cases hp : p = r <;> by_cases hq : q = r
  · subst hp hq
    simp only [if_true, Option.getD_some]
    congr 1
    ac_rfl
  · subst hp
    simp [hq]
  · subst hq
    simp [hp]
  · simp [hp, hq]

theorem addHolder_addHolder (holders : Std.ExtTreeMap Pair (Std.ExtTreeSet Nat)) (p q : Pair)
    (i j : Nat) :
    addHolder (addHolder holders p i) q j = addHolder (addHolder holders q j) p i := by
  refine Std.ExtTreeMap.ext_getElem? fun r => ?_
  simp only [addHolder, Std.ExtTreeMap.getElem?_alter, Std.LawfulEqCmp.compare_eq_iff_eq]
  by_cases hp : p = r <;> by_cases hq : q = r
  · subst hp hq
    simp only [if_true, Option.getD_some, Option.some.injEq]
    refine Std.ExtTreeSet.ext_mem fun k => ?_
    simp only [Std.ExtTreeSet.mem_insert]
    exact or_left_comm
  · subst hp
    simp [hq]
  · subst hq
    simp [hp]
  · simp [hp, hq]

end Census

namespace Tally

open Candidates (Hearing)

theorem Draft.note_note (d : Draft Int64) (i j : Nat) (c c' : Change Int64) :
    (d.note i c).note j c' = (d.note j c').note i c := by
  obtain ⟨net, holders⟩ := d
  simp only [note, Census.raise_raise net c.pair c'.pair, mk.injEq, true_and]
  by_cases hc : 0 < c.delta <;> by_cases hc' : 0 < c'.delta
  · simp only [hc, hc', if_true]
    exact Census.addHolder_addHolder holders _ _ _ _
  all_goals simp [hc, hc']

theorem Draft.noteAll_perm {changes changes' : List (PlacedChange Int64)}
    (h : changes.Perm changes') (d : Draft Int64) : d.noteAll changes = d.noteAll changes' :=
  h.foldl_eq' (fun x _ y _ d => d.note_note x.2 y.2 x.1 y.1) d

/-- Changes are netted before anything comes of them, so their order does not matter. -/
theorem apply_perm (t : Tally Int64) {changes changes' : List (PlacedChange Int64)}
    (h : changes.Perm changes') : t.apply changes = t.apply changes' :=
  congrArg t.settle (Draft.noteAll_perm h t.draft)

/-! ## Runs -/

/-- The same look, or the same changes in another order. -/
inductive Operation.Reordered : Operation → Operation → Prop
  | look (judge : Judge) : Reordered (.look judge) (.look judge)
  | apply {changes changes' : List (PlacedChange Int64)} (h : changes.Perm changes') :
    Reordered (.apply changes) (.apply changes')

/-- What the looks among some operations find, one after another. -/
def findings (t : Tally Int64) : List Operation → List (Hearing Int64)
  | [] => []
  | .look judge :: ops => t.hear judge :: (t.afterHearing judge).findings ops
  | .apply changes :: ops => (t.apply changes).findings ops

variable {t : Tally Int64} {ops ops' : List Operation} {op op' : Operation}

theorem perform_reordered (h : op.Reordered op') (t : Tally Int64) : t.perform op = t.perform op' := by
  cases h with
  | look judge => rfl
  | apply h => exact t.apply_perm h

theorem after_reordered (h : List.Forall₂ Operation.Reordered ops ops') (t : Tally Int64) :
    t.after ops = t.after ops' := by
  induction h generalizing t with
  | nil => rfl
  | cons hop _ ih => exact (ih _).trans (congrArg (after · _) (perform_reordered hop t))

theorem findings_reordered (h : List.Forall₂ Operation.Reordered ops ops') (t : Tally Int64) :
    t.findings ops = t.findings ops' := by
  induction h generalizing t with
  | nil => rfl
  | cons hop _ ih =>
    cases hop with
    | look judge => exact congrArg (t.hear judge :: ·) (ih _)
    | apply hperm => exact (ih _).trans (congrArg (findings · _) (t.apply_perm hperm))

/-- **Reports come in any order.** Changes that are taken over in another order leave every pair
with the same count and the same sequences, and all later looks and changes find and leave the same,
in whatever order those changes come. Sequences that are cut into pieces, which are counted one by
one and put together in any order, two by two, have the same counts and the same holders as when all
of them are counted at once, and so make the same tally. -/
theorem reports_in_any_order :
    (∀ (t : Tally Int64) (changes changes' : List (PlacedChange Int64)), changes.Perm changes' →
      (∀ p, (t.apply changes).count p = (t.apply changes').count p) ∧
      (∀ p, (t.apply changes).sequencesWith p = (t.apply changes').sequencesWith p) ∧
      ∀ later later', List.Forall₂ Operation.Reordered later later' →
        (t.apply changes).findings later = (t.apply changes').findings later' ∧
        (t.apply changes).after later = (t.apply changes').after later') ∧
    ∀ (pieces : List (List Sequence)) (g : Census.Gathering),
      g.shares.Perm (Census.piecesFrom 0 pieces) → ∀ parallel,
        (g.census : Census Int64) = Census.ofSequences parallel pieces.flatten.toArray ∧
        (ofCensus g.census : Tally Int64) = ofSequences parallel pieces.flatten.toArray := by
  refine ⟨fun t changes changes' h => ?_, fun pieces g h parallel => ?_⟩
  · rw [t.apply_perm h]
    exact ⟨fun _ => rfl, fun _ => rfl, fun later later' hlater =>
      ⟨findings_reordered hlater _, after_reordered hlater _⟩⟩
  · rw [Census.Gathering.census_eq h parallel]
    exact ⟨rfl, rfl⟩

/-- A rise and a fall that cancel, taken over in either order, and three sequences of which the last
one is counted first. -/
theorem reports_in_any_order_of_swap :
    let t : Tally Int64 := ofSequences false #[[1, 2, 1, 2], [2, 2]]
    let up : PlacedChange Int64 := (⟨⟨1, 2⟩, 2⟩, 1)
    let down : PlacedChange Int64 := (⟨⟨1, 2⟩, -2⟩, 0)
    let gone : PlacedChange Int64 := (⟨⟨2, 1⟩, -1⟩, 0)
    let g := Census.Gathering.together (.share 1 [[2, 1, 2], []]) (.share 0 [[1, 2]])
    (t.apply [up, down]).sequencesWith ⟨1, 2⟩ = [0, 1] ∧
      (t.apply [down, up]).sequencesWith ⟨1, 2⟩ = [0, 1] ∧
      (t.apply [up, down]).findings [.apply [gone, up], .look fun _ _ => true] =
        (t.apply [down, up]).findings [.apply [up, gone], .look fun _ _ => true] ∧
      g.shares.Perm (Census.piecesFrom 0 [[[1, 2]], [[2, 1, 2], []]]) ∧
      (g.census : Census Int64) = Census.ofSequences true #[[1, 2], [2, 1, 2], []] := by
  intro t up down gone g
  have hperm : [up, down].Perm [down, up] := .swap down up []
  have hlater : List.Forall₂ Operation.Reordered
      [.apply [gone, up], .look fun _ _ => true] [.apply [up, gone], .look fun _ _ => true] :=
    .cons (.apply (.swap up gone [])) (.cons (.look _) .nil)
  have hshares : g.shares.Perm (Census.piecesFrom 0 [[[1, 2]], [[2, 1, 2], []]]) :=
    .swap (0, [[1, 2]]) (1, [[2, 1, 2], []]) []
  obtain ⟨-, hheld, hrun⟩ := reports_in_any_order.1 t [up, down] [down, up] hperm
  have hholds : (t.apply [up, down]).sequencesWith ⟨1, 2⟩ = [0, 1] := by cbv
  exact ⟨hholds, (hheld _).symm.trans hholds, (hrun _ _ hlater).1, hshares,
    (reports_in_any_order.2 _ g hshares true).1⟩

end Tally

end BytePair
