/-!
# Runs of code points

A class of characters as the runs of code points that it is made of, in ascending order.
`CodeRuns.holds_iff` says which characters belong to it.
-/

namespace BytePair.Text

/-- The first and last code points of every run, in ascending order. -/
abbrev CodeRuns := List (Nat × Nat)

namespace CodeRuns

/-- Whether a code point is in a run. The search ends at the first run that starts above it. -/
def holds : CodeRuns → Nat → Bool
  | [], _ => false
  | (first, last) :: later, code => first ≤ code && (code ≤ last || holds later code)

theorem holds_iff {runs : CodeRuns} (h : runs.Pairwise fun r s => r.1 ≤ s.1) (code : Nat) :
    holds runs code ↔ ∃ r ∈ runs, r.1 ≤ code ∧ code ≤ r.2 := by
  induction runs with
  | nil => simp [holds]
  | cons r later ih =>
    obtain ⟨hr, hlater⟩ := List.pairwise_cons.1 h
    simp only [holds, Bool.and_eq_true, Bool.or_eq_true, decide_eq_true_eq, ih hlater,
      List.mem_cons]
    constructor
    · rintro ⟨hfirst, hlast | ⟨s, hs, hcode⟩⟩
      · exact ⟨r, .inl rfl, hfirst, hlast⟩
      · exact ⟨s, .inr hs, hcode⟩
    · rintro ⟨s, rfl | hs, hfirst, hlast⟩
      · exact ⟨hfirst, .inl hlast⟩
      · exact ⟨Nat.le_trans (hr s hs) hfirst, .inr ⟨s, hs, hfirst, hlast⟩⟩

end CodeRuns

end BytePair.Text
