import Std.Data.ExtTreeMap

/-!
# Tokens and pairs

* `Bytes`, `TokenId`: what a document is made of, before and after it is segmented.
* `Pair`: two neighbouring tokens, ordered by the left one and then by the right one.
* `adjacentPairs`: the pairs of a list of tokens, with repetitions, from left to right.
* `unknown`, `unknownMarker`: the token of bytes that no document had, and the text that stands
  for it.
-/

namespace BytePair

/-- A string of bytes: a document, a token, or the content of a file. -/
abbrev Bytes := List UInt8

/-- A token's position in its vocabulary's table. Ids are words of 32 bits elsewhere, so tables of
less than `2 ^ 32` entries are meant. -/
abbrev TokenId := Nat

/-- The UTF-8 form of a text. -/
def Bytes.ofText (s : String) : Bytes := s.toUTF8.data.toList

/-- Where bytes are expected, a text stands for its UTF-8 form. -/
instance : Coe String Bytes := ⟨Bytes.ofText⟩

/-- The token of every byte that the vocabulary has no token for. -/
def unknown : TokenId := 0

/-- What stands for the unknown token in texts. -/
def unknownMarker : String := "<UNK>"

/-- Two neighbouring tokens. -/
structure Pair where
  left : TokenId
  right : TokenId
  deriving DecidableEq, Repr, Inhabited

namespace Pair

instance : Ord Pair := ⟨compareLex (compareOn left) (compareOn right)⟩

instance : Std.TransOrd Pair :=
  inferInstanceAs (Std.TransCmp (compareLex (compareOn left) (compareOn right)))

instance : Std.LawfulEqOrd Pair where
  eq_of_compare {p q} h := by
    obtain ⟨pl, pr⟩ := p
    obtain ⟨ql, qr⟩ := q
    have h' : compare pl ql = .eq ∧ compare pr qr = .eq := compareLex_eq_eq.1 h
    simpa using h'

end Pair

/-- The neighbouring tokens of a list, from left to right. -/
def adjacentPairs : List TokenId → List Pair
  | x :: y :: rest => ⟨x, y⟩ :: adjacentPairs (y :: rest)
  | _ => []

@[simp]
theorem adjacentPairs_nil : adjacentPairs [] = [] := rfl

@[simp]
theorem adjacentPairs_singleton (x : TokenId) : adjacentPairs [x] = [] := rfl

@[simp]
theorem adjacentPairs_cons_cons (x y : TokenId) (rest : List TokenId) :
    adjacentPairs (x :: y :: rest) = ⟨x, y⟩ :: adjacentPairs (y :: rest) := rfl

end BytePair
