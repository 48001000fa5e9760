/-!
# Decimal numbers

* `Decimal.value`: the number that digits stand for.
* `Decimal.below?`: the same number, if it is below a limit. However many digits there are, no
  number that is much above the limit is ever computed.
-/

namespace BytePair.Decimal

/-- The number that digits stand for, after the digits that stand for `start`. -/
def valueFrom (start : Nat) (digits : List Nat) : Nat :=
  digits.foldl (fun n d => n * 10 + d) start

/-- The number that digits stand for, the most significant one first. -/
def value (digits : List Nat) : Nat := valueFrom 0 digits

theorem le_valueFrom (start : Nat) (digits : List Nat) : start ≤ valueFrom start digits := by
  induction digits generalizing start with
  | nil => exact Nat.le_refl start
  | cons d digits ih =>
    have := ih (start * 10 + d)
    simp only [valueFrom, List.foldl_cons] at this ⊢
    omega

/-- The number that digits stand for, after the digits that stand for `start`, if it stays below
the limit. -/
def belowFrom? (limit start : Nat) : List Nat → Option Nat
  | [] => some start
  | d :: digits =>
    if start * 10 + d < limit then belowFrom? limit (start * 10 + d) digits else none

theorem belowFrom?_eq {limit start : Nat} (h : start < limit) (digits : List Nat) :
    belowFrom? limit start digits =
      if valueFrom start digits < limit then some (valueFrom start digits) else none := by
  induction digits generalizing start with
  | nil => simp [belowFrom?, valueFrom, h]
  | cons d digits ih =>
    have hle := le_valueFrom (start * 10 + d) digits
    have hcons : valueFrom start (d :: digits) = valueFrom (start * 10 + d) digits := rfl
    rw [belowFrom?, hcons]
    by_cases hd : start * 10 + d < limit
    · rw [if_pos hd, ih hd]
    · rw [if_neg hd, if_neg (by omega)]

/-- The number that digits stand for, if it is below the limit. -/
def below? (limit : Nat) (digits : List Nat) : Option Nat := belowFrom? limit 0 digits

theorem below?_eq {limit : Nat} (h : 0 < limit) (digits : List Nat) :
    below? limit digits = if value digits < limit then some (value digits) else none :=
  belowFrom?_eq h digits

end BytePair.Decimal
