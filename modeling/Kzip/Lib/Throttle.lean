import Mathlib.Data.List.Chain

/-!
# Throttled reports

Of a sequence only those elements are delivered that are due after the last one that was (`throttle`). What is
delivered is a part of the sequence in order, each element due after the one before it.
-/

namespace Lib

variable {α : Type} (due : α → α → Bool)

/-- The elements that are delivered when the last one before them was `last`. -/
def throttle : α → List α → List α
  | _, [] => []
  | last, x :: xs => if due last x then x :: throttle x xs else throttle last xs

theorem throttle_sublist (last : α) (xs : List α) : (throttle due last xs).Sublist xs := by
  induction xs generalizing last with
  | nil => exact .slnil
  | cons x xs ih =>
    rw [throttle]
    split
    · exact (ih x).cons_cons x
    · exact (ih last).cons x

theorem throttle_due (last : α) (xs : List α) :
    (last :: throttle due last xs).IsChain fun x y => due x y = true := by
  induction xs generalizing last with
  | nil => exact .singleton last
  | cons x xs ih =>
    rw [throttle]
    split
    · rename_i hdue
      exact .cons_cons hdue (ih x)
    · exact ih last

end Lib
