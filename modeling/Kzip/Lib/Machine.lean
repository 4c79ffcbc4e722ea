import Kzip.Lib.Except
import Mathlib.Algebra.Group.Nat.Defs

/-!
# Operations that a machine refuses

Sums and differences of machine integers, indices and slices, each failing with a given fault where
the machine has no result; and for each the condition under which it has one.
-/

namespace Lib.Machine

variable {ε α : Type}

/-- `a + b` on unsigned integers of `w` bits. -/
def add (e : ε) (w a b : Nat) : Except ε Nat := if a + b < 2 ^ w then .ok (a + b) else .error e

/-- `a - b` on unsigned integers. -/
def sub (e : ε) (a b : Nat) : Except ε Nat := if b ≤ a then .ok (a - b) else .error e

/-- `xs[i]` -/
def index (e : ε) (xs : List α) (i : Nat) : Except ε α := (xs[i]?.map .ok).getD (.error e)

/-- `xs[i..j]` -/
def slice (e : ε) (xs : List α) (i j : Nat) : Except ε (List α) :=
  if i ≤ j ∧ j ≤ xs.length then .ok ((xs.drop i).take (j - i)) else .error e

theorem add_of_lt {e : ε} {w a b : Nat} (h : a + b < 2 ^ w) : add e w a b = .ok (a + b) := if_pos h

theorem sub_of_le {e : ε} {a b : Nat} (h : b ≤ a) : sub e a b = .ok (a - b) := if_pos h

theorem index_of_lt {e : ε} {xs : List α} {i : Nat} (h : i < xs.length) :
    index e xs i = .ok xs[i] := by
  rw [index, List.getElem?_eq_getElem h]
  rfl

theorem slice_of_le {e : ε} {xs : List α} {i j : Nat} (hij : i ≤ j) (hj : j ≤ xs.length) :
    slice e xs i j = .ok ((xs.drop i).take (j - i)) := if_pos ⟨hij, hj⟩

/-- A slice up to the end. -/
theorem slice_to_end {e : ε} {xs : List α} {i : Nat} (h : i ≤ xs.length) :
    slice e xs i xs.length = .ok (xs.drop i) := by
  rw [slice_of_le h (Nat.le_refl _), List.take_of_length_le (Nat.le_of_eq List.length_drop)]

end Lib.Machine
