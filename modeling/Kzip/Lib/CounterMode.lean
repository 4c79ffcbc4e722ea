import Mathlib.Logic.Function.Iterate

/-!
# Counter mode

A text is cut into blocks of `w`, the last of them perhaps short, and each is combined with the pad of a
counter that then moves on (`counterMode`). Block `k` meets the pad of the counter after `k` steps
(`block_counterMode`). Where combining with a pad twice gives the text back, so does counter mode
(`counterMode_involutive`).
-/

namespace Lib

variable {α C : Type}

/-- The `k`-th block of `w`. -/
def block (w k : Nat) (xs : List α) : List α := (xs.drop (w * k)).take w

theorem block_zero (w : Nat) (xs : List α) : block w 0 xs = xs.take w := by
  rw [block, Nat.mul_zero, List.drop_zero]

theorem block_succ (w k : Nat) (xs : List α) : block w (k + 1) xs = block w k (xs.drop w) := by
  rw [block, block, List.drop_drop, Nat.mul_succ, Nat.add_comm]

section
variable (f : α → α → α) (pad : C → List α) (next : C → C) (w : Nat)

/-- Counter mode on at most `n` blocks. -/
def counterMode : Nat → C → List α → List α
  | 0, _, _ => []
  | _ + 1, _, [] => []
  | n + 1, c, x :: xs =>
    List.zipWith f ((x :: xs).take w) (pad c) ++ counterMode n (next c) ((x :: xs).drop w)

end

variable {f : α → α → α} {pad : C → List α} {next : C → C} {w : Nat}

theorem counterMode_nil (n : Nat) (c : C) : counterMode f pad next w n c [] = [] := by
  cases n <;> rfl

theorem counterMode_succ (n : Nat) (c : C) (xs : List α) :
    counterMode f pad next w (n + 1) c xs =
      List.zipWith f (xs.take w) (pad c) ++ counterMode f pad next w n (next c) (xs.drop w) := by
  cases xs with
  | nil => simp [counterMode_nil]
  | cons x xs => rfl

section
variable (hpad : ∀ c, (pad c).length = w)
include hpad

theorem length_firstBlock (c : C) (xs : List α) :
    (List.zipWith f (xs.take w) (pad c)).length = min w xs.length := by
  simp [hpad]

theorem take_counterMode (n : Nat) (c : C) (xs : List α) :
    (counterMode f pad next w (n + 1) c xs).take w = List.zipWith f (xs.take w) (pad c) := by
  have hlen := length_firstBlock (f := f) hpad c xs
  rw [counterMode_succ]
  by_cases h : w ≤ xs.length
  · rw [Nat.min_eq_left h] at hlen
    exact List.take_left' hlen
  -- a short block is the last one
  · rw [List.drop_of_length_le (by omega), counterMode_nil, List.append_nil]
    exact List.take_of_length_le (by omega)

theorem drop_counterMode (n : Nat) (c : C) (xs : List α) :
    (counterMode f pad next w (n + 1) c xs).drop w = counterMode f pad next w n (next c) (xs.drop w) := by
  have hlen := length_firstBlock (f := f) hpad c xs
  rw [counterMode_succ]
  by_cases h : w ≤ xs.length
  · rw [Nat.min_eq_left h] at hlen
    exact List.drop_left' hlen
  · rw [List.drop_of_length_le (i := w) (l := xs) (by omega), counterMode_nil, List.append_nil]
    exact List.drop_of_length_le (by omega)

theorem length_counterMode {n : Nat} (c : C) {xs : List α} (h : xs.length ≤ w * n) :
    (counterMode f pad next w n c xs).length = xs.length := by
  induction n generalizing c xs with
  | zero =>
    rw [Nat.mul_zero, Nat.le_zero] at h
    rw [h]
    rfl
  | succ n ih =>
    have hrest : (xs.drop w).length ≤ w * n := by
      rw [List.length_drop]
      rw [Nat.mul_succ] at h
      omega
    rw [counterMode_succ, List.length_append, ih _ hrest, length_firstBlock hpad, List.length_drop]
    omega

/-- Block `k` is combined with the pad of the counter after `k` steps. -/
theorem block_counterMode {n k : Nat} (c : C) {xs : List α} (h : xs.length ≤ w * n) :
    block w k (counterMode f pad next w n c xs) = List.zipWith f (block w k xs) (pad (next^[k] c)) := by
  induction k generalizing n c xs with
  | zero =>
    cases n with
    | zero =>
      rw [List.eq_nil_of_length_eq_zero (show xs.length = 0 by omega)]
      simp [block, counterMode]
    | succ n => rw [block_zero, block_zero, take_counterMode hpad, Function.iterate_zero_apply]
  | succ k ih =>
    cases n with
    | zero =>
      rw [List.eq_nil_of_length_eq_zero (show xs.length = 0 by omega)]
      simp [block, counterMode]
    | succ n =>
      have hrest : (xs.drop w).length ≤ w * n := by
        rw [List.length_drop]
        rw [Nat.mul_succ] at h
        omega
      rw [block_succ, block_succ, drop_counterMode hpad, ih _ hrest, Function.iterate_succ_apply]

end

/-! ## Twice -/

theorem zipWith_cancel (hf : ∀ a b, f (f a b) b = a) {xs ys : List α} (h : xs.length ≤ ys.length) :
    List.zipWith f (List.zipWith f xs ys) ys = xs := by
  induction xs generalizing ys with
  | nil => rfl
  | cons x xs ih =>
    cases ys with
    | nil => simp at h
    | cons y ys =>
      simp only [List.length_cons, Nat.add_le_add_iff_right] at h
      simp only [List.zipWith_cons_cons, ih h, hf]

theorem counterMode_involutive (hpad : ∀ c, (pad c).length = w) (hf : ∀ a b, f (f a b) b = a) {n : Nat}
    (c : C) {xs : List α} (h : xs.length ≤ w * n) :
    counterMode f pad next w n c (counterMode f pad next w n c xs) = xs := by
  induction n generalizing c xs with
  | zero =>
    rw [List.eq_nil_of_length_eq_zero (show xs.length = 0 by omega)]
    rfl
  | succ n ih =>
    have hrest : (xs.drop w).length ≤ w * n := by
      rw [List.length_drop]
      rw [Nat.mul_succ] at h
      omega
    have hfirst : (xs.take w).length ≤ (pad c).length := by
      rw [List.length_take, hpad]
      omega
    rw [counterMode_succ n c (counterMode f pad next w (n + 1) c xs), take_counterMode hpad,
      drop_counterMode hpad, zipWith_cancel hf hfirst, ih _ hrest, List.take_append_drop]

end Lib
