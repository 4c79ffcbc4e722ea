import Mathlib.Algebra.Order.Field.Rat
import Mathlib.Tactic.Linarith

/-!
# Rounding to nearest

A rounding gives for each number a representable one that no other representable one is nearer to. It is
monotone, and exact on the representable numbers, however ties are broken.
-/

namespace Lib

structure Rounding where
  representable : ℚ → Prop
  round : ℚ → ℚ
  representable_round : ∀ q, representable (round q)
  nearest : ∀ q v, representable v → |q - round q| ≤ |q - v|

namespace Rounding

variable (R : Rounding)

theorem round_eq {q : ℚ} (h : R.representable q) : R.round q = q := by
  have hle := R.nearest q q h
  rw [sub_self, abs_zero] at hle
  exact (sub_eq_zero.mp (abs_eq_zero.mp (le_antisymm hle (abs_nonneg _)))).symm

theorem round_mono {a b : ℚ} (h : a ≤ b) : R.round a ≤ R.round b := by
  by_contra hlt
  rw [not_le] at hlt
  have ha := R.nearest a (R.round b) (R.representable_round b)
  have hb := R.nearest b (R.round a) (R.representable_round a)
  -- each is on its side of the middle of the two results, so that they are the same
  have hla : R.round a + R.round b ≤ 2 * a := by
    rcases abs_cases (a - R.round a) with ⟨h1, s1⟩ | ⟨h1, s1⟩ <;>
      rcases abs_cases (a - R.round b) with ⟨h2, s2⟩ | ⟨h2, s2⟩ <;> linarith
  have hlb : 2 * b ≤ R.round a + R.round b := by
    rcases abs_cases (b - R.round b) with ⟨h1, s1⟩ | ⟨h1, s1⟩ <;>
      rcases abs_cases (b - R.round a) with ⟨h2, s2⟩ | ⟨h2, s2⟩ <;> linarith
  have heq : a = b := by linarith
  rw [heq] at hlt
  exact lt_irrefl _ hlt

end Rounding

end Lib
