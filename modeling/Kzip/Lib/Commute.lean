/-!
# Steps that act on one part of a state

`view k s` is what a state shows of part `k`; what all parts share may be in every view. A step is local
to a part when it leaves the views of the others as they are, and its output and the new view of its own
part depend on the old view of that part alone (`LocalTo`). Steps that are local to different parts
commute (`LocalTo.commute`).
-/

namespace Lib

variable {σ κ ν α ω : Type}

structure LocalTo (step : σ → α → ω × σ) (view : κ → σ → ν) (x : α) (k : κ) : Prop where
  frame : ∀ s j, j ≠ k → view j (step s x).2 = view j s
  output : ∀ s t, view k s = view k t → (step s x).1 = (step t x).1
  next : ∀ s t, view k s = view k t → view k (step s x).2 = view k (step t x).2

section
variable {step : σ → α → ω × σ} {view : κ → σ → ν} {x y : α} {i j : κ}

/-- States that show the same keep showing the same. -/
theorem LocalTo.congr (hx : LocalTo step view x i) {s t : σ} (h : ∀ k, view k s = view k t) (k : κ) :
    view k (step s x).2 = view k (step t x).2 := by
  by_cases hk : k = i
  · rw [hk]
    exact hx.next s t (h i)
  · rw [hx.frame s k hk, hx.frame t k hk]
    exact h k

/-- A step that is local elsewhere does not change what a step puts out. -/
theorem LocalTo.output_after (hx : LocalTo step view x i) (hy : LocalTo step view y j) (hij : i ≠ j)
    (s : σ) : (step (step s y).2 x).1 = (step s x).1 := hx.output _ _ (hy.frame s i hij)

/-- The view of a part after its own step and one elsewhere, in either order. -/
theorem LocalTo.view_after (hx : LocalTo step view x i) (hy : LocalTo step view y j) (hij : i ≠ j)
    (s : σ) : view i (step (step s x).2 y).2 = view i (step (step s y).2 x).2 := by
  rw [hy.frame _ i hij]
  exact hx.next _ _ (hy.frame s i hij).symm

theorem LocalTo.commute (hx : LocalTo step view x i) (hy : LocalTo step view y j) (hij : i ≠ j) (s : σ)
    (k : κ) : view k (step (step s x).2 y).2 = view k (step (step s y).2 x).2 := by
  by_cases hi : k = i
  · rw [hi]
    exact hx.view_after hy hij s
  by_cases hj : k = j
  · rw [hj]
    exact (hy.view_after hx hij.symm s).symm
  · rw [hy.frame _ k hj, hx.frame _ k hi, hx.frame _ k hi, hy.frame _ k hj]

end

end Lib
