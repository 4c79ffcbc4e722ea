/-!
# Runs

A run is a fold of a step function over a list of inputs. `Along step P s xs` says that every step of
the run from `s` meets the condition `P` on the state before it. Two runs over the same inputs stay
related if every such step keeps the relation (`Along.simulation`); a run of one machine keeps an
invariant in the same way (`Along.invariant`). `Throughout step I s xs` says that every state of the
run has the property `I`; it is the same as `Along step P s xs` when a step breaks `I` just where it
misses `P` (`throughout_iff_along`). The steps of a machine may put something out; when two machines put out
the same is `outputs_eq_iff`, and when a specification that leaves a choice allows it, `allows_of_simulation`.
-/

namespace Lib

variable {σ τ α : Type}

def Along (step : σ → α → σ) (P : σ → α → Prop) : σ → List α → Prop
  | _, [] => True
  | s, x :: xs => P s x ∧ Along step P (step s x) xs

instance Along.decidable {step : σ → α → σ} {P : σ → α → Prop} [∀ s x, Decidable (P s x)] :
    (s : σ) → (xs : List α) → Decidable (Along step P s xs)
  | _, [] => .isTrue trivial
  | s, x :: xs =>
    have : Decidable (Along step P (step s x) xs) := Along.decidable (step s x) xs
    inferInstanceAs (Decidable (P s x ∧ Along step P (step s x) xs))

theorem Along.simulation {step : σ → α → σ} {step' : τ → α → τ} {P : σ → α → Prop}
    {R : σ → τ → Prop} (hstep : ∀ s t x, R s t → P s x → R (step s x) (step' t x)) {s : σ} {t : τ}
    {xs : List α} (hrun : Along step P s xs) (h : R s t) : R (xs.foldl step s) (xs.foldl step' t) := by
  induction xs generalizing s t with
  | nil => exact h
  | cons x xs ih => exact ih hrun.2 (hstep s t x h hrun.1)

theorem Along.invariant {step : σ → α → σ} {P : σ → α → Prop} {I : σ → Prop}
    (hstep : ∀ s x, I s → P s x → I (step s x)) {s : σ} {xs : List α} (hrun : Along step P s xs)
    (h : I s) : I (xs.foldl step s) := by
  induction xs generalizing s with
  | nil => exact h
  | cons x xs ih => exact ih hrun.2 (hstep s x h hrun.1)

theorem Along.and {step : σ → α → σ} {P Q : σ → α → Prop} {s : σ} {xs : List α}
    (hP : Along step P s xs) (hQ : Along step Q s xs) : Along step (fun s x => P s x ∧ Q s x) s xs := by
  induction xs generalizing s with
  | nil => trivial
  | cons x xs ih => exact ⟨⟨hP.1, hQ.1⟩, ih hP.2 hQ.2⟩

/-- A condition on the inputs alone. -/
theorem Along.of_forall {step : σ → α → σ} {P : α → Prop} {s : σ} {xs : List α}
    (h : ∀ x ∈ xs, P x) : Along step (fun _ => P) s xs := by
  induction xs generalizing s with
  | nil => trivial
  | cons x xs ih => exact ⟨h x List.mem_cons_self, ih fun y hy => h y (List.mem_cons_of_mem x hy)⟩

/-- Along a run that keeps an invariant, two conditions that agree wherever it holds are the same. -/
theorem along_congr {step : σ → α → σ} {P Q : σ → α → Prop} {I : σ → Prop}
    (hstep : ∀ s x, I s → I (step s x)) (hPQ : ∀ s x, I s → (P s x ↔ Q s x)) {s : σ} (h : I s)
    (xs : List α) : Along step P s xs ↔ Along step Q s xs := by
  induction xs generalizing s with
  | nil => exact Iff.rfl
  | cons x xs ih => exact and_congr (hPQ s x h) (ih (hstep s x h))

def Throughout (step : σ → α → σ) (I : σ → Prop) : σ → List α → Prop
  | s, [] => I s
  | s, x :: xs => I s ∧ Throughout step I (step s x) xs

theorem Throughout.last {step : σ → α → σ} {I : σ → Prop} {s : σ} {xs : List α}
    (h : Throughout step I s xs) : I (xs.foldl step s) := by
  induction xs generalizing s with
  | nil => exact h
  | cons x xs ih => exact ih h.2

theorem Along.throughout {step : σ → α → σ} {P : σ → α → Prop} {I J : σ → Prop}
    (hI : ∀ s, J s → I s) (hstep : ∀ s x, J s → P s x → J (step s x)) {s : σ} {xs : List α}
    (hrun : Along step P s xs) (h : J s) : Throughout step I s xs := by
  induction xs generalizing s with
  | nil => exact hI s h
  | cons x xs ih => exact ⟨hI s h, ih hrun.2 (hstep s x h hrun.1)⟩

theorem Throughout.along {step : σ → α → σ} {P : σ → α → Prop} {I J : σ → Prop}
    (hstep : ∀ s x, J s → P s x → J (step s x))
    (hbad : ∀ s x, J s → ¬ P s x → ¬ I (step s x)) {s : σ} {xs : List α}
    (hrun : Throughout step I s xs) (h : J s) : Along step P s xs := by
  induction xs generalizing s with
  | nil => trivial
  | cons x xs ih =>
    have hnext : I (step s x) := by
      cases xs with
      | nil => exact hrun.2
      | cons y ys => exact hrun.2.1
    have hP : P s x := Classical.byContradiction fun hP => hbad s x h hP hnext
    exact ⟨hP, ih hrun.2 (hstep s x h hP)⟩

/-- A property that an invariant `J` gives, and that a step breaks when it misses the condition. -/
theorem throughout_iff_along {step : σ → α → σ} {P : σ → α → Prop} {I J : σ → Prop}
    (hI : ∀ s, J s → I s) (hstep : ∀ s x, J s → P s x → J (step s x))
    (hbad : ∀ s x, J s → ¬ P s x → ¬ I (step s x)) {s : σ} (h : J s) (xs : List α) :
    Throughout step I s xs ↔ Along step P s xs :=
  ⟨fun hrun => hrun.along hstep hbad h, fun hrun => hrun.throughout hI hstep h⟩

/-! ## What a machine puts out -/

/-- The outputs of the steps of a run. -/
def outputs {ω : Type} (step : σ → α → σ × ω) : σ → List α → List ω
  | _, [] => []
  | s, x :: xs => (step s x).2 :: outputs step (step s x).1 xs

/-- Two machines put out the same exactly along the runs whose steps meet a condition: such a step
keeps them related, and any other shows the difference. -/
theorem outputs_eq_iff {ω : Type} {step : σ → α → σ × ω} {step' : τ → α → τ × ω} {P : σ → α → Prop}
    {R : σ → τ → Prop}
    (hstep : ∀ s t x, R s t → P s x →
      (step s x).2 = (step' t x).2 ∧ R (step s x).1 (step' t x).1)
    (hbad : ∀ s t x, R s t → ¬ P s x → (step s x).2 ≠ (step' t x).2) {s : σ} {t : τ} (h : R s t)
    (xs : List α) : outputs step s xs = outputs step' t xs ↔ Along (fun s x => (step s x).1) P s xs := by
  induction xs generalizing s t with
  | nil => exact iff_of_true rfl trivial
  | cons x xs ih =>
    rw [outputs, outputs, List.cons.injEq, Along]
    by_cases hP : P s x
    · obtain ⟨hout, hR⟩ := hstep s t x h hP
      rw [ih hR]
      exact and_congr_left fun _ => iff_of_true hout hP
    · exact iff_of_false (fun he => hbad s t x h hP he.1) fun ha => hP ha.1

/-- Two machines that stay related put out the same. -/
theorem outputs_eq_of_related {ω : Type} {step : σ → α → σ × ω} {step' : τ → α → τ × ω}
    {R : σ → τ → Prop}
    (hstep : ∀ s t x, R s t → (step s x).2 = (step' t x).2 ∧ R (step s x).1 (step' t x).1) {s : σ}
    {t : τ} (h : R s t) (xs : List α) : outputs step s xs = outputs step' t xs :=
  (outputs_eq_iff (P := fun _ _ => True) (fun s t x hR _ => hstep s t x hR)
    (fun _ _ _ _ hP => absurd trivial hP) h xs).mpr (.of_forall fun _ _ => trivial)

/-! ## Specifications with a choice -/

/-- A run of a specification takes the inputs and may give the outputs. -/
inductive Allows {ω : Type} (next : τ → α → ω → τ → Prop) : τ → List α → List ω → Prop
  | nil (t : τ) : Allows next t [] []
  | cons {t t' : τ} {x : α} {w : ω} {xs : List α} {ws : List ω} (hnext : next t x w t')
    (hrest : Allows next t' xs ws) : Allows next t (x :: xs) (w :: ws)

/-- What a machine puts out is allowed if the specification can follow each of its steps. -/
theorem allows_of_simulation {ω : Type} {step : σ → α → σ × ω} {next : τ → α → ω → τ → Prop}
    {R : σ → τ → Prop}
    (hstep : ∀ s t x, R s t → ∃ t', next t x (step s x).2 t' ∧ R (step s x).1 t') {s : σ} {t : τ}
    (h : R s t) (xs : List α) : Allows next t xs (outputs step s xs) := by
  induction xs generalizing s t with
  | nil => exact .nil t
  | cons x xs ih =>
    obtain ⟨t', hnext, hR⟩ := hstep s t x h
    exact .cons hnext (ih hR)

end Lib
