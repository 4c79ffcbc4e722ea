import Mathlib.Data.List.Forall2

/-!
# Taking successful computations apart

For a sequence of steps that may fail: what a successful run says about each step.
-/

namespace Lib

variable {ε α β : Type}

theorem bind_ok {x : Except ε α} {f : α → Except ε β} {b : β} :
    (x >>= f) = .ok b ↔ ∃ a, x = .ok a ∧ f a = .ok b := by
  cases x <;> simp [bind, Except.bind]

@[simp] theorem ok_bind {a : α} {f : α → Except ε β} : (Except.ok a >>= f) = f a := rfl

@[simp] theorem error_bind {e : ε} {f : α → Except ε β} : (Except.error e >>= f) = .error e := rfl

theorem map_ok {x : Except ε α} {f : α → β} {b : β} :
    x.map f = .ok b ↔ ∃ a, x = .ok a ∧ f a = b := by
  cases x <;> simp [Except.map]

theorem toOption_eq_some {x : Except ε α} {a : α} : x.toOption = some a ↔ x = .ok a := by
  cases x <;> simp [Except.toOption]

/-- A sequence fails with `e` only if one of its steps does. -/
theorem bind_ne_error {x : Except ε α} {f : α → Except ε β} {e : ε} (hx : x ≠ .error e)
    (hf : ∀ a, x = .ok a → f a ≠ .error e) : x >>= f ≠ .error e := by
  cases x with
  | error e' => exact fun h => hx (by cases h; rfl)
  | ok a => exact hf a rfl

theorem map_ne_error {x : Except ε α} {f : α → β} {e : ε} (hx : x ≠ .error e) :
    x.map f ≠ .error e := by
  cases x with
  | error e' => exact fun h => hx (by cases h; rfl)
  | ok a => exact nofun

/-- A guard that fails with `e` when `c` holds. -/
theorem guard_ok {c : Prop} [Decidable c] {e : ε} {x : Except ε α} {a : α} :
    (if c then .error e else x) = .ok a ↔ ¬ c ∧ x = .ok a := by
  by_cases h : c <;> simp [h]

theorem guard_ne_error {c : Prop} [Decidable c] {e e' : ε} {x : Except ε α} (he : e ≠ e')
    (hx : ¬ c → x ≠ .error e') : (if c then .error e else x) ≠ .error e' := by
  by_cases h : c
  · rw [if_pos h]
    exact fun h => he (by cases h; rfl)
  · rw [if_neg h]
    exact hx h

/-- A computation whose result passes a test succeeds. -/
theorem exists_ok {x : Except ε α} {p : α → Bool} (h : x.toOption.any p = true) :
    ∃ a, x = .ok a ∧ p a = true := by
  cases x with
  | error e => cases h
  | ok a => exact ⟨a, rfl, h⟩

/-- A loop that collects what `f` makes of each element. -/
theorem mapM_ok {β' : Type} {f : α → Except ε β'} {as : List α} {bs : List β'} :
    as.mapM f = .ok bs ↔ List.Forall₂ (fun a b => f a = .ok b) as bs := by
  induction as generalizing bs with
  | nil =>
    rw [List.mapM_nil, List.forall₂_nil_left_iff]
    exact ⟨fun h => (Except.ok.inj h).symm, fun h => h ▸ rfl⟩
  | cons a as ih =>
    simp only [List.mapM_cons, bind_ok, List.forall₂_cons_left_iff, ih]
    constructor
    · rintro ⟨b, hb, bs', hbs, h⟩
      cases h
      exact ⟨b, bs', hb, hbs, rfl⟩
    · rintro ⟨b, bs', hb, hbs, rfl⟩
      exact ⟨b, hb, bs', hbs, rfl⟩

theorem mapM_of_ok {β' : Type} {f : α → Except ε β'} {g : α → β'} {as : List α}
    (h : ∀ a ∈ as, f a = .ok (g a)) : as.mapM f = .ok (as.map g) :=
  mapM_ok.mpr (List.forall₂_map_right_iff.mpr (List.forall₂_same.mpr h))

theorem mapM_congr_mem {β' : Type} {f g : α → Except ε β'} {as : List α} (h : ∀ a ∈ as, f a = g a) :
    as.mapM f = as.mapM g := by
  induction as with
  | nil => rfl
  | cons a as ih =>
    obtain ⟨ha, has⟩ := List.forall_mem_cons.mp h
    rw [List.mapM_cons, List.mapM_cons, ha, ih has]

/-- A loop that appends what `f` makes of each element. -/
theorem foldlM_append_ok {γ : Type} {f : α → Except ε (List γ)} {as : List α} {init r : List γ} :
    as.foldlM (fun out a => do .ok (out ++ (← f a))) init = .ok r ↔
      ∃ ps : List (α × List γ), ps.map (·.1) = as ∧ (∀ p ∈ ps, f p.1 = .ok p.2) ∧
        r = init ++ ps.flatMap (·.2) := by
  induction as generalizing init with
  | nil =>
    simp only [List.foldlM_nil, List.map_eq_nil_iff]
    constructor
    · intro h
      cases h
      exact ⟨[], rfl, nofun, (List.append_nil _).symm⟩
    · rintro ⟨_, rfl, -, rfl⟩
      rw [List.flatMap_nil, List.append_nil]
      rfl
  | cons a as ih =>
    simp only [List.foldlM_cons, bind_ok, Except.ok.injEq, ih]
    constructor
    · rintro ⟨_, ⟨x, hx, rfl⟩, ps, rfl, hps, rfl⟩
      refine ⟨(a, x) :: ps, rfl, List.forall_mem_cons.mpr ⟨hx, hps⟩, ?_⟩
      rw [List.flatMap_cons, List.append_assoc]
    · rintro ⟨ps, hmap, hps, rfl⟩
      obtain ⟨⟨a, x⟩, ps, rfl, rfl, rfl⟩ := List.map_eq_cons_iff.mp hmap
      obtain ⟨hx, hps⟩ := List.forall_mem_cons.mp hps
      refine ⟨_, ⟨x, hx, rfl⟩, ps, rfl, hps, ?_⟩
      rw [List.flatMap_cons, List.append_assoc]

end Lib
