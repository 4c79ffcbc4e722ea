import Kzip.Lib.Checkpoint

/-!
# Programs whose operations may fail

A program in `ExceptT ε (StateM σ)` is compared with a plain computation `y`, which says what it gives if no
operation fails. An operation that fails leaves the state `bad`; the program then gives an error, or goes on and
gives something else that is foreseen (`Gives`).
-/

namespace Lib

variable {ε σ α β : Type} {I bad : σ → Prop}

/-- A program ends with an error, or goes on with what its start gives. -/
theorem exec_bind_cases (x : ExceptT ε (StateM σ) α) (f : α → ExceptT ε (StateM σ) β) (s : σ) :
    (∃ e t, exec x s = (.error e, t) ∧ exec (x >>= f) s = (.error e, t)) ∨
      ∃ a t, exec x s = (.ok a, t) ∧ exec (x >>= f) s = exec (f a) t := by
  rcases hx : exec x s with ⟨e | a, t⟩
  · exact .inl ⟨e, t, rfl, exec_bind_error hx⟩
  · exact .inr ⟨a, t, rfl, exec_bind_ok hx⟩

/-- From a state with `I`, the program keeps `I`, and a bad state stays bad. -/
structure Keeps (I bad : σ → Prop) (x : ExceptT ε (StateM σ) α) : Prop where
  keeps : ∀ s, I s → I (exec x s).2
  stays : ∀ s, I s → bad s → bad (exec x s).2

theorem keeps_plainly (y : Except ε α) : Keeps I bad (plainly y) := ⟨fun _ h => h, fun _ _ h => h⟩

theorem Keeps.bind {x : ExceptT ε (StateM σ) α} {f : α → ExceptT ε (StateM σ) β} (h : Keeps I bad x)
    (hf : ∀ a, Keeps I bad (f a)) : Keeps I bad (x >>= f) := by
  refine ⟨fun s hs => ?_, fun s hs hbad => ?_⟩
  · have hkeeps := h.keeps s hs
    rcases exec_bind_cases x f s with ⟨e, t, hx, hxf⟩ | ⟨a, t, hx, hxf⟩
    · rw [hxf]
      rwa [hx] at hkeeps
    · rw [hx] at hkeeps
      rw [hxf]
      exact (hf a).keeps t hkeeps
  · have hkeeps := h.keeps s hs
    have hstays := h.stays s hs hbad
    rcases exec_bind_cases x f s with ⟨e, t, hx, hxf⟩ | ⟨a, t, hx, hxf⟩
    · rw [hxf]
      rwa [hx] at hstays
    · rw [hx] at hkeeps hstays
      rw [hxf]
      exact (hf a).stays t hkeeps hstays

/-- The program gives `y`; or the state is bad after it, and it gives an error or what `P` foresees. -/
structure Gives (I bad : σ → Prop) (x : ExceptT ε (StateM σ) α) (y : Except ε α) (P : Except ε α → Prop) : Prop
    extends Keeps I bad x where
  gives : ∀ s, I s → (exec x s).1 = y ∨ bad (exec x s).2 ∧ (P (exec x s).1 ∨ ∃ e, (exec x s).1 = .error e)

variable {x : ExceptT ε (StateM σ) α} {y : Except ε α} {P Q : Except ε α → Prop}

theorem gives_plainly (y : Except ε α) : Gives I bad (plainly y) y P where
  toKeeps := keeps_plainly y
  gives := fun _ _ => .inl rfl

theorem gives_pure (a : α) : Gives I bad (pure a : ExceptT ε (StateM σ) α) (.ok a) P := gives_plainly (.ok a)

theorem Gives.mono (h : Gives I bad x y P) (hPQ : ∀ r, P r → Q r) : Gives I bad x y Q where
  toKeeps := h.toKeeps
  gives := fun s hs => (h.gives s hs).imp_right (.imp_right (.imp_left (hPQ _)))

/-- The program gives something, or an error in a bad state. -/
structure Runs (I bad : σ → Prop) (x : ExceptT ε (StateM σ) α) : Prop extends Keeps I bad x where
  gives : ∀ s, I s → (∃ a, (exec x s).1 = .ok a) ∨ bad (exec x s).2 ∧ ∃ e, (exec x s).1 = .error e

theorem Runs.then {x : ExceptT ε (StateM σ) α} {f : α → ExceptT ε (StateM σ) β} {y : Except ε β}
    {P : Except ε β → Prop} (h : Runs I bad x) (hf : ∀ a, Gives I bad (f a) y P) :
    Gives I bad (x >>= f) y P where
  toKeeps := h.toKeeps.bind fun a => (hf a).toKeeps
  gives := fun s hs => by
    have hkeeps := h.keeps s hs
    have hgives := h.gives s hs
    rcases exec_bind_cases x f s with ⟨e, t, hx, hxf⟩ | ⟨a, t, hx, hxf⟩
    · rw [hx] at hgives
      rw [hxf]
      rcases hgives with ⟨a, ha⟩ | ⟨hbad, -⟩
      · cases ha
      · exact .inr ⟨hbad, .inr ⟨e, rfl⟩⟩
    · rw [hx] at hkeeps
      rw [hxf]
      exact (hf a).gives t hkeeps

/-- What a sequence may give after a failure: what the second program may, or what it gives after something
that the first one may give. -/
def Foreseen (y : Except ε α) (P : Except ε α → Prop) (g : α → Except ε β) (Q : α → Except ε β → Prop)
    (r : Except ε β) : Prop :=
  ∃ y', (y' = y ∨ P y') ∧ (P y' ∧ r = (y' >>= g) ∨ ∃ a, y' = .ok a ∧ Q a r)

theorem Gives.bind {f : α → ExceptT ε (StateM σ) β} {g : α → Except ε β} {Q : α → Except ε β → Prop}
    (h : Gives I bad x y P) (hf : ∀ a, Gives I bad (f a) (g a) (Q a)) :
    Gives I bad (x >>= f) (y >>= g) (Foreseen y P g Q) where
  toKeeps := h.toKeeps.bind fun a => (hf a).toKeeps
  gives := fun s hs => by
    have hkeeps := h.keeps s hs
    have hgives := h.gives s hs
    rcases exec_bind_cases x f s with ⟨e, t, hx, hxf⟩ | ⟨a, t, hx, hxf⟩
    · rw [hx] at hgives
      rw [hxf]
      rcases hgives with rfl | ⟨hbad, -⟩
      · exact .inl rfl
      · exact .inr ⟨hbad, .inr ⟨e, rfl⟩⟩
    · rw [hx] at hkeeps hgives
      rw [hxf]
      have hnext := (hf a).gives t hkeeps
      rcases hgives with rfl | ⟨hbad, hP | ⟨e, he⟩⟩
      · refine hnext.imp_right (.imp_right (.imp_left fun hQ => ?_))
        exact ⟨_, .inl rfl, .inr ⟨a, rfl, hQ⟩⟩
      · refine .inr ⟨(hf a).stays t hkeeps hbad, ?_⟩
        rcases hnext with hnext | ⟨-, hQ | herror⟩
        · exact .inl ⟨_, .inr hP, .inl ⟨hP, hnext⟩⟩
        · exact .inl ⟨_, .inr hP, .inr ⟨a, rfl, hQ⟩⟩
        · exact .inr herror
      · cases he

/-- Where nothing else than errors is foreseen of the first program. -/
theorem Gives.next {f : α → ExceptT ε (StateM σ) β} {g : α → Except ε β} {Q : α → Except ε β → Prop}
    (h : Gives I bad x y fun _ => False) (hf : ∀ a, Gives I bad (f a) (g a) (Q a)) :
    Gives I bad (x >>= f) (y >>= g) fun r => ∃ a, y = .ok a ∧ Q a r := by
  refine (h.bind hf).mono ?_
  rintro r ⟨y', rfl | hfalse, ⟨hfalse, -⟩ | ⟨a, ha, hQ⟩⟩
  · exact hfalse.elim
  · exact ⟨a, ha, hQ⟩
  · exact hfalse.elim
  · exact hfalse.elim

theorem Gives.then {f : α → ExceptT ε (StateM σ) β} {g : α → Except ε β} {Q : Except ε β → Prop}
    (h : Gives I bad x y fun _ => False) (hf : ∀ a, Gives I bad (f a) (g a) Q) :
    Gives I bad (x >>= f) (y >>= g) Q := by
  refine (h.next hf).mono ?_
  rintro r ⟨a, -, hQ⟩
  exact hQ

/-- Where nothing else than errors is foreseen of the second program. -/
theorem Gives.after {f : α → ExceptT ε (StateM σ) β} {g : α → Except ε β}
    (h : Gives I bad x y P) (hf : ∀ a, Gives I bad (f a) (g a) fun _ => False) :
    Gives I bad (x >>= f) (y >>= g) fun r => ∃ y', P y' ∧ r = (y' >>= g) := by
  refine (h.bind hf).mono ?_
  rintro r ⟨y', -, hP | ⟨-, -, hfalse⟩⟩
  · exact ⟨y', hP⟩
  · exact hfalse.elim

/-- A program whose errors are turned into `none`. -/
def attempt (x : ExceptT ε (StateM σ) α) : ExceptT ε (StateM σ) (Option α) := fun s =>
  ((.ok (exec x s).1.toOption : Except ε (Option α)), (exec x s).2)

theorem exec_attempt (s : σ) : exec (attempt x) s = (.ok (exec x s).1.toOption, (exec x s).2) := rfl

/-- After a failure there may be nothing where there was something. -/
theorem Gives.attempt (h : Gives I bad x y fun _ => False) :
    Gives I bad (attempt x) (.ok y.toOption) fun r => r = .ok none where
  keeps := h.keeps
  stays := h.stays
  gives := fun s hs => by
    rw [exec_attempt]
    rcases h.gives s hs with hy | ⟨hbad, hfalse | ⟨e, he⟩⟩
    · rw [hy]
      exact .inl rfl
    · exact hfalse.elim
    · rw [he]
      exact .inr ⟨hbad, .inl rfl⟩

/-- A program whose errors are changed. -/
def changeError (c : ε → ε) (x : ExceptT ε (StateM σ) α) : ExceptT ε (StateM σ) α := fun s =>
  ((exec x s).1.mapError c, (exec x s).2)

theorem exec_changeError (c : ε → ε) (s : σ) :
    exec (changeError c x) s = ((exec x s).1.mapError c, (exec x s).2) := rfl

theorem Gives.changeError (c : ε → ε) (h : Gives I bad x y fun _ => False) :
    Gives I bad (changeError c x) (y.mapError c) fun _ => False where
  keeps := h.keeps
  stays := h.stays
  gives := fun s hs => by
    rw [exec_changeError]
    rcases h.gives s hs with hy | ⟨hbad, hfalse | ⟨e, he⟩⟩
    · rw [hy]
      exact .inl rfl
    · exact hfalse.elim
    · rw [he]
      exact .inr ⟨hbad, .inr ⟨c e, rfl⟩⟩

end Lib
