import Kzip.Lib.Except

/-!
# Programs with checkpoints

A program in `ExceptT ε (StateM σ)` that keeps a state and may fail. If its steps pass a number of
checkpoints and then give what a plain computation gives, so does the program: `after check cs y` passes
the checkpoints `cs` in order and then gives `y`. A loop passes the checkpoints of its steps, up to the
first one that fails (`mapM_after`, `foldlM_after`).
-/

namespace Lib

variable {ε σ κ α β : Type}

/-- A computation that does not touch the state. -/
def plainly (y : Except ε α) : ExceptT ε (StateM σ) α := ExceptT.mk (pure y)

@[simp] theorem plainly_ok (a : α) : (plainly (.ok a) : ExceptT ε (StateM σ) α) = pure a := rfl

theorem plainly_error_bind (e : ε) (f : α → ExceptT ε (StateM σ) β) :
    plainly (.error e) >>= f = plainly (.error e) := rfl

/-- A run of a program: what it gives, and the state after it. -/
def exec (x : ExceptT ε (StateM σ) α) (s : σ) : Except ε α × σ := StateT.run (ExceptT.run x) s

@[simp] theorem exec_plainly (y : Except ε α) (s : σ) : exec (plainly y) s = (y, s) := rfl

@[simp] theorem exec_pure (a : α) (s : σ) :
    exec (pure a : ExceptT ε (StateM σ) α) s = (.ok a, s) := rfl

theorem exec_get_bind (f : σ → ExceptT ε (StateM σ) α) (s : σ) : exec (get >>= f) s = exec (f s) s := rfl

theorem exec_bind_ok {x : ExceptT ε (StateM σ) α} {f : α → ExceptT ε (StateM σ) β} {s t : σ} {a : α}
    (h : exec x s = (.ok a, t)) : exec (x >>= f) s = exec (f a) t := by
  unfold exec at h ⊢
  simp only [ExceptT.run_bind, StateT.run_bind, h]
  rfl

theorem exec_bind_error {x : ExceptT ε (StateM σ) α} {f : α → ExceptT ε (StateM σ) β} {s t : σ} {e : ε}
    (h : exec x s = (.error e, t)) : exec (x >>= f) s = (.error e, t) := by
  unfold exec at h ⊢
  simp only [ExceptT.run_bind, StateT.run_bind, h]
  rfl

section
variable (check : κ → ExceptT ε (StateM σ) Unit)

/-- Passes the checkpoints, then gives `y`. -/
def after (cs : List κ) (y : Except ε α) : ExceptT ε (StateM σ) α := do
  cs.forM check
  plainly y

end

variable {check : κ → ExceptT ε (StateM σ) Unit}

theorem after_nil (y : Except ε α) : after check [] y = plainly y := by
  rw [after, List.forM_eq_forM, List.forM_nil, pure_bind]

theorem after_cons (c : κ) (cs : List κ) (y : Except ε α) :
    after check (c :: cs) y = (check c >>= fun _ => after check cs y) := by
  rw [after, List.forM_eq_forM, List.forM_cons, bind_assoc]
  rfl

theorem after_append (cs cs' : List κ) (y : Except ε α) :
    after check (cs ++ cs') y = (cs.forM check >>= fun _ => after check cs' y) := by
  rw [after, List.forM_eq_forM, List.forM_append, bind_assoc]
  rfl

theorem after_ok_bind (cs : List κ) (a : α) (f : α → ExceptT ε (StateM σ) β) :
    after check cs (.ok a) >>= f = (cs.forM check >>= fun _ => f a) := by
  rw [after, bind_assoc, plainly_ok]
  simp only [pure_bind]

theorem after_error_bind (cs : List κ) (e : ε) (f : α → ExceptT ε (StateM σ) β) :
    after check cs (.error e) >>= f = after check cs (.error e) := by
  rw [after, bind_assoc]
  rfl

/-- The checkpoints of a sequence of two computations: those of the second are passed if the first
succeeds. -/
def checkpointsThen (cs : List κ) (y : Except ε α) (next : α → List κ) : List κ :=
  cs ++ match y with
    | .ok a => next a
    | .error _ => []

theorem checkpointsThen_nil (cs : List κ) (y : Except ε α) : checkpointsThen cs y (fun _ => []) = cs := by
  cases y <;> simp [checkpointsThen]

theorem after_bind {cs : List κ} {y : Except ε α} {f : α → ExceptT ε (StateM σ) β}
    {next : α → List κ} {z : α → Except ε β} (hf : ∀ a, f a = after check (next a) (z a)) :
    after check cs y >>= f = after check (checkpointsThen cs y next) (y >>= z) := by
  cases y with
  | ok a => rw [after_ok_bind, hf, checkpointsThen, after_append, ok_bind]
  | error e => rw [after_error_bind, checkpointsThen, List.append_nil, error_bind]

/-- The checkpoints of a loop that collects results. -/
def mapCheckpoints (cs : α → List κ) (y : α → Except ε β) : List α → List κ
  | [] => []
  | a :: as => checkpointsThen (cs a) (y a) fun _ => mapCheckpoints cs y as

theorem mapM_after {f : α → ExceptT ε (StateM σ) β} {cs : α → List κ} {y : α → Except ε β}
    (hf : ∀ a, f a = after check (cs a) (y a)) (as : List α) :
    as.mapM f = after check (mapCheckpoints cs y as) (as.mapM y) := by
  induction as with
  | nil => exact (after_nil _).symm
  | cons a as ih =>
    rw [List.mapM_cons, List.mapM_cons, hf, mapCheckpoints]
    refine after_bind fun b => ?_
    rw [ih]
    have hpush (bs : List β) : (pure (b :: bs) : ExceptT ε (StateM σ) (List β)) =
        after check [] (.ok (b :: bs)) := (after_nil _).symm
    rw [after_bind hpush, checkpointsThen_nil]
    rfl

/-- A loop that succeeds passes all its checkpoints. -/
theorem mapCheckpoints_ok {cs : α → List κ} {y : α → Except ε β} {as : List α} {bs : List β}
    (h : as.mapM y = .ok bs) : mapCheckpoints cs y as = as.flatMap cs := by
  induction as generalizing bs with
  | nil => rfl
  | cons a as ih =>
    rw [List.mapM_cons] at h
    obtain ⟨b, hb, h⟩ := bind_ok.mp h
    obtain ⟨bs, hbs, -⟩ := bind_ok.mp h
    rw [mapCheckpoints, hb, checkpointsThen, List.flatMap_cons, ← ih hbs]

/-- The checkpoints of a loop with an accumulator. -/
def foldCheckpoints (cs : β → α → List κ) (y : β → α → Except ε β) : β → List α → List κ
  | _, [] => []
  | b, a :: as => checkpointsThen (cs b a) (y b a) fun b => foldCheckpoints cs y b as

theorem foldlM_after {f : β → α → ExceptT ε (StateM σ) β} {cs : β → α → List κ}
    {y : β → α → Except ε β} (hf : ∀ b a, f b a = after check (cs b a) (y b a)) (b : β)
    (as : List α) : as.foldlM f b = after check (foldCheckpoints cs y b as) (as.foldlM y b) := by
  induction as generalizing b with
  | nil => exact (after_nil _).symm
  | cons a as ih =>
    rw [List.foldlM_cons, List.foldlM_cons, hf, foldCheckpoints]
    exact after_bind fun b => ih b

end Lib
