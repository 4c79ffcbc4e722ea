import Kzip.Lib.Run

/-!
# Readers

A reader hands out a list piece by piece. A read of at most `k` elements may return fewer, but it returns
none only when `k` is zero or nothing is left, and when it fails nothing is lost. So the reads give what
the reader holds in order, whatever their lengths (`Reader.rest_eq_delivered`).
-/

namespace Lib

variable {σ α ε : Type}

structure Reader (σ α ε : Type) where
  read : Nat → σ → Except ε (List α) × σ
  /-- What is still to be read. -/
  rest : σ → List α
  read_ok : ∀ k s as, (read k s).1 = .ok as →
    rest s = as ++ rest (read k s).2 ∧ as.length ≤ k ∧ (as = [] → k = 0 ∨ rest s = [])
  read_error : ∀ k s e, (read k s).1 = .error e → rest (read k s).2 = rest s

namespace Reader

/-- The elements that a read returned. -/
def taken : Except ε (List α) → List α
  | .ok as => as
  | .error _ => []

variable (R : Reader σ α ε)

/-- The reader after reads of at most the given numbers of elements. -/
def after (s : σ) (ks : List Nat) : σ := ks.foldl (fun s k => (R.read k s).2) s

/-- What the reads returned. -/
def delivered (s : σ) (ks : List Nat) : List α :=
  (outputs (fun s k => ((R.read k s).2, (R.read k s).1)) s ks).flatMap taken

theorem rest_eq_taken (k : Nat) (s : σ) :
    R.rest s = taken (R.read k s).1 ++ R.rest (R.read k s).2 := by
  cases h : (R.read k s).1 with
  | ok as => exact (R.read_ok k s as h).1
  | error e => exact (R.read_error k s e h).symm

theorem rest_eq_delivered (ks : List Nat) (s : σ) :
    R.rest s = R.delivered s ks ++ R.rest (R.after s ks) := by
  induction ks generalizing s with
  | nil => rfl
  | cons k ks ih =>
    have hcons : R.delivered s (k :: ks) = taken (R.read k s).1 ++ R.delivered (R.read k s).2 ks := rfl
    rw [R.rest_eq_taken k s, ih, hcons, List.append_assoc]
    rfl

/-- A read that has room finds nothing exactly at the end. -/
theorem read_nil_iff {k : Nat} {s : σ} {as : List α} (hk : 0 < k) (h : (R.read k s).1 = .ok as) :
    as = [] ↔ R.rest s = [] := by
  obtain ⟨hsplit, -, hnil⟩ := R.read_ok k s as h
  constructor
  · intro has
    exact (hnil has).resolve_left (Nat.ne_of_gt hk)
  · intro hrest
    exact (List.append_eq_nil_iff.mp (hsplit.symm.trans hrest)).1

/-- A property of the reader and of what it has handed out, which every read keeps. -/
theorem delivered_invariant {I : σ → List α → Prop}
    (hread : ∀ k s l, I s l → I (R.read k s).2 (l ++ taken (R.read k s).1)) {s : σ} {l : List α}
    (h : I s l) (ks : List Nat) : I (R.after s ks) (l ++ R.delivered s ks) := by
  induction ks generalizing s l with
  | nil =>
    rw [show R.delivered s [] = [] from rfl, List.append_nil]
    exact h
  | cons k ks ih =>
    have hcons : R.delivered s (k :: ks) = taken (R.read k s).1 ++ R.delivered (R.read k s).2 ks := rfl
    rw [hcons, ← List.append_assoc]
    exact ih (hread k s l h)

end Reader

end Lib
