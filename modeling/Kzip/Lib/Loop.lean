/-!
# Loops

A loop whose body goes on to the next state or leaves with a result. `Leaves body s n w` says that the
loop entered at `s` leaves with `w` after `n` rounds. The rule `exists_leaves` proves that it does from
an invariant and a variant. `runLoop` computes the result, if the rounds it is allowed suffice.
-/

namespace Lib

variable {σ ω : Type}

inductive Leaves (body : σ → σ ⊕ ω) : σ → Nat → ω → Prop
  | leave {s : σ} {w : ω} (h : body s = .inr w) : Leaves body s 0 w
  | round {s s' : σ} {n : Nat} {w : ω} (h : body s = .inl s') (hs : Leaves body s' n w) :
    Leaves body s (n + 1) w

theorem Leaves.invariant {body : σ → σ ⊕ ω} {I : σ → Prop} {Q : ω → Prop}
    (hround : ∀ s s', I s → body s = .inl s' → I s')
    (hleave : ∀ s w, I s → body s = .inr w → Q w) {s : σ} {n : Nat} {w : ω} (hs : Leaves body s n w)
    (h : I s) : Q w := by
  induction hs with
  | leave hl => exact hleave _ _ h hl
  | round hr _ ih => exact ih (hround _ _ h hr)

/-- An invariant that every round keeps while it makes the variant smaller. -/
theorem exists_leaves {body : σ → σ ⊕ ω} {I : σ → Prop} {Q : ω → Prop} {variant : σ → Nat}
    (hround : ∀ s s', I s → body s = .inl s' → I s' ∧ variant s' < variant s)
    (hleave : ∀ s w, I s → body s = .inr w → Q w) {s : σ} (h : I s) :
    ∃ n w, n ≤ variant s ∧ Leaves body s n w ∧ Q w := by
  induction hv : variant s using Nat.strongRecOn generalizing s with
  | ind v ih =>
    subst hv
    cases hs : body s with
    | inr w => exact ⟨0, w, Nat.zero_le _, .leave hs, hleave s w h hs⟩
    | inl s' =>
      obtain ⟨hI, hlt⟩ := hround s s' h hs
      obtain ⟨n, w, hn, hl, hw⟩ := ih (variant s') hlt hI rfl
      exact ⟨n + 1, w, by omega, .round hs hl, hw⟩

theorem Leaves.unique {body : σ → σ ⊕ ω} {s : σ} {n n' : Nat} {w w' : ω} (h : Leaves body s n w)
    (h' : Leaves body s n' w') : w = w' := by
  induction h generalizing n' with
  | leave hs =>
    cases h' with
    | leave hs' => exact Sum.inr.inj (hs.symm.trans hs')
    | round hs' _ => cases hs.symm.trans hs'
  | round hs _ ih =>
    cases h' with
    | leave hs' => cases hs.symm.trans hs'
    | round hs' hrest =>
      cases hs.symm.trans hs'
      exact ih hrest

/-- The result of a loop of at most `n` rounds. -/
def runLoop (body : σ → σ ⊕ ω) : Nat → σ → Option ω
  | n, s =>
    match body s with
    | .inr w => some w
    | .inl s' =>
      match n with
      | 0 => none
      | n + 1 => runLoop body n s'

theorem leaves_of_runLoop {body : σ → σ ⊕ ω} {s : σ} {m : Nat} {w : ω} (h : runLoop body m s = some w) :
    ∃ n, Leaves body s n w := by
  induction m generalizing s with
  | zero =>
    rw [runLoop] at h
    cases hs : body s with
    | inl s' =>
      rw [hs] at h
      cases h
    | inr w' =>
      rw [hs] at h
      cases h
      exact ⟨0, .leave hs⟩
  | succ m ih =>
    rw [runLoop] at h
    cases hs : body s with
    | inl s' =>
      rw [hs] at h
      obtain ⟨n, hn⟩ := ih h
      exact ⟨n + 1, .round hs hn⟩
    | inr w' =>
      rw [hs] at h
      cases h
      exact ⟨0, .leave hs⟩

/-- The rounds that a loop is allowed do not change its result. -/
theorem runLoop_unique {body : σ → σ ⊕ ω} {s : σ} {m m' : Nat} {w w' : ω} (h : runLoop body m s = some w)
    (h' : runLoop body m' s = some w') : w = w' := by
  obtain ⟨_, hn⟩ := leaves_of_runLoop h
  obtain ⟨_, hn'⟩ := leaves_of_runLoop h'
  exact hn.unique hn'

theorem runLoop_of_leaves {body : σ → σ ⊕ ω} {s : σ} {n m : Nat} {w : ω} (h : Leaves body s n w)
    (hn : n ≤ m) : runLoop body m s = some w := by
  induction h generalizing m with
  | leave h => rw [runLoop, h]
  | round h _ ih =>
    obtain ⟨m, rfl⟩ : ∃ k, m = k + 1 := ⟨m - 1, by omega⟩
    rw [runLoop, h]
    exact ih (Nat.le_of_succ_le_succ hn)

end Lib
