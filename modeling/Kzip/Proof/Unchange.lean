import Kzip.Impl.Reference
import Kzip.Proof.Close
import Kzip.Spec.Unchange

/-!
# Undoing the edits of one entry

`unchange_iff`: `zip_unchange` undoes the edits of one entry, and no others, exactly when no edits are
pending for a later add whose index it moves.
-/

namespace Kzip.Impl

open Lib Kzip.Spec

variable {X : Extern}

/-- Without an original entry, the other entries keep their indices. -/
theorem opsAt_withoutEntry_of_lt {n k : Nat} (h : k < n) (p : PendingOps) (j : Nat) :
    opsAt (withoutEntry n p k) j = if j = k then .none else opsAt p j := by
  have hn : ¬ n ≤ k := by omega
  by_cases hj : j = k
  · subst hj
    simp [opsAt, withoutEntry, removeAt, hn, EntryOps.none, valuesAt_dropAt]
  · simp [opsAt, withoutEntry, removeAt, hn, valuesAt_dropAt, hj, Ne.symm hj]

/-- Without a pending add, the later adds move down. -/
theorem opsAt_withoutEntry_of_le {n k : Nat} (h : n ≤ k) (p : PendingOps) (j : Nat) :
    opsAt (withoutEntry n p k) j = opsAt p (if j < k then j else j + 1) := by
  simp only [opsAt, withoutEntry, removeAt, h, ↓reduceIte, valuesAt_closeAt, List.contains_eq_mem,
    mem_closeKeys]

theorem unchange_ok {z : Zip} {k : Nat} (hk : k < z.total) :
    z.unchange k = (0, { z with pending := unchangeEntry z.archive z.pending k }) :=
  if_neg (Nat.not_le.mpr hk)

theorem unchange_total {z : Zip} {k : Nat} (hk : k < z.total) :
    (z.unchange k).2.total = if z.archive.len ≤ k then z.total - 1 else z.total := by
  rw [Zip.total] at hk
  rw [unchange_ok hk, Zip.total, Zip.total]
  simp only [unchangeEntry, ge_iff_le]
  split
  · rw [List.length_eraseIdx_of_lt (by omega)]
    omega
  · rfl

theorem opsAt_unchange {z : Zip} {k : Nat} (hk : k < z.total) (j : Nat) :
    opsAt (z.unchange k).2.pending j = if j = k then .none else opsAt z.pending j := by
  rw [unchange_ok hk]
  exact opsAt_unchangeEntry z.archive z.pending k j

/-- Going up from a pending add that is undone: the edits of each later add are those of the next one, and
beyond the last there are none. -/
theorem later_none_of_undoes {z : Zip} {k : Nat} (hk : k < z.total) (h : UndoesEntry X z k)
    (hn : z.archive.len ≤ k) (d : Nat) : opsAt z.pending (k + 1 + d) = .none := by
  have htotal := unchange_total hk
  rw [if_pos hn] at htotal
  have hkept (i : Nat) (hi : k ≤ i) (hit : i < z.total - 1) :
      opsAt z.pending (i + 1) = if i = k then .none else opsAt z.pending i := by
    have hsame := h.kept i (htotal ▸ hit)
    rw [opsAt_unchange hk, opsAt_withoutEntry_of_le hn, if_neg (Nat.not_lt.mpr hi)] at hsame
    exact hsame.symm
  have hbeyond {i : Nat} (hi : k < i) (hit : z.total - 1 ≤ i) : opsAt z.pending i = .none := by
    have hfresh := h.fresh i (htotal ▸ hit)
    rwa [opsAt_unchange hk, if_neg (by omega)] at hfresh
  induction d with
  | zero =>
    by_cases hlast : k < z.total - 1
    · have hstep := hkept k (Nat.le_refl k) hlast
      rwa [if_pos rfl] at hstep
    · exact hbeyond (by omega) (by omega)
  | succ d ih =>
    by_cases hlast : k + 1 + d < z.total - 1
    · have hstep := hkept (k + 1 + d) (by omega) hlast
      rw [if_neg (by omega), ih] at hstep
      exact hstep
    · exact hbeyond (by omega) (by omega)

/-- Where no edits are pending for a later add, it makes no difference that they do not move. -/
theorem opsAt_unchangeEntry_eq {a : Archive} {p : PendingOps} {k : Nat}
    (hnone : ∀ j, a.len ≤ k → k < j → opsAt p j = .none) (j : Nat) :
    opsAt (unchangeEntry a p k) j = opsAt (withoutEntry a.len p k) j := by
  by_cases hn : a.len ≤ k
  · rw [opsAt_unchangeEntry, opsAt_withoutEntry_of_le hn]
    by_cases hjk : j < k
    · rw [if_neg (by omega), if_pos hjk]
    · rw [if_neg hjk, hnone (j + 1) hn (by omega)]
      split
      · rfl
      · exact hnone j hn (by omega)
  · rw [opsAt_unchangeEntry, opsAt_withoutEntry_of_lt (Nat.lt_of_not_le hn)]

/-- Unchanging an entry undoes its edits, and no others, exactly when edits are pending for entries
only and, if the entry is a pending add, for none of the later adds. -/
theorem unchange_iff (X : Extern) {z : Zip} {k : Nat} (hk : k < z.total) : UndoesEntry X z k ↔
    ∀ j, opsAt z.pending j ≠ .none → j < z.total ∧ (z.archive.len ≤ k → j ≤ k) := by
  have htotal := unchange_total hk
  constructor
  · intro h j hj
    by_cases hn : z.archive.len ≤ k
    · have hle : j ≤ k := by
        refine Nat.le_of_not_lt fun hlt => hj ?_
        have hnone := later_none_of_undoes hk h hn (j - (k + 1))
        rwa [Nat.add_sub_cancel' hlt] at hnone
      exact ⟨by omega, fun _ => hle⟩
    · refine ⟨Nat.lt_of_not_le fun hle => ?_, fun h => absurd h hn⟩
      rw [if_neg hn] at htotal
      have hfresh := h.fresh j (htotal ▸ hle)
      rw [opsAt_unchange hk, if_neg (by omega)] at hfresh
      exact hj hfresh
  · intro h
    have hlater (j : Nat) (hn : z.archive.len ≤ k) (hj : k < j) : opsAt z.pending j = .none :=
      Classical.byContradiction fun hne => absurd ((h j hne).2 hn) (Nat.not_le.mpr hj)
    have hbeyond (j : Nat) (hj : z.total ≤ j) : opsAt z.pending j = .none :=
      Classical.byContradiction fun hne => absurd (h j hne).1 (Nat.not_lt.mpr hj)
    have hp : (z.unchange k).2.pending = unchangeEntry z.archive z.pending k := by rw [unchange_ok hk]
    have hops := opsAt_unchangeEntry_eq hlater
    have hadds : (unchangeEntry z.archive z.pending k).adds =
        (withoutEntry z.archive.len z.pending k).adds := rfl
    refine ⟨by rw [unchange_ok hk], fun sched => ?_, hp ▸ hadds, fun j _ => hp ▸ hops j, fun j hj => ?_⟩
    · rw [unchange_ok hk]
      exact materialize_congr X sched
        { z with pending := withoutEntry z.archive.len z.pending k } hadds (fun i _ => hops i) rfl
    · rw [opsAt_unchange hk]
      split
      · rfl
      · rename_i hjk
        rw [htotal] at hj
        split at hj
        · exact hlater j ‹_› (by omega)
        · exact hbeyond j hj

/-- The calls that add files `b` and `c`, the second with a comment. -/
def commentedAddCalls : List ZipCall :=
  [.fileAdd (some [0x62]) (some (.memory (oneByte 0x6A))) 0,
    .fileAdd (some [0x63]) (some (.memory (oneByte 0x6B))) 0, .fileSetComment 2 (some [0x78]) 1]

theorem unchange_sample : ∃ a, Archive.open { kind := .vec, bytes := sampleArchive } = .ok a ∧
    (UndoesEntry reference (runAll reference commentedAddCalls (makeZip a 0)) 2 ↔
      ∀ j, opsAt (runAll reference commentedAddCalls (makeZip a 0)).pending j ≠ .none →
        j < (runAll reference commentedAddCalls (makeZip a 0)).total ∧
          ((runAll reference commentedAddCalls (makeZip a 0)).archive.len ≤ 2 → j ≤ 2)) := by
  obtain ⟨a, ha, hp⟩ := exists_ok (x := Archive.open { kind := .vec, bytes := sampleArchive })
    (p := fun a => decide (2 < (runAll reference commentedAddCalls (makeZip a 0)).total))
    (by decide +kernel)
  exact ⟨a, ha, unchange_iff reference (of_decide_eq_true hp)⟩

/-- Unchanging the first of two pending adds takes its comment from the second. -/
theorem unchange_shifts : ∃ a, Archive.open { kind := .vec, bytes := sampleArchive } = .ok a ∧
    1 < (runAll reference commentedAddCalls (makeZip a 0)).total ∧
    ¬ UndoesEntry reference (runAll reference commentedAddCalls (makeZip a 0)) 1 := by
  obtain ⟨a, ha, hp⟩ := exists_ok (x := Archive.open { kind := .vec, bytes := sampleArchive })
    (p := fun a => decide (1 < (runAll reference commentedAddCalls (makeZip a 0)).total ∧
      ((runAll reference commentedAddCalls (makeZip a 0)).unchange 1).2.total = 2 ∧
      opsAt ((runAll reference commentedAddCalls (makeZip a 0)).unchange 1).2.pending 2 ≠ .none))
    (by decide +kernel)
  obtain ⟨hlt, htotal, hne⟩ := of_decide_eq_true hp
  exact ⟨a, ha, hlt, fun h => hne (h.fresh 2 (Nat.le_of_eq htotal))⟩

end Kzip.Impl
