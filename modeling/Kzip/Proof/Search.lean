import Kzip.Impl.Reference
import Kzip.Proof.Cdir
import Mathlib.Data.Nat.Find

/-!
# The search for the end record

`readCentralDir_ok_iff`: the directory of a source is that of the candidate nearest to its end, among
those that are not passed over. A candidate whose directory cannot be read ends the search, so that an
earlier one that parses is found exactly when no such candidate lies after it
(`readCentralDir_complete_iff`).
-/

namespace Kzip.Impl

open Lib Lib.LE Lib.Utf8

/-- The candidate is not passed over, and its directory cannot be read. -/
structure Refused (src : Source) (p : Nat) : Prop where
  candidate : Candidate src p
  looked_at : ¬ Skipped src.bytes p
  unreadable : ∀ cd, directoryAt src p ≠ .ok cd

/-- The candidate parses. -/
structure Parses (src : Source) (p : Nat) : Prop where
  candidate : Candidate src p
  parses : ∃ cd, tryParseAt src p = .ok (some cd)

theorem parses_iff {src : Source} {p : Nat} : Parses src p ↔
    Candidate src p ∧ ¬ Skipped src.bytes p ∧ ∃ cd, directoryAt src p = .ok cd := by
  constructor
  · rintro ⟨hp, cd, hcd⟩
    rw [tryParseAt_eq hp] at hcd
    split at hcd
    · cases hcd
    · rename_i hskip
      obtain ⟨cd', hcd', -⟩ := map_ok.mp hcd
      exact ⟨hp, hskip, cd', hcd'⟩
  · rintro ⟨hp, hskip, cd, hcd⟩
    exact ⟨hp, cd, by rw [tryParseAt_eq hp, if_neg hskip, hcd]; rfl⟩

/-- A candidate is passed over, parses or is refused. -/
theorem Candidate.cases {src : Source} {p : Nat} (h : Candidate src p) :
    Skipped src.bytes p ∨ Parses src p ∨ Refused src p := by
  by_cases hskip : Skipped src.bytes p
  · exact .inl hskip
  · by_cases hread : ∃ cd, directoryAt src p = .ok cd
    · exact .inr (.inl (parses_iff.mpr ⟨h, hskip, hread⟩))
    · exact .inr (.inr ⟨h, hskip, fun cd hcd => hread ⟨cd, hcd⟩⟩)

/-- The search stops at a candidate that parses, after some that were passed over. -/
theorem firstCdir_some {src : Source} {tail : Bytes} {start : Nat} {sig : Nat → Bool} {n : Nat}
    {cd : CentralDir}
    (h : firstCdir src tail start (((List.range n).reverse.filter sig).map (start + ·)) =
      .ok (some cd)) :
    ∃ i < n, sig i = true ∧ tryParseCdir src tail start (start + i) = .ok (some cd) ∧
      ∀ j, i < j → j < n → sig j = true → tryParseCdir src tail start (start + j) = .ok none := by
  induction n with
  | zero => cases h
  | succ n ih =>
    rw [List.range_succ, List.reverse_append, List.reverse_singleton, List.singleton_append] at h
    by_cases hs : sig n = true
    · rw [List.filter_cons_of_pos hs, List.map_cons, firstCdir] at h
      obtain ⟨o, ho, h⟩ := bind_ok.mp h
      cases o with
      | some cd' =>
        cases h
        exact ⟨n, Nat.lt_succ_self n, hs, ho, fun j hj hjn => by omega⟩
      | none =>
        obtain ⟨i, hi, hsig, hparse, hlast⟩ := ih h
        refine ⟨i, by omega, hsig, hparse, fun j hj hjn hsj => ?_⟩
        rcases Nat.lt_succ_iff_lt_or_eq.mp hjn with hjn | rfl
        · exact hlast j hj hjn hsj
        · exact ho
    · rw [List.filter_cons_of_neg hs] at h
      obtain ⟨i, hi, hsig, hparse, hlast⟩ := ih h
      refine ⟨i, by omega, hsig, hparse, fun j hj hjn hsj => ?_⟩
      rcases Nat.lt_succ_iff_lt_or_eq.mp hjn with hjn | rfl
      · exact hlast j hj hjn hsj
      · exact absurd hsj hs

/-- A directory is read from the last candidate that is not passed over, if that one parses. -/
theorem readCentralDir_ok_iff {src : Source} : (∃ cd, readCentralDir src = .ok cd) ↔
    ∃ p, Parses src p ∧ ∀ q, Candidate src q → p < q → Skipped src.bytes q := by
  have he : size.eocd = 22 := rfl
  constructor
  · rintro ⟨cd, h⟩
    rw [readCentralDir] at h
    obtain ⟨hlen, h⟩ := guard_ok.mp h
    obtain ⟨o, ho, h⟩ := bind_ok.mp h
    cases o with
    | none =>
      simp only at h
      split at h <;> cases h
    | some cd' =>
      obtain ⟨i, hi, hsig, hparse, hlast⟩ := firstCdir_some ho
      have hbound (j : Nat) : j < (src.bytes.drop (tailStart src.bytes)).length - size.eocd + 1 ↔
          tailStart src.bytes + j + size.eocd ≤ src.bytes.length := by
        have htail : 22 ≤ src.bytes.length - tailStart src.bytes := by
          rw [tailStart, show maxCdBuffer = 65578 from rfl]
          omega
        rw [List.length_drop]
        omega
      have hsignature (j : Nat) : ((((src.bytes.drop (tailStart src.bytes)).drop j).take 4 ==
          magic.eocd) = true) ↔ (src.bytes.drop (tailStart src.bytes + j)).take 4 = magic.eocd := by
        rw [List.drop_drop, beq_iff_eq]
      have hcand : Candidate src (tailStart src.bytes + i) :=
        ⟨Nat.le_add_right _ _, (hbound i).mp hi, (hsignature i).mp hsig⟩
      refine ⟨tailStart src.bytes + i, ⟨hcand, cd', hparse⟩, fun q hq hlt => ?_⟩
      obtain ⟨j, rfl⟩ := Nat.exists_eq_add_of_le hq.window
      have hnone := hlast j (by omega) ((hbound j).mpr hq.fits) ((hsignature j).mpr hq.signature)
      by_contra hskip
      have hnot := tryParseAt_eq hq
      rw [if_neg hskip] at hnot
      obtain ⟨cd'', -, h⟩ := map_ok.mp (hnot.symm.trans hnone)
      cases h
  · rintro ⟨p, hp, hlast⟩
    obtain ⟨hcand, hskip, cd, hcd⟩ := parses_iff.mp hp
    refine ⟨cd, ?_⟩
    rw [readCentralDir_of_last hcand hskip, hcd]
    intro q hq hlen hsig
    exact hlast q ⟨by have := hcand.window; omega, hlen, hsig⟩ hq

/-- An earlier candidate that parses is found exactly when every candidate that is refused comes
before one that parses. -/
theorem readCentralDir_complete_iff (src : Source) :
    ((∃ p, Parses src p) → ∃ cd, readCentralDir src = .ok cd) ↔
      ∀ q, Refused src q → (∃ p, Parses src p) → ∃ p, q < p ∧ Parses src p := by
  constructor
  · intro h q hq hgood
    obtain ⟨p, hp, hlast⟩ := readCentralDir_ok_iff.mp (h hgood)
    refine ⟨p, ?_, hp⟩
    obtain ⟨-, -, cd, hcd⟩ := parses_iff.mp hp
    rcases Nat.lt_trichotomy q p with hlt | rfl | hlt
    · exact hlt
    · exact absurd hcd (hq.unreadable cd)
    · exact absurd (hlast q hq.candidate hlt) hq.looked_at
  · intro h hgood
    classical
    -- the last candidate that parses: those after it are passed over
    obtain ⟨p₀, hp₀⟩ := hgood
    have hle (p : Nat) (hp : Parses src p) : p ≤ src.bytes.length := by
      have := hp.candidate.fits
      omega
    have hp := Nat.findGreatest_spec (hle p₀ hp₀) hp₀
    have hmax {q : Nat} (hq : Parses src q) :
        q ≤ Nat.findGreatest (Parses src) src.bytes.length :=
      Nat.le_findGreatest (hle q hq) hq
    refine readCentralDir_ok_iff.mpr ⟨_, hp, fun q hq hlt => ?_⟩
    rcases hq.cases with hskip | hparses | hrefused
    · exact hskip
    · exact absurd (hmax hparses) (by omega)
    · obtain ⟨p, hlt', hp'⟩ := h q hrefused ⟨p₀, hp₀⟩
      exact absurd (hmax hp') (by omega)

/-- An archive is not opened when the bytes after it look like an end record whose directory cannot
be read. -/
theorem trailing_record_hides : ∃ p, let src : Source := ⟨.vec, sampleArchive ++ strayEndRecord⟩
    Parses src p ∧ ∀ cd, readCentralDir src ≠ .ok cd := by
  refine ⟨sampleArchive.length - size.eocd, ⟨⟨by decide +kernel, by decide +kernel, by decide +kernel⟩, ?_⟩, ?_⟩
  · obtain ⟨o, ho, hp⟩ := exists_ok (x := tryParseAt ⟨.vec, sampleArchive ++ strayEndRecord⟩
      (sampleArchive.length - size.eocd)) (p := Option.isSome) (by decide +kernel)
    obtain ⟨cd, rfl⟩ := Option.isSome_iff_exists.mp hp
    exact ⟨cd, ho⟩
  · intro cd h
    have hnone : (readCentralDir ⟨.vec, sampleArchive ++ strayEndRecord⟩).toOption.isNone := by
      decide +kernel
    rw [h] at hnone
    cases hnone

end Kzip.Impl
