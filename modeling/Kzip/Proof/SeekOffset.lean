import Kzip.Impl.Reference
import Kzip.Spec.SeekOffset

/-!
# Where a seek leads

The sum of a base and a distance in 64 bits is the exact one up to a multiple of `2 ^ 64`
(`addI64_bmod`), so the target is the exact one unless the sum comes around; and the call fails as it
should unless the sum overflows (`seeksExactly_iff`).
-/

namespace Kzip.Impl

open Lib Kzip.Spec

variable {X : Extern}

/-- The sum panics when it overflows and that is checked; else it is exact up to `2 ^ 64`. -/
theorem addI64_bmod {base : Nat} (hbase : base < 2 ^ 64) (delta : Int64) :
    addI64 X (asI64 base) delta.toInt =
      if X.overflowChecks ∧ SumOverflows base delta.toInt then .error .panic
      else .ok ((base + delta.toInt).bmod (2 ^ 64)) := by
  have hlow := delta.le_toInt
  have hhigh := delta.toInt_lt
  have hsum : (asI64 base + delta.toInt).bmod (2 ^ 64) = (base + delta.toInt).bmod (2 ^ 64) :=
    Int.bmod_add_bmod
  have hsigned : asI64 base = if (base : Int) < 2 ^ 63 then (base : Int) else base - 2 ^ 64 :=
    bmod_of_lt (by omega) (by omega)
  have hfits : (-2 ^ 63 ≤ asI64 base + delta.toInt ∧ asI64 base + delta.toInt < 2 ^ 63) ↔
      ¬ SumOverflows base delta.toInt := by
    rw [hsigned, SumOverflows]
    split <;> omega
  rw [addI64]
  by_cases hover : SumOverflows base delta.toInt
  · rw [if_neg fun h => hfits.mp h hover, hsum]
    simp only [hover, and_true]
  · obtain ⟨hge, hlt⟩ := hfits.mpr hover
    rw [if_pos ⟨hge, hlt⟩, if_neg fun h => hover h.2, ← hsum, Int.bmod_eq_of_le (by omega) (by omega)]

section
variable {offset length : UInt64} {data : Option SeekArgs} {dataLength : UInt64} {errorp : Option Int32}
  {args : SeekArgs}

theorem map_invalid_eq : errorp = errorp.map (fun _ => zipErInval) ↔
    errorp = none ∨ errorp = some zipErInval := by
  cases errorp with
  | none => simp
  | some e => simp

/-- A seek relative to a base. -/
theorem seeksExactly_base {base : Nat} (hargs : sourceArgsSeek data dataLength = some args)
    (hbase : base < 2 ^ 64)
    (hsum : seekTarget X args.whence args.offset offset length.toNat =
      (addI64 X (asI64 base) args.offset.toInt).map some)
    (hexact : target args.whence args.offset offset.toNat length.toNat =
      some (base + args.offset.toInt)) :
    SeeksExactly X offset length data dataLength errorp ↔
      ¬ SumComesAround length base args.offset.toInt ∧
        (X.overflowChecks = true → SumOverflows base args.offset.toInt →
          FailsUnseen length base args.offset.toInt errorp) := by
  have hlow := args.offset.le_toInt
  have hhigh := args.offset.toInt_lt
  have hlength := length.toNat_lt
  rw [SeeksExactly, sourceSeekComputeOffset, exactSeek, hargs, Option.bind_some]
  dsimp only
  rw [hsum, hexact, addI64_bmod hbase]
  generalize args.offset.toInt = delta at hlow hhigh ⊢
  obtain ⟨t, ht⟩ : ∃ t, (base + delta : Int) = t := ⟨_, rfl⟩
  simp only [SumComesAround, FailsUnseen, ht]
  by_cases hpanic : X.overflowChecks = true ∧ SumOverflows base delta
  · -- the call fails without a reason
    have hover := hpanic.2
    rw [SumOverflows, ht] at hover
    rw [if_pos hpanic]
    have hpast : ¬ (2 ^ 64 ≤ t ∧ t ≤ 2 ^ 64 + length.toNat) := by omega
    by_cases hin : 0 ≤ t ∧ t ≤ length.toNat ∧ t < 2 ^ 63
    · refine iff_of_false (fun h => ?_) fun h => (h.2 hpanic.1 hpanic.2).1 hin
      rw [Option.filter_some, if_pos (decide_eq_true hin)] at h
      have hreturned : (-1 : Int) = t := congrArg Prod.fst h
      omega
    · rw [Option.filter_some, if_neg (by simpa using hin)]
      show ((-1 : Int), errorp) = (-1, errorp.map fun _ => zipErInval) ↔ _
      rw [Prod.mk.injEq, and_iff_right rfl, map_invalid_eq]
      exact ⟨fun h => ⟨hpast, fun _ _ => ⟨hin, h⟩⟩, fun h => (h.2 hpanic.1 hpanic.2).2⟩
  · rw [if_neg hpanic, bmod_of_lt (by omega) (by omega)]
    have hseen : X.overflowChecks = true → SumOverflows base delta →
        ¬ (0 ≤ t ∧ t ≤ length.toNat ∧ t < 2 ^ 63) ∧ (errorp = none ∨ errorp = some zipErInval) :=
      fun h h' => absurd ⟨h, h'⟩ hpanic
    rw [and_iff_left hseen, Option.filter_some]
    show (if _ < 0 ∨ _ > length.toNat then ((-1 : Int), errorp.map fun _ => zipErInval) else (_, errorp)) =
      _ ↔ _
    by_cases hsmall : t < 2 ^ 63
    · refine iff_of_true ?_ (by omega)
      rw [if_pos hsmall]
      by_cases hin : 0 ≤ t ∧ t ≤ length.toNat
      · rw [if_neg (by omega), if_pos (decide_eq_true ⟨hin.1, hin.2, hsmall⟩)]
      · rw [if_pos (by omega), if_neg (by simpa using fun h h' => absurd ⟨h, h'⟩ hin)]
    · rw [if_neg hsmall, if_neg (show ¬ decide (0 ≤ t ∧ t ≤ length.toNat ∧ t < 2 ^ 63) = true from
        fun h => hsmall (of_decide_eq_true h).2.2)]
      by_cases haround : 2 ^ 64 ≤ t ∧ t ≤ 2 ^ 64 + length.toNat
      · refine iff_of_false (fun h => ?_) fun h => h haround
        rw [if_neg (by omega)] at h
        have hreturned : t - 2 ^ 64 = -1 := congrArg Prod.fst h
        omega
      · exact iff_of_true (if_pos (by omega)) haround

/-- A seek that is not relative to anything makes no sum. -/
theorem seeksExactly_noBase (hargs : sourceArgsSeek data dataLength = some args)
    (hbase : seekBase args offset length = none) : SeeksExactly X offset length data dataLength errorp := by
  have hlow := args.offset.le_toInt
  have hhigh := args.offset.toInt_lt
  have hcur : ¬ args.whence = seekCur := fun h => by
    rw [seekBase, if_pos h] at hbase
    cases hbase
  have hend : ¬ args.whence = seekEnd := fun h => by
    rw [seekBase, if_neg hcur, if_pos h] at hbase
    cases hbase
  rw [SeeksExactly, sourceSeekComputeOffset, exactSeek, hargs, Option.bind_some]
  dsimp only
  by_cases hset : args.whence = seekSet
  · rw [seekTarget, target, if_pos hset, if_pos hset, Option.filter_some]
    dsimp only
    by_cases hin : 0 ≤ args.offset.toInt ∧ args.offset.toInt ≤ length.toNat
    · rw [if_neg (by omega), if_pos (decide_eq_true ⟨hin.1, hin.2, hhigh⟩)]
    · rw [if_pos (by omega), if_neg (by simpa using fun h h' => absurd ⟨h, h'⟩ hin)]
  · rw [seekTarget, target, if_neg hset, if_neg hcur, if_neg hend, if_neg hset, if_neg hcur, if_neg hend]
    rfl

/-- The base of a relative seek, and the sum that is made with it. -/
theorem seekTarget_base {base : Nat} (h : seekBase args offset length = some base) :
    base < 2 ^ 64 ∧
      seekTarget X args.whence args.offset offset length.toNat =
        (addI64 X (asI64 base) args.offset.toInt).map some ∧
      target args.whence args.offset offset.toNat length.toNat = some (base + args.offset.toInt) := by
  by_cases hcur : args.whence = seekCur
  · have hset : args.whence ≠ seekSet := by rw [hcur]; decide
    rw [seekBase, if_pos hcur] at h
    cases h
    exact ⟨offset.toNat_lt, by rw [seekTarget, if_neg hset, if_pos hcur],
      by rw [target, if_neg hset, if_pos hcur]⟩
  by_cases hend : args.whence = seekEnd
  · have hset : args.whence ≠ seekSet := by rw [hend]; decide
    rw [seekBase, if_neg hcur, if_pos hend] at h
    cases h
    exact ⟨length.toNat_lt, by rw [seekTarget, if_neg hset, if_neg hcur, if_pos hend],
      by rw [target, if_neg hset, if_neg hcur, if_pos hend]⟩
  · rw [seekBase, if_neg hcur, if_neg hend] at h
    cases h

/-- A call returns the exact target, and fails for the right reason, unless the sum comes around into the
data, or it overflows and that is checked and noticed. -/
theorem seeksExactly_iff (X : Extern) (offset length : UInt64) (data : Option SeekArgs)
    (dataLength : UInt64) (errorp : Option Int32) :
    SeeksExactly X offset length data dataLength errorp ↔
      ∀ args base, sourceArgsSeek data dataLength = some args →
        seekBase args offset length = some base →
        ¬ SumComesAround length base args.offset.toInt ∧
          (X.overflowChecks = true → SumOverflows base args.offset.toInt →
            FailsUnseen length base args.offset.toInt errorp) := by
  cases hargs : sourceArgsSeek data dataLength with
  | none =>
    refine iff_of_true ?_ fun _ _ h => by cases h
    rw [SeeksExactly, sourceSeekComputeOffset, exactSeek, hargs]
    rfl
  | some args =>
    cases hbase : seekBase args offset length with
    | none =>
      refine iff_of_true (seeksExactly_noBase hargs hbase) fun args' base' ha hb => ?_
      cases ha
      cases hbase.symm.trans hb
    | some base =>
      obtain ⟨hlt, hsum, hexact⟩ := seekTarget_base (X := X) hbase
      rw [seeksExactly_base hargs hlt hsum hexact]
      refine ⟨fun hone args' base' ha hb => ?_, fun hall => hall args base rfl hbase⟩
      cases ha
      cases hbase.symm.trans hb
      exact hone

end

/-- One byte on from the last offset there is comes around to the start of the data, where the exact
target is beyond the end. -/
theorem seek_comes_around :
    sourceSeekComputeOffset reference 0xFFFFFFFFFFFFFFFF 5 (some { offset := 1, whence := seekCur }) 16
      (some 0) = (0, some 0) ∧
    ¬ SeeksExactly reference 0xFFFFFFFFFFFFFFFF 5 (some { offset := 1, whence := seekCur }) 16
      (some 0) := by
  unfold SeeksExactly
  decide

end Kzip.Impl
