import Kzip.Spec.Normalize

/-!
# Dates out of range

`normalizeYmd` ends within its rounds, with the one date that is meant (`normalizeYmd_unique`): a month and a
day that are not in range count on from the beginning of the year. Every round keeps the day number that is
meant (`Normalizing`) and brings the day nearer to the month (`excess`).
-/

namespace Kzip.Impl

open Lib Spec

/-! ## Months -/

theorem daysInMonth_february (y : Int) : daysInMonth y 2 = monthLength y 2 := by
  by_cases h : IsLeap y
  · have hlength : monthLength y 2 = 29 := if_pos h
    exact (if_pos h : daysInMonth y 2 = 29).trans (congrArg Nat.cast hlength).symm
  · have hlength : monthLength y 2 = 28 := if_neg h
    exact (if_neg h : daysInMonth y 2 = 28).trans (congrArg Nat.cast hlength).symm

theorem daysInMonth_eq (y : Int) {m : Int} (hlow : 1 ≤ m) (hhigh : m ≤ 12) :
    daysInMonth y m = monthLength y m.toNat := by
  obtain ⟨k, rfl⟩ := Int.eq_ofNat_of_zero_le (show 0 ≤ m by omega)
  rw [Int.toNat_natCast]
  by_cases hk : k = 2
  · rw [hk]
    exact daysInMonth_february y
  · rw [daysInMonth, monthLength, if_neg hk]
    split
    · rw [if_neg (by omega)]
      rfl
    · rw [if_pos (by omega), if_pos (by omega)]
      rfl

/-- The day number of the first of a month. -/
def monthStart (y m : Int) : Int := daysBeforeYear y + daysBeforeMonth y m.toNat

theorem monthStart_succ (y : Int) {m : Int} (hlow : 1 ≤ m) (hhigh : m < 12) :
    monthStart y (m + 1) = monthStart y m + daysInMonth y m := by
  rw [daysInMonth_eq y hlow (by omega), monthStart, monthStart, show (m + 1).toNat = m.toNat + 1 by omega,
    daysBeforeMonth_succ y (show 1 ≤ m.toNat by omega)]
  omega

theorem monthStart_year (y : Int) : monthStart (y + 1) 1 = monthStart y 12 + daysInMonth y 12 := by
  have hone : daysBeforeMonth (y + 1) 1 = 0 := Finset.sum_empty
  have hlast := daysBeforeMonth_succ y (show 1 ≤ 12 by decide)
  rw [daysBeforeMonth_thirteen] at hlast
  rw [daysInMonth_eq y (by decide) (by decide), monthStart, monthStart, show (1 : Int).toNat = 1 from rfl,
    show (12 : Int).toNat = 12 from rfl, hone, daysBeforeYear_succ, hlast]
  omega

/-- The month before and the month after, as the loop takes them. -/
def prevMonth (y m : Int) : Int × Int := if m - 1 < 1 then (y - 1, 12) else (y, m - 1)

def nextMonth (y m : Int) : Int × Int := if 12 < m + 1 then (y + 1, 1) else (y, m + 1)

theorem prevMonth_start (y : Int) {m : Int} (hlow : 1 ≤ m) (hhigh : m ≤ 12) :
    1 ≤ (prevMonth y m).2 ∧ (prevMonth y m).2 ≤ 12 ∧
      monthStart (prevMonth y m).1 (prevMonth y m).2 + daysInMonth (prevMonth y m).1 (prevMonth y m).2 =
        monthStart y m := by
  unfold prevMonth
  split
  · obtain rfl : m = 1 := by omega
    have hyear := monthStart_year (y - 1)
    rw [Int.sub_add_cancel] at hyear
    exact ⟨(by decide : (1 : Int) ≤ 12), le_rfl, hyear.symm⟩
  · have hsucc := monthStart_succ y (show 1 ≤ m - 1 by omega) (by omega)
    rw [Int.sub_add_cancel] at hsucc
    exact ⟨by omega, by omega, hsucc.symm⟩

theorem nextMonth_start (y : Int) {m : Int} (hlow : 1 ≤ m) (hhigh : m ≤ 12) :
    1 ≤ (nextMonth y m).2 ∧ (nextMonth y m).2 ≤ 12 ∧
      monthStart (nextMonth y m).1 (nextMonth y m).2 = monthStart y m + daysInMonth y m := by
  unfold nextMonth
  split
  · obtain rfl : m = 12 := by omega
    exact ⟨le_rfl, (by decide : (1 : Int) ≤ 12), monthStart_year y⟩
  · exact ⟨by omega, by omega, monthStart_succ y hlow (by omega)⟩

theorem daysInMonth_pos (y m : Int) : 28 ≤ daysInMonth y m := by
  unfold daysInMonth
  repeat' split
  all_goals decide

/-! ## The loop -/

theorem normalizeRound_eq (y m d : Int) :
    normalizeRound (y, m, d) =
      if d < 1 then
        .inl ((prevMonth y m).1, (prevMonth y m).2,
          d + daysInMonth (prevMonth y m).1 (prevMonth y m).2)
      else if daysInMonth y m < d then
        .inl ((nextMonth y m).1, (nextMonth y m).2, d - daysInMonth y m)
      else .inr (y, m, d) := rfl

/-- What the loop keeps: a month of a year, and the day that is meant. -/
def Normalizing (day : Int) (c : Int × Int × Int) : Prop :=
  1 ≤ c.2.1 ∧ c.2.1 ≤ 12 ∧ monthStart c.1 c.2.1 + c.2.2 = day

/-- The day is one of the month. -/
def Normalized (day : Int) (c : Int × Int × Int) : Prop :=
  Normalizing day c ∧ 1 ≤ c.2.2 ∧ c.2.2 ≤ daysInMonth c.1 c.2.1

/-- How far the day is from the month. -/
def excess (c : Int × Int × Int) : Nat :=
  if c.2.2 < 1 then (1 - c.2.2).toNat
  else if c.2.2 ≤ daysInMonth c.1 c.2.1 then 0
  else c.2.2.toNat

theorem excess_le (c : Int × Int × Int) : excess c ≤ c.2.2.natAbs + 1 := by
  unfold excess
  split
  · omega
  · split <;> omega

theorem normalizeRound_keeps {day : Int} {c c' : Int × Int × Int} (hc : Normalizing day c)
    (hround : normalizeRound c = .inl c') : Normalizing day c' ∧ excess c' < excess c := by
  obtain ⟨y, m, d⟩ := c
  obtain ⟨hlow, hhigh, hday⟩ := hc
  simp only at hlow hhigh hday
  rw [normalizeRound_eq] at hround
  by_cases hd : d < 1
  · obtain ⟨hlow', hhigh', hstart⟩ := prevMonth_start y hlow hhigh
    have hpos := daysInMonth_pos (prevMonth y m).1 (prevMonth y m).2
    rw [if_pos hd] at hround
    cases hround
    refine ⟨⟨hlow', hhigh', by simp only; omega⟩, ?_⟩
    simp only [excess, if_pos hd]
    split
    · omega
    · rw [if_pos (by omega)]
      omega
  · by_cases hdim : daysInMonth y m < d
    · obtain ⟨hlow', hhigh', hstart⟩ := nextMonth_start y hlow hhigh
      have hpos := daysInMonth_pos y m
      rw [if_neg hd, if_pos hdim] at hround
      cases hround
      refine ⟨⟨hlow', hhigh', by simp only; omega⟩, ?_⟩
      simp only [excess, if_neg hd, if_neg (not_le.mpr hdim)]
      rw [if_neg (by omega)]
      split <;> omega
    · rw [if_neg hd, if_neg hdim] at hround
      cases hround

theorem normalizeRound_leaves {day : Int} {c w : Int × Int × Int} (hc : Normalizing day c)
    (hround : normalizeRound c = .inr w) : Normalized day w := by
  obtain ⟨y, m, d⟩ := c
  rw [normalizeRound_eq] at hround
  by_cases hd : d < 1
  · rw [if_pos hd] at hround
    cases hround
  · by_cases hdim : daysInMonth y m < d
    · rw [if_neg hd, if_pos hdim] at hround
      cases hround
    · rw [if_neg hd, if_neg hdim] at hround
      cases hround
      exact ⟨hc, not_lt.mp hd, not_lt.mp hdim⟩

theorem carryMonth_normalizing (y m d : Int) :
    Normalizing (monthStart (carryMonth y m d).1 (carryMonth y m d).2.1 + d) (carryMonth y m d) :=
  ⟨by simp only [carryMonth]; omega, by simp only [carryMonth]; omega, rfl⟩

/-- The loop ends within the rounds it is given. -/
theorem normalizeYmd_leaves (y m d : Int) :
    ∃ n, Leaves normalizeRound (carryMonth y m d) n (normalizeYmd y m d) ∧
      Normalized (monthStart (carryMonth y m d).1 (carryMonth y m d).2.1 + d) (normalizeYmd y m d) := by
  obtain ⟨n, w, hn, hleaves, hw⟩ := exists_leaves (fun _ _ => normalizeRound_keeps)
    (fun _ _ => normalizeRound_leaves) (carryMonth_normalizing y m d)
  have hexcess : excess (carryMonth y m d) ≤ d.natAbs + 1 := excess_le _
  have heq : normalizeYmd y m d = w := by
    rw [normalizeYmd, runLoop_of_leaves hleaves (hn.trans hexcess)]
    rfl
  exact ⟨n, heq ▸ hleaves, heq ▸ hw⟩

/-! ## The date -/

theorem dayNumber_firstOfMonth (y m d : Int) :
    (firstOfMonth y m).dayNumber = monthStart (carryMonth y m d).1 (carryMonth y m d).2.1 := by
  simp only [Date.dayNumber, firstOfMonth, monthStart, carryMonth]
  omega

/-- The date of which the loop leaves the fields. -/
theorem Normalized.exists_date {day : Int} {c : Int × Int × Int} (hc : Normalized day c) :
    ∃ date : Date, dateFields date = c ∧ date.Valid ∧ date.dayNumber = day - 1 := by
  obtain ⟨y, m, d⟩ := c
  obtain ⟨⟨hlow, hhigh, hday⟩, hpos, hle⟩ := hc
  simp only at hlow hhigh hday hpos hle
  rw [daysInMonth_eq y hlow hhigh] at hle
  refine ⟨{ year := y, month := m.toNat, day := d.toNat }, ?_, ?_, ?_⟩
  · simp only [dateFields, Prod.mk.injEq, true_and]
    omega
  · exact ⟨by simp only; omega, by simp only; omega, by simp only; omega, by simp only; omega⟩
  · simp only [Date.dayNumber]
    rw [monthStart] at hday
    omega

/-- Whatever the month and the day, the loop ends, and what it leaves is the one date that is meant. -/
theorem normalizeYmd_unique (y m d : Int) :
    (∃ n, Leaves normalizeRound (carryMonth y m d) n (normalizeYmd y m d)) ∧
      ∃ date, dateFields date = normalizeYmd y m d ∧ IsMeant y m d date ∧
        ∀ date', IsMeant y m d date' → date' = date := by
  obtain ⟨n, hleaves, hnormalized⟩ := normalizeYmd_leaves y m d
  obtain ⟨date, hfields, hvalid, hday⟩ := hnormalized.exists_date
  have hmeant : IsMeant y m d date := ⟨hvalid, by rw [hday, dayNumber_firstOfMonth y m d]; omega⟩
  refine ⟨⟨n, hleaves⟩, date, hfields, hmeant, fun date' hdate' => ?_⟩
  exact Date.dayNumber_inj hdate'.valid hvalid (hdate'.dayNumber.trans hmeant.dayNumber.symm)

end Kzip.Impl
