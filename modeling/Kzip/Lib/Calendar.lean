import Mathlib.Algebra.BigOperators.Intervals
import Mathlib.Algebra.Order.BigOperators.Group.Finset
import Mathlib.Algebra.Order.Group.Nat
import Mathlib.Algebra.Order.Group.Int

/-!
# The Gregorian calendar

Dates of the proleptic calendar, counted in days from the first of January of the year 1. The count
orders the valid dates as their fields do (`dayNumber_lt_iff`), so it tells them apart
(`dayNumber_inj`), and `Date.next` leads from each to the one after it.
-/

namespace Lib

def IsLeap (y : Int) : Prop := y % 4 = 0 ∧ y % 100 ≠ 0 ∨ y % 400 = 0

instance (y : Int) : Decidable (IsLeap y) := inferInstanceAs (Decidable (_ ∨ _))

def monthLength (y : Int) (m : Nat) : Nat :=
  if m = 2 then if IsLeap y then 29 else 28
  else if m = 4 ∨ m = 6 ∨ m = 9 ∨ m = 11 then 30
  else 31

def yearLength (y : Int) : Nat := if IsLeap y then 366 else 365

/-- The days of the months before a month. -/
def daysBeforeMonth (y : Int) (m : Nat) : Nat := ∑ k ∈ Finset.Ico 1 m, monthLength y k

/-- The days from the beginning of the year 1 to that of a year. -/
def daysBeforeYear (y : Int) : Int := 365 * (y - 1) + (y - 1) / 4 - (y - 1) / 100 + (y - 1) / 400

structure Date where
  year : Int
  month : Nat
  day : Nat
  deriving DecidableEq, Repr

namespace Date

structure Valid (d : Date) : Prop where
  month_pos : 1 ≤ d.month
  month_le : d.month ≤ 12
  day_pos : 1 ≤ d.day
  day_le : d.day ≤ monthLength d.year d.month

/-- The days from the first of January of the year 1. -/
def dayNumber (d : Date) : Int := daysBeforeYear d.year + daysBeforeMonth d.year d.month + d.day - 1

def Before (d d' : Date) : Prop :=
  d.year < d'.year ∨
    d.year = d'.year ∧ (d.month < d'.month ∨ d.month = d'.month ∧ d.day < d'.day)

/-- The day after. -/
def next (d : Date) : Date :=
  if d.day < monthLength d.year d.month then { d with day := d.day + 1 }
  else if d.month < 12 then { d with month := d.month + 1, day := 1 }
  else { year := d.year + 1, month := 1, day := 1 }

end Date

/-! ## Months and years -/

theorem monthLength_le (y : Int) (m : Nat) : monthLength y m ≤ 31 := by
  unfold monthLength
  split
  · split <;> decide
  · split <;> decide

theorem monthLength_pos (y : Int) (m : Nat) : 0 < monthLength y m := by
  unfold monthLength
  split
  · split <;> decide
  · split <;> decide

theorem daysBeforeMonth_succ (y : Int) {m : Nat} (hm : 1 ≤ m) :
    daysBeforeMonth y (m + 1) = daysBeforeMonth y m + monthLength y m :=
  Finset.sum_Ico_succ_top hm _

theorem daysBeforeMonth_mono (y : Int) {m m' : Nat} (h : m ≤ m') :
    daysBeforeMonth y m ≤ daysBeforeMonth y m' :=
  Finset.sum_le_sum_of_subset (Finset.Ico_subset_Ico_right h)

theorem daysBeforeMonth_thirteen (y : Int) : daysBeforeMonth y 13 = yearLength y := by
  rw [daysBeforeMonth, yearLength]
  by_cases h : IsLeap y <;> simp [Finset.sum_Ico_succ_top, monthLength, h]

theorem daysBeforeYear_succ (y : Int) : daysBeforeYear (y + 1) = daysBeforeYear y + yearLength y := by
  by_cases h : IsLeap y
  · rw [yearLength, if_pos h]
    unfold IsLeap at h
    unfold daysBeforeYear
    omega
  · rw [yearLength, if_neg h]
    unfold IsLeap at h
    unfold daysBeforeYear
    omega

theorem daysBeforeYear_mono {y y' : Int} (h : y ≤ y') : daysBeforeYear y ≤ daysBeforeYear y' := by
  unfold daysBeforeYear
  omega

namespace Date

variable {d d' : Date}

/-! ## The order of dates -/

theorem Valid.month_end (hd : d.Valid) :
    daysBeforeMonth d.year d.month + d.day ≤ daysBeforeMonth d.year (d.month + 1) := by
  rw [daysBeforeMonth_succ _ hd.month_pos]
  exact Nat.add_le_add_left hd.day_le _

theorem Valid.year_end (hd : d.Valid) : d.dayNumber < daysBeforeYear (d.year + 1) := by
  have hmonth := hd.month_end
  have hyear := daysBeforeMonth_mono d.year (Nat.add_le_add_right hd.month_le 1)
  rw [daysBeforeMonth_thirteen] at hyear
  rw [dayNumber, daysBeforeYear_succ]
  omega

theorem Valid.year_begin (hd : d.Valid) : daysBeforeYear d.year ≤ d.dayNumber := by
  have := hd.day_pos
  rw [dayNumber]
  omega

theorem Before.dayNumber_lt (h : d.Before d') (hd : d.Valid) (hd' : d'.Valid) :
    d.dayNumber < d'.dayNumber := by
  rcases h with hyear | ⟨hyear, hmonth | ⟨hmonth, hday⟩⟩
  · calc d.dayNumber < daysBeforeYear (d.year + 1) := hd.year_end
      _ ≤ daysBeforeYear d'.year := daysBeforeYear_mono hyear
      _ ≤ d'.dayNumber := hd'.year_begin
  · have hend := hd.month_end
    have hmono := daysBeforeMonth_mono d.year (show d.month + 1 ≤ d'.month from hmonth)
    have hpos := hd'.day_pos
    rw [dayNumber, dayNumber, ← hyear]
    omega
  · rw [dayNumber, dayNumber, ← hyear, ← hmonth]
    omega

theorem before_or_eq_or_after (d d' : Date) : d.Before d' ∨ d = d' ∨ d'.Before d := by
  obtain ⟨y, m, a⟩ := d
  obtain ⟨y', m', a'⟩ := d'
  simp only [Before, mk.injEq]
  omega

theorem dayNumber_inj (hd : d.Valid) (hd' : d'.Valid) (h : d.dayNumber = d'.dayNumber) : d = d' := by
  rcases before_or_eq_or_after d d' with hlt | heq | hlt
  · exact absurd h (hlt.dayNumber_lt hd hd').ne
  · exact heq
  · exact absurd h (hlt.dayNumber_lt hd' hd).ne'

theorem dayNumber_lt_iff (hd : d.Valid) (hd' : d'.Valid) : d.dayNumber < d'.dayNumber ↔ d.Before d' := by
  refine ⟨fun h => ?_, fun h => h.dayNumber_lt hd hd'⟩
  rcases before_or_eq_or_after d d' with hlt | rfl | hlt
  · exact hlt
  · exact absurd h (lt_irrefl _)
  · exact absurd h (hlt.dayNumber_lt hd' hd).asymm

theorem dayNumber_last (y : Int) :
    dayNumber { year := y, month := 12, day := 31 } = daysBeforeYear (y + 1) - 1 := by
  have hsucc := daysBeforeMonth_succ y (show 1 ≤ 12 by decide)
  rw [daysBeforeMonth_thirteen, show monthLength y 12 = 31 from rfl] at hsucc
  simp only [dayNumber, daysBeforeYear_succ, hsucc]
  omega

theorem valid_last (y : Int) : Valid { year := y, month := 12, day := 31 } :=
  ⟨(by decide : 1 ≤ 12), (by decide : 12 ≤ 12), (by decide : 1 ≤ 31), le_rfl⟩

/-! ## The next day -/

theorem Valid.next (hd : d.Valid) : d.next.Valid := by
  unfold Date.next
  split
  · rename_i hday
    exact ⟨hd.month_pos, hd.month_le, Nat.le_add_left 1 _, hday⟩
  · split
    · rename_i hmonth
      exact ⟨Nat.le_add_left 1 _, hmonth, le_rfl, monthLength_pos _ _⟩
    · exact ⟨le_rfl, (by decide : 1 ≤ 12), le_rfl, monthLength_pos _ _⟩

theorem dayNumber_next (hd : d.Valid) : d.next.dayNumber = d.dayNumber + 1 := by
  have hday := hd.day_le
  unfold Date.next
  split
  · simp only [dayNumber]
    omega
  · rename_i hlast
    have hsucc := daysBeforeMonth_succ d.year hd.month_pos
    split
    · simp only [dayNumber, hsucc]
      omega
    · have htwelve : d.month = 12 := by
        have := hd.month_le
        omega
      have hone : daysBeforeMonth (d.year + 1) 1 = 0 := Finset.sum_empty
      rw [htwelve] at hsucc hday hlast
      rw [daysBeforeMonth_thirteen] at hsucc
      simp only [dayNumber, daysBeforeYear_succ, hone, htwelve, hsucc]
      omega

theorem Valid.iterate_next (hd : d.Valid) (n : Nat) : (Date.next^[n] d).Valid := by
  induction n with
  | zero => exact hd
  | succ n ih =>
    rw [Function.iterate_succ_apply']
    exact ih.next

theorem dayNumber_iterate_next (hd : d.Valid) (n : Nat) :
    (Date.next^[n] d).dayNumber = d.dayNumber + n := by
  induction n with
  | zero => exact (Int.add_zero _).symm
  | succ n ih =>
    rw [Function.iterate_succ_apply', dayNumber_next (hd.iterate_next n), ih]
    omega

end Date

end Lib
