import Kzip.Impl.Reference
import Kzip.Proof.Normalize
import Kzip.Spec.Time

/-!
# DOS time and date

`dosTime_iff`: up to which timestamp the words of `unixToDos` are in the order of the timestamps, and when
`dosToUnix` gives back the even second before a timestamp. The words are the fields of the local time in a
mixed radix (`dateKey`, `timeKey`), so they are ordered as the seconds are until the year leaves its seven
bits; the last two seconds of 2107 have the last of all words.
-/

namespace Kzip.Impl

open Kzip.Spec Lib

/-! ## Packed fields -/

theorem toNat_shiftLeft_or (x y : UInt16) {s : UInt16} (hs : s.toNat < 16) (hy : y.toNat < 2 ^ s.toNat) :
    (x <<< s ||| y).toNat = x.toNat * 2 ^ s.toNat % 2 ^ 16 + y.toNat := by
  have hpow : 2 ^ 16 = 2 ^ s.toNat * 2 ^ (16 - s.toNat) := by
    rw [← Nat.pow_add]
    congr 1
    omega
  rw [UInt16.toNat_or, UInt16.toNat_shiftLeft, Nat.mod_eq_of_lt hs, Nat.shiftLeft_eq, Nat.mul_comm, hpow,
    Nat.mul_mod_mul_left, ← Nat.two_pow_add_eq_or_of_lt hy]

theorem toNat_field (w : UInt16) {s mask : UInt16} {j : Nat} (hs : s.toNat < 16)
    (hmask : mask.toNat = 2 ^ j - 1) :
    ((w >>> s) &&& mask).toNat = w.toNat / 2 ^ s.toNat % 2 ^ j := by
  rw [UInt16.toNat_and, UInt16.toNat_shiftRight, Nat.mod_eq_of_lt hs, hmask, Nat.and_two_pow_sub_one_eq_mod,
    Nat.shiftRight_eq_div_pow]

theorem toNat_low (w : UInt16) : (w &&& 0x1F).toNat = w.toNat % 32 := by
  rw [UInt16.toNat_and]
  exact Nat.and_two_pow_sub_one_eq_mod _ 5

/-- Three fields in a word. The first loses the bits that do not fit. -/
theorem toNat_packed (a b : Nat) (c : UInt16) {s t : UInt16} (hs : s.toNat < 16) (ht : t.toNat < 16)
    (hb : b * 2 ^ t.toNat + c.toNat < 2 ^ s.toNat) (hc : c.toNat < 2 ^ t.toNat) :
    (UInt16.ofNat a <<< s ||| UInt16.ofNat b <<< t ||| c).toNat =
      a * 2 ^ s.toNat % 2 ^ 16 + b * 2 ^ t.toNat + c.toNat := by
  have hpow : 2 ^ s.toNat < 2 ^ 16 := Nat.pow_lt_pow_right (by decide) hs
  have hble : b ≤ b * 2 ^ t.toNat := Nat.le_mul_of_pos_right b (Nat.two_pow_pos _)
  have hlow : (UInt16.ofNat b <<< t ||| c).toNat = b * 2 ^ t.toNat + c.toNat := by
    rw [toNat_shiftLeft_or _ _ ht hc, UInt16.toNat_ofNat_of_lt' (show b < 2 ^ 16 by omega),
      Nat.mod_eq_of_lt (by omega)]
  rw [UInt16.or_assoc, toNat_shiftLeft_or _ _ hs (by omega), hlow, UInt16.toNat_ofNat', Nat.mod_mul_mod,
    Nat.add_assoc]

/-- The date and the time of day, as the DOS words hold them, but for the range of the years. -/
def dateKey (n : NaiveDateTime) : Int := n.year * 512 + n.month * 32 + n.day

def timeKey (n : NaiveDateTime) : Nat := n.hour * 2048 + n.minute * 32 + n.second / 2

theorem date_bounds {n : NaiveDateTime} (h : IsDateTime n) :
    1 ≤ n.month ∧ n.month ≤ 12 ∧ 1 ≤ n.day ∧ n.day ≤ 31 :=
  ⟨h.date.month_pos, h.date.month_le, h.date.day_pos, h.date.day_le.trans (monthLength_le _ _)⟩

theorem toNat_dosTime {X : Extern} {ut : Nat} {n : NaiveDateTime} (hut : X.naiveLocal ut = n)
    (hn : IsDateTime n) : (unixToDos X ut).1.toNat = timeKey n := by
  obtain ⟨-, hhour, hminute, hsecond⟩ := hn
  have hhalf : (UInt16.ofNat n.second >>> 1).toNat = n.second / 2 := by
    rw [UInt16.toNat_shiftRight, UInt16.toNat_ofNat_of_lt' (show _ < 2 ^ 16 by omega)]
    exact Nat.shiftRight_eq_div_pow _ 1
  have hpacked := toNat_packed n.hour n.minute (UInt16.ofNat n.second >>> 1) (s := 11) (t := 5)
    (by decide) (by decide)
  rw [hhalf] at hpacked
  replace hpacked : _ = n.hour * 2048 % 65536 + n.minute * 32 + n.second / 2 :=
    hpacked (show n.minute * 2 ^ 5 + n.second / 2 < 2 ^ 11 by omega) (show n.second / 2 < 2 ^ 5 by omega)
  simp only [unixToDos, hut]
  rw [hpacked, timeKey]
  omega

theorem toNat_dosDate {X : Extern} {ut : Nat} {n : NaiveDateTime} (hut : X.naiveLocal ut = n)
    (hn : IsDateTime n) :
    (unixToDos X ut).2.toNat = (max n.year 1980 - 1980) % 128 * 512 + n.month * 32 + n.day := by
  obtain ⟨-, hmonth, -, hday⟩ := date_bounds hn
  have hd : (UInt16.ofNat n.day).toNat = n.day := UInt16.toNat_ofNat_of_lt' (show _ < 2 ^ 16 by omega)
  have hpacked := toNat_packed ((if n.year < 1980 then 1980 else n.year) - 1980).toNat n.month
    (UInt16.ofNat n.day) (s := 9) (t := 5) (by decide) (by decide)
  rw [hd] at hpacked
  replace hpacked : _ = ((if n.year < 1980 then 1980 else n.year) - 1980).toNat * 512 % 65536 +
      n.month * 32 + n.day :=
    hpacked (show n.month * 2 ^ 5 + n.day < 2 ^ 9 by omega) (show n.day < 2 ^ 5 by omega)
  simp only [unixToDos, hut]
  rw [hpacked]
  omega

/-- Within the range of the format, the words are the keys. -/
theorem toNat_dosDate_of_mem {X : Extern} {ut : Nat} {n : NaiveDateTime} (hut : X.naiveLocal ut = n)
    (hn : IsDateTime n) (hlow : 1980 ≤ n.year) (hhigh : n.year ≤ 2107) :
    (unixToDos X ut).2.toNat = dateKey n - 1980 * 512 := by
  rw [toNat_dosDate hut hn, dateKey]
  omega

/-! ## Order -/

theorem year_lt_iff {n : NaiveDateTime} (hn : IsDateTime n) (y : Int) : n.year < y ↔ seconds n < startOfYear y := by
  have hbegin : daysBeforeYear n.year ≤ _ := hn.date.year_begin
  have hend : _ < daysBeforeYear (n.year + 1) := hn.date.year_end
  have hhour := hn.hour
  have hminute := hn.minute
  have hsecond := hn.second
  rw [seconds, startOfYear]
  refine ⟨fun h => ?_, fun h => ?_⟩
  · have := daysBeforeYear_mono (show n.year + 1 ≤ y by omega)
    omega
  · by_contra hy
    have := daysBeforeYear_mono (show y ≤ n.year by omega)
    omega

theorem day_le_of_seconds_le {n n' : NaiveDateTime} (hn : IsDateTime n) (hn' : IsDateTime n')
    (h : seconds n ≤ seconds n') :
    (dateOf n).dayNumber < (dateOf n').dayNumber ∨
      dateOf n = dateOf n' ∧
        3600 * n.hour + 60 * n.minute + n.second ≤ 3600 * n'.hour + 60 * n'.minute + n'.second := by
  have hhour := hn'.hour
  have hminute := hn'.minute
  have hsecond := hn'.second
  simp only [seconds] at h
  rcases lt_trichotomy (dateOf n).dayNumber (dateOf n').dayNumber with hlt | heq | hlt
  · exact .inl hlt
  · refine .inr ⟨Date.dayNumber_inj hn.date hn'.date heq, ?_⟩
    omega
  · omega

/-- Later seconds have later keys. -/
theorem key_le_of_seconds_le {n n' : NaiveDateTime} (hn : IsDateTime n) (hn' : IsDateTime n')
    (h : seconds n ≤ seconds n') :
    dateKey n < dateKey n' ∨ dateKey n = dateKey n' ∧ timeKey n ≤ timeKey n' := by
  have hbounds := date_bounds hn
  have hbounds' := date_bounds hn'
  simp only [dateKey, timeKey]
  rcases day_le_of_seconds_le hn hn' h with hlt | ⟨heq, htime⟩
  · have hbefore := (Date.dayNumber_lt_iff hn.date hn'.date).mp hlt
    simp only [Date.Before, dateOf] at hbefore
    omega
  · simp only [dateOf, Date.mk.injEq] at heq
    have hminute := hn.minute
    have hsecond := hn.second
    have hminute' := hn'.minute
    have hsecond' := hn'.second
    omega

/-! ## The end of the range -/

theorem dosLe_iff {p q : UInt16 × UInt16} :
    DosLe p q ↔ p.2.toNat < q.2.toNat ∨ p.2.toNat = q.2.toNat ∧ p.1.toNat ≤ q.1.toNat := by
  rw [DosLe, UInt16.lt_iff_toNat_lt, ← UInt16.toNat_inj, UInt16.le_iff_toNat_le]

/-- The last two seconds of a year. -/
theorem last_of_year_iff {n : NaiveDateTime} (hn : IsDateTime n) (y : Int) :
    startOfYear (y + 1) - 2 ≤ seconds n ∧ seconds n < startOfYear (y + 1) ↔
      n.year = y ∧ n.month = 12 ∧ n.day = 31 ∧ n.hour = 23 ∧ n.minute = 59 ∧ 58 ≤ n.second := by
  have hlast := Date.dayNumber_last y
  have hhour := hn.hour
  have hminute := hn.minute
  have hsecond := hn.second
  constructor
  · rintro ⟨hlow, hhigh⟩
    have hyear := (year_lt_iff hn (y + 1)).mpr hhigh
    have hend : _ < daysBeforeYear (n.year + 1) := hn.date.year_end
    have hmono := daysBeforeYear_mono (show n.year + 1 ≤ y + 1 by omega)
    simp only [seconds, startOfYear] at hlow hhigh
    have hday : (dateOf n).dayNumber = daysBeforeYear (y + 1) - 1 := by omega
    have hdate := Date.dayNumber_inj hn.date (Date.valid_last y) (hday.trans hlast.symm)
    simp only [dateOf, Date.mk.injEq] at hdate
    rw [hday] at hlow
    omega
  · rintro ⟨hyear, hmonth, hday, hh, hm, hs⟩
    have hdate : dateOf n = { year := y, month := 12, day := 31 } := by
      rw [dateOf, hyear, hmonth, hday]
    rw [seconds, startOfYear, hdate, hlast]
    omega

/-- The words, and the bounds of the fields in them. -/
theorem words_eq {X : Extern} {ut : Nat} {n : NaiveDateTime} (hut : X.naiveLocal ut = n)
    (hn : IsDateTime n) :
    ((unixToDos X ut).2.toNat = (max n.year 1980 - 1980) % 128 * 512 + n.month * 32 + n.day ∧
      1 ≤ n.month ∧ n.month ≤ 12 ∧ 1 ≤ n.day ∧ n.day ≤ 31) ∧
    (unixToDos X ut).1.toNat = n.hour * 2048 + n.minute * 32 + n.second / 2 ∧
      n.hour < 24 ∧ n.minute < 60 ∧ n.second < 60 :=
  ⟨⟨toNat_dosDate hut hn, date_bounds hn⟩, toNat_dosTime hut hn, hn.hour, hn.minute, hn.second⟩

/-- No words are later than those of the last two seconds of 2107. -/
theorem words_le {X : Extern} {ut : Nat} {n : NaiveDateTime} (hut : X.naiveLocal ut = n)
    (hn : IsDateTime n) :
    (unixToDos X ut).2.toNat ≤ 127 * 512 + 12 * 32 + 31 ∧
      (unixToDos X ut).1.toNat ≤ 23 * 2048 + 59 * 32 + 29 := by
  have hwords := words_eq hut hn
  omega

theorem words_last_iff {X : Extern} {ut : Nat} {n : NaiveDateTime} (hut : X.naiveLocal ut = n)
    (hn : IsDateTime n) :
    127 * 512 + 12 * 32 + 31 ≤ (unixToDos X ut).2.toNat ∧
        23 * 2048 + 59 * 32 + 29 ≤ (unixToDos X ut).1.toNat ↔
      LastOfCycle (seconds n) := by
  have hwords := words_eq hut hn
  constructor
  · rintro ⟨hd, ht⟩
    obtain ⟨k, hk⟩ : ∃ k : Nat, n.year = 2107 + 128 * k := ⟨((n.year - 2107) / 128).toNat, by omega⟩
    have hlast := (last_of_year_iff hn (2107 + 128 * k)).mpr (by omega)
    rw [show (2107 + 128 * k + 1 : Int) = 2108 + 128 * k by omega] at hlast
    exact ⟨k, hlast⟩
  · rintro ⟨k, hk⟩
    rw [show (2108 + 128 * k : Int) = 2107 + 128 * k + 1 by omega] at hk
    have hlast := (last_of_year_iff hn (2107 + 128 * k)).mp hk
    omega

/-! ## Timestamps -/

section
variable {K : Chrono} {off first last : Int}

theorem naiveLocal_in (F : FixedOffset K off first last) {ut : Nat} (h : ut ≤ last) :
    ∃ n, K.naiveLocal ut = n ∧ IsDateTime n ∧ seconds n = ut + off := by
  obtain ⟨hfirst, -, hlast⟩ := F.range
  obtain ⟨n, hopt, hn, hsec⟩ := F.timestampOpt_in ut (by omega) h
  refine ⟨n, ?_, hn, hsec⟩
  simp only [Chrono.naiveLocal, asI64_of_lt (show ut < 2 ^ 63 by omega), hopt, Option.getD_some]

theorem isDateTime_clampedTime : IsDateTime clampedTime :=
  ⟨⟨by decide, by decide, by decide, by decide⟩, by decide, by decide, by decide⟩

/-- Timestamps that `chrono` cannot represent are clamped, or wrap around to the time before the epoch. -/
theorem naiveLocal_out (F : FixedOffset K off first last) {ut : UInt64} (h : last < ut.toNat) :
    ∃ n, K.naiveLocal ut.toNat = n ∧ IsDateTime n ∧ n.year < 2107 := by
  obtain ⟨hfirst, -, hlast⟩ := F.range
  have hlt := UInt64.toNat_lt ut
  by_cases hin : first ≤ asI64 ut.toNat ∧ asI64 ut.toNat ≤ last
  · obtain ⟨n, hopt, hn, hsec⟩ := F.timestampOpt_in _ hin.1 hin.2
    have hoff := F.offset
    have hneg : asI64 ut.toNat < 0 := by
      have hbig : ¬ ut.toNat < 2 ^ 63 := by
        intro hsmall
        have hle := hin.2
        rw [asI64_of_lt hsmall] at hle
        omega
      have hwrap := asI64_of_ge (not_lt.mp hbig) hlt
      omega
    have hstart : startOfYear 2107 = 4323283200 := by decide
    refine ⟨n, ?_, hn, (year_lt_iff hn 2107).mpr (by omega)⟩
    simp only [Chrono.naiveLocal, hopt, Option.getD_some]
  · refine ⟨clampedTime, ?_, isDateTime_clampedTime, by decide⟩
    simp only [Chrono.naiveLocal, F.timestampOpt_out _ hin, F.fromTimestamp_out _ hin, Option.getD_none]

/-- The last second of the local year 2107. -/
theorem exists_last_second (F : FixedOffset K off first last) :
    ∃ t : UInt64, (t.toNat : Int) + off = startOfYear 2108 - 1 ∧ t.toNat ≤ last := by
  obtain ⟨-, hlast, -⟩ := F.range
  have hoff := F.offset
  have hstart : startOfYear 2108 = 4354819200 := rfl
  refine ⟨UInt64.ofNat (startOfYear 2108 - 1 - off).toNat, ?_, ?_⟩
  · rw [UInt64.toNat_ofNat_of_lt' (show _ < 2 ^ 64 by omega)]
    omega
  · rw [UInt64.toNat_ofNat_of_lt' (show _ < 2 ^ 64 by omega)]
    omega

theorem monotoneUpTo_of_inOrder (X : Extern) (F : FixedOffset K off first last) {u : UInt64}
    (h : InOrder off last u) : MonotoneUpTo X K off u := by
  intro t htu hstart
  obtain ⟨hu, hcase⟩ := h
  have hle : t.toNat ≤ u.toNat := UInt64.le_iff_toNat_le.mp htu
  obtain ⟨n, hut, hn, hsec⟩ := naiveLocal_in F hu
  obtain ⟨n', hut', hn', hsec'⟩ := naiveLocal_in F (show (t.toNat : Int) ≤ last by omega)
  have hyear' := (year_lt_iff hn' 1980).not.mpr (by omega)
  rw [dosLe_iff]
  rcases hcase with hyear | hlast
  · have hkey := key_le_of_seconds_le hn' hn (by omega)
    have hyear := (year_lt_iff hn 2108).mpr (by omega)
    have hyearle : n'.year < n.year + 1 := by
      have hbegin := (year_lt_iff hn (n.year + 1)).mp (by omega)
      exact (year_lt_iff hn' (n.year + 1)).mpr (by omega)
    have hdate := toNat_dosDate_of_mem (X := X.withChrono K) hut hn (by omega) (by omega)
    have hdate' := toNat_dosDate_of_mem (X := X.withChrono K) hut' hn' (by omega) (by omega)
    have htime := toNat_dosTime (X := X.withChrono K) hut hn
    have htime' := toNat_dosTime (X := X.withChrono K) hut' hn'
    omega
  · rw [← hsec] at hlast
    have hwords := (words_last_iff (X := X.withChrono K) hut hn).mpr hlast
    have hwords' := words_le (X := X.withChrono K) hut' hn'
    omega

/-- The last second of 2107 has the last of all words, so a later timestamp in order has them as well. -/
theorem inOrder_of_monotoneUpTo (X : Extern) (F : FixedOffset K off first last) {u : UInt64}
    (h : MonotoneUpTo X K off u) : InOrder off last u := by
  obtain ⟨t, ht, htlast⟩ := exists_last_second F
  obtain ⟨n', hut', hn', hsec'⟩ := naiveLocal_in F htlast
  have hstart : startOfYear 1980 < startOfYear 2108 := by decide
  have hwords' := (words_last_iff (X := X.withChrono K) hut' hn').mpr ⟨0, by
    rw [show ((2108 : Int) + 128 * (0 : Nat)) = 2108 from rfl]
    omega⟩
  by_cases hu : (u.toNat : Int) ≤ last
  · refine ⟨hu, ?_⟩
    obtain ⟨n, hut, hn, hsec⟩ := naiveLocal_in F hu
    by_cases hyear : (u.toNat : Int) + off < startOfYear 2108
    · exact .inl hyear
    · have hle := dosLe_iff.mp (h t (UInt64.le_iff_toNat_le.mpr (by omega)) (by omega))
      have hwords := words_le (X := X.withChrono K) hut hn
      rw [← hsec]
      exact .inr ((words_last_iff (X := X.withChrono K) hut hn).mp (by omega))
  · obtain ⟨n, hut, hn, hyear⟩ := naiveLocal_out F (not_le.mp hu)
    have hle := dosLe_iff.mp (h t (UInt64.le_iff_toNat_le.mpr (by omega)) (by omega))
    have hdate := toNat_dosDate (X := X.withChrono K) hut hn
    have hbounds := date_bounds hn
    omega

end

/-! ## Round trip -/

theorem day_le_daysInMonth {n : NaiveDateTime} (hn : IsDateTime n) :
    (n.day : Int) ≤ daysInMonth n.year n.month := by
  obtain ⟨hlow, hhigh, -⟩ := date_bounds hn
  rw [daysInMonth_eq n.year (by omega) (by omega), Int.toNat_natCast]
  exact_mod_cast hn.date.day_le

theorem normalizeYmd_of_valid {n : NaiveDateTime} (hn : IsDateTime n) :
    normalizeYmd n.year n.month n.day = (n.year, (n.month : Int), (n.day : Int)) := by
  obtain ⟨hlow, hhigh, hday, -⟩ := date_bounds hn
  have hcarry : carryMonth n.year n.month n.day = (n.year, (n.month : Int), (n.day : Int)) := by
    rw [carryMonth, show ((n.month : Int) - 1) / 12 = 0 by omega,
      show ((n.month : Int) - 1) % 12 + 1 = n.month by omega, Int.add_zero]
  have hround : normalizeRound (n.year, (n.month : Int), (n.day : Int)) =
      .inr (n.year, (n.month : Int), (n.day : Int)) := by
    rw [normalizeRound_eq, if_neg (by omega), if_neg (not_lt.mpr (day_le_daysInMonth hn))]
  rw [normalizeYmd, hcarry, runLoop_of_leaves (.leave hround) (Nat.zero_le _)]
  rfl

theorem naiveDateTime_of_valid {n : NaiveDateTime} (hn : IsDateTime n) :
    naiveDateTime n.year n.month n.day n.hour n.minute n.second = some n := by
  obtain ⟨hlow, hhigh, hday, -⟩ := date_bounds hn
  rw [naiveDateTime, if_pos ⟨by omega, by omega, by omega, day_le_daysInMonth hn, hn.hour, hn.minute, hn.second⟩]
  rfl

/-- The time with its second made even. -/
def evenSecond (n : NaiveDateTime) : NaiveDateTime := { n with second := n.second / 2 * 2 }

theorem isDateTime_evenSecond {n : NaiveDateTime} (hn : IsDateTime n) : IsDateTime (evenSecond n) :=
  ⟨hn.date, hn.hour, hn.minute, Nat.lt_of_le_of_lt (Nat.div_mul_le_self _ _) hn.second⟩

theorem seconds_evenSecond (n : NaiveDateTime) : seconds (evenSecond n) = seconds n - seconds n % 2 := by
  simp only [seconds, evenSecond, dateOf]
  omega

/-- What is unpacked from the words of a time is the time with an even second. -/
theorem dosToUnix_words (Z : Zone) {n : NaiveDateTime} (hn : IsDateTime n) (hlow : 1980 ≤ n.year)
    (hhigh : n.year ≤ 2107) {time date : UInt16} (htime : time.toNat = timeKey n)
    (hdate : (date.toNat : Int) = dateKey n - 1980 * 512) {t : Int}
    (hlocal : Z.fromLocalDatetime (evenSecond n) = .single t) : dosToUnix Z time date = UInt64.ofInt t := by
  obtain ⟨hmonth, hmonth', hday, hday'⟩ := date_bounds hn
  have hhour := hn.hour
  have hminute := hn.minute
  have hsecond := hn.second
  rw [timeKey] at htime
  rw [dateKey] at hdate
  have hsecs : (time &&& 0x1F).toNat * 2 = n.second / 2 * 2 := by
    rw [toNat_low]
    omega
  have hmins : ((time >>> 5) &&& 0x3F).toNat = n.minute := by
    rw [toNat_field time (j := 6) (by decide) rfl, show UInt16.toNat 5 = 5 from rfl]
    omega
  have hhours : ((time >>> 11) &&& 0x1F).toNat = n.hour := by
    rw [toNat_field time (j := 5) (by decide) rfl, show UInt16.toNat 11 = 11 from rfl]
    omega
  have hdays : (date &&& 0x1F).toNat = n.day := by
    rw [toNat_low]
    omega
  have hmonths : ((date >>> 5) &&& 0x0F).toNat = n.month := by
    rw [toNat_field date (j := 4) (by decide) rfl, show UInt16.toNat 5 = 5 from rfl]
    omega
  have hyears : (((date >>> 9) &&& 0x7F).toNat : Int) + 1980 = n.year := by
    rw [toNat_field date (j := 7) (by decide) rfl, show UInt16.toNat 9 = 9 from rfl]
    omega
  have hnaive : naiveDateTime n.year n.month n.day n.hour n.minute (n.second / 2 * 2) =
      some (evenSecond n) := naiveDateTime_of_valid (isDateTime_evenSecond hn)
  rw [dosToUnix, hsecs, hmins, hhours, hdays, hmonths, hyears]
  simp only [normalizeYmd_of_valid hn, hnaive, hlocal]

theorem toNat_ofInt {t : Int} (hlow : 0 ≤ t) (hhigh : t < 2 ^ 64) : ((UInt64.ofInt t).toNat : Int) = t := by
  rw [UInt64.ofInt, Int.emod_eq_of_lt hlow hhigh, UInt64.toNat_ofNat_of_lt' (show _ < 2 ^ 64 by omega)]
  omega

section
variable {K : Chrono} {off first last : Int}

/-- The local time is rounded down to an even second. -/
theorem dosToUnix_unixToDos (X : Extern) (F : FixedOffset K off first last) {t : UInt64}
    (hlow : startOfYear 1980 ≤ t.toNat + off) (hhigh : t.toNat + off < startOfYear 2108) :
    ((dosToUnix K.toZone (unixToDos (X.withChrono K) t.toNat).1
      (unixToDos (X.withChrono K) t.toNat).2).toNat : Int) = t.toNat - (t.toNat + off) % 2 := by
  obtain ⟨-, hlast, -⟩ := F.range
  have hoff := F.offset
  have hstart : startOfYear 1980 = 315532800 := by decide
  have hstop : startOfYear 2108 = 4354819200 := by decide
  obtain ⟨n, hut, hn, hsec⟩ := naiveLocal_in F (show (t.toNat : Int) ≤ last by omega)
  have hyear := (year_lt_iff hn 1980).not.mpr (by omega)
  have hyear' := (year_lt_iff hn 2108).mpr (by omega)
  have hlocal := F.fromLocalDatetime (evenSecond n) (isDateTime_evenSecond hn) (not_lt.mp hyear)
    (Int.lt_add_one_iff.mp hyear')
  rw [seconds_evenSecond, hsec] at hlocal
  rw [dosToUnix_words K.toZone hn (not_lt.mp hyear) (Int.lt_add_one_iff.mp hyear')
    (toNat_dosTime (X := X.withChrono K) hut hn)
    (toNat_dosDate_of_mem (X := X.withChrono K) hut hn (by omega) (by omega)) hlocal]
  rw [toNat_ofInt]
  · omega
  · omega
  · omega

/-- Up to which timestamp the words keep the order, and at which offsets the way back and forth gives the even
second before a timestamp. -/
theorem dosTime_iff (X : Extern) (F : FixedOffset K off first last) :
    (∀ u : UInt64, MonotoneUpTo X K off u ↔ InOrder off last u) ∧
      ∀ t : UInt64, startOfYear 1980 ≤ t.toNat + off → t.toNat + off < startOfYear 2108 →
        (((dosToUnix K.toZone (unixToDos (X.withChrono K) t.toNat).1
          (unixToDos (X.withChrono K) t.toNat).2).toNat : Int) = t.toNat - t.toNat % 2 ↔ off % 2 = 0) := by
  refine ⟨fun u => ⟨inOrder_of_monotoneUpTo X F, monotoneUpTo_of_inOrder X F⟩, fun t hlow hhigh => ?_⟩
  rw [dosToUnix_unixToDos X F hlow hhigh]
  omega

end

/-! ## A clock -/

/-- The date and time at a timestamp from the epoch on, in UTC. -/
def civilTime (t : Int) : NaiveDateTime :=
  let d := Date.next^[(t / 86400).toNat] { year := 1970, month := 1, day := 1 }
  { year := d.year, month := d.month, day := d.day, hour := (t % 86400 / 3600).toNat,
    minute := (t % 3600 / 60).toNat, second := (t % 60).toNat }

theorem civilTime_spec {t : Int} (ht : 0 ≤ t) : IsDateTime (civilTime t) ∧ seconds (civilTime t) = t := by
  have hepoch : Date.Valid { year := 1970, month := 1, day := 1 } :=
    ⟨by decide, by decide, by decide, by decide⟩
  have hday := Date.dayNumber_iterate_next hepoch (t / 86400).toNat
  rw [show Date.dayNumber { year := 1970, month := 1, day := 1 } = epochDay by decide] at hday
  refine ⟨⟨hepoch.iterate_next _, ?_, ?_, ?_⟩, ?_⟩
  · simp only [civilTime]
    omega
  · simp only [civilTime]
    omega
  · simp only [civilTime]
    omega
  · have hdate : dateOf (civilTime t) =
        Date.next^[(t / 86400).toNat] { year := 1970, month := 1, day := 1 } := rfl
    rw [seconds, hdate, hday]
    simp only [civilTime]
    omega

/-- A clock in UTC, from the epoch to the timestamp `2 ^ 33`. -/
def utcClock : Chrono where
  fromLocalDatetime n := .single (seconds n)
  utcTimestamp := seconds
  fromTimestamp t := if 0 ≤ t ∧ t ≤ 2 ^ 33 then some (civilTime t) else none
  timestampOpt t := if 0 ≤ t ∧ t ≤ 2 ^ 33 then some (civilTime t) else none

theorem fixedOffset_utcClock : FixedOffset utcClock 0 0 (2 ^ 33) where
  offset := by decide
  range := by decide
  fromTimestamp_out _ h := if_neg h
  timestampOpt_out _ h := if_neg h
  timestampOpt_in t hlow hhigh := by
    obtain ⟨hcivil, hseconds⟩ := civilTime_spec hlow
    exact ⟨civilTime t, if_pos ⟨hlow, hhigh⟩, hcivil, hseconds.trans (Int.add_zero t).symm⟩
  fromLocalDatetime n _ _ _ := congrArg LocalResult.single (Int.sub_zero _).symm

theorem dosTime_sample :
    (MonotoneUpTo reference utcClock 0 1000000000 ↔ InOrder 0 (2 ^ 33) 1000000000) ∧
      (((dosToUnix utcClock.toZone (unixToDos (reference.withChrono utcClock) 1000000001).1
        (unixToDos (reference.withChrono utcClock) 1000000001).2).toNat : Int) =
          1000000001 - 1000000001 % 2 ↔ (0 : Int) % 2 = 0) := by
  obtain ⟨horder, hround⟩ := dosTime_iff reference fixedOffset_utcClock
  exact ⟨horder 1000000000, hround 1000000001 (by decide) (by decide)⟩

/-- The first second of 2108 has the words of the first of 1980. -/
theorem dosTime_comes_around : ¬ MonotoneUpTo reference utcClock 0 4354819200 := by
  intro h
  obtain ⟨-, hearly | ⟨k, hlow, hhigh⟩⟩ := inOrder_of_monotoneUpTo reference fixedOffset_utcClock h
  · exact absurd hearly (by decide)
  · have hu : ((4354819200 : UInt64).toNat : Int) = 4354819200 := rfl
    rw [hu] at hlow hhigh
    unfold startOfYear daysBeforeYear epochDay at hlow hhigh
    omega

end Kzip.Impl
