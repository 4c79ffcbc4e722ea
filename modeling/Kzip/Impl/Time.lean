import Kzip.Lib.Loop
import Kzip.Impl.Extern

/-!
# DOS time and date

`dosToUnix` unpacks the two words into calendar fields, brings the date into range as `mktime` does
(`normalizeYmd`), and has `chrono` find the timestamp of the local time. The other direction, `unixToDos`,
is where the pending edits are; which local time it converts is `Chrono.naiveLocal`.
-/

namespace Kzip.Impl

open Lib

/-- `chrono::offset::LocalResult`, of timestamps. -/
inductive LocalResult where
  | single (t : Int)
  | ambiguous (earliest latest : Int)
  | none
  deriving DecidableEq, Repr

/-- What `chrono` makes of the fields of a date and time: the timestamps at which the local clock shows
them, and the timestamp at which a clock in UTC does. -/
structure Zone where
  fromLocalDatetime : NaiveDateTime → LocalResult
  utcTimestamp : NaiveDateTime → Int

def daysInMonth (y m : Int) : Int :=
  if m = 1 ∨ m = 3 ∨ m = 5 ∨ m = 7 ∨ m = 8 ∨ m = 10 ∨ m = 12 then 31
  else if m = 4 ∨ m = 6 ∨ m = 9 ∨ m = 11 then 30
  else if m = 2 then
    if y % 4 = 0 ∧ y % 100 ≠ 0 ∨ y % 400 = 0 then 29 else 28
  else 31

/-- The month carried into the year. -/
def carryMonth (y m d : Int) : Int × Int × Int := (y + (m - 1) / 12, (m - 1) % 12 + 1, d)

/-- A round of the loop of `normalize_ymd`: a month back, a month forward, or the end. -/
def normalizeRound (c : Int × Int × Int) : (Int × Int × Int) ⊕ (Int × Int × Int) :=
  let (y, m, d) := c
  if d < 1 then
    let (y, m) := if m - 1 < 1 then (y - 1, 12) else (y, m - 1)
    .inl (y, m, d + daysInMonth y m)
  else
    let dim := daysInMonth y m
    if dim < d then
      let (y, m) := if 12 < m + 1 then (y + 1, 1) else (y, m + 1)
      .inl (y, m, d - dim)
    else .inr (y, m, d)

/-- A round goes on only while the day is off by a month or so, which bounds the rounds. -/
def normalizeYmd (y m d : Int) : Int × Int × Int :=
  (runLoop normalizeRound (d.natAbs + 1) (carryMonth y m d)).getD (carryMonth y m d)

/-- `NaiveDate::from_ymd_opt` and `and_hms_opt`: the fields, if they are those of a date and time. -/
def naiveDateTime (y m d : Int) (hours mins secs : Nat) : Option NaiveDateTime :=
  if 1 ≤ m ∧ m ≤ 12 ∧ 1 ≤ d ∧ d ≤ daysInMonth y m ∧ hours < 24 ∧ mins < 60 ∧ secs < 60 then
    some { year := y, month := m.toNat, day := d.toNat, hour := hours, minute := mins, second := secs }
  else none

def dosToUnix (Z : Zone) (dosTime dosDate : UInt16) : UInt64 :=
  let secs := (dosTime &&& 0x1F).toNat * 2
  let mins := ((dosTime >>> 5) &&& 0x3F).toNat
  let hours := ((dosTime >>> 11) &&& 0x1F).toNat
  let day : Int := (dosDate &&& 0x1F).toNat
  let month : Int := ((dosDate >>> 5) &&& 0x0F).toNat
  let year : Int := ((dosDate >>> 9) &&& 0x7F).toNat + 1980
  let (y, m, d) := normalizeYmd year month day
  match naiveDateTime y m d hours mins secs with
  | none => 0
  | some naive =>
    match Z.fromLocalDatetime naive with
    | .single t => UInt64.ofInt t
    | .ambiguous t _ => UInt64.ofInt t
    | .none => UInt64.ofInt (Z.utcTimestamp naive)

/-- What `chrono` makes of a timestamp: the date and time that a clock in UTC shows, and the local one, if
they are in its range. -/
structure Chrono extends Zone where
  fromTimestamp : Int → Option NaiveDateTime
  timestampOpt : Int → Option NaiveDateTime

/-- The time at the timestamp `0x7FFF_FFFF` in UTC. -/
def clampedTime : NaiveDateTime :=
  { year := 2038, month := 1, day := 19, hour := 3, minute := 14, second := 7 }

/-- The time that `unix_to_dos` converts: an extremely large timestamp is clamped. -/
def Chrono.naiveLocal (K : Chrono) (ut : Nat) : NaiveDateTime :=
  let dt := (K.fromTimestamp (asI64 ut)).getD clampedTime
  (K.timestampOpt (asI64 ut)).getD dt

def Extern.withChrono (X : Extern) (K : Chrono) : Extern := { X with naiveLocal := K.naiveLocal }

end Kzip.Impl
