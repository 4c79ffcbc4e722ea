import Kzip.Impl.Time
import Kzip.Impl.Zip
import Kzip.Lib.Calendar

/-!
# DOS time and date

Both directions of the conversion, against a local clock at a fixed offset from UTC.
-/

namespace Kzip.Spec

open Kzip.Impl Lib

/-- The day of the Unix epoch. -/
def epochDay : Int := 719162

/-- The timestamp at which a year begins in UTC. -/
def startOfYear (y : Int) : Int := 86400 * (daysBeforeYear y - epochDay)

def dateOf (n : NaiveDateTime) : Date := { year := n.year, month := n.month, day := n.day }

/-- The timestamp at which a clock in UTC shows the date and time. -/
def seconds (n : NaiveDateTime) : Int :=
  86400 * ((dateOf n).dayNumber - epochDay) + 3600 * n.hour + 60 * n.minute + n.second

structure IsDateTime (n : NaiveDateTime) : Prop where
  date : (dateOf n).Valid
  hour : n.hour < 24
  minute : n.minute < 60
  second : n.second < 60

/-- The local clock is ahead of UTC by `off` seconds, and `chrono` converts correctly from the timestamp
`first` to `last` and not beyond. -/
structure FixedOffset (K : Chrono) (off first last : Int) : Prop where
  offset : -86400 < off ∧ off < 86400
  range : first ≤ 0 ∧ 2 ^ 33 ≤ last ∧ last < 2 ^ 63
  fromTimestamp_out : ∀ t, ¬ (first ≤ t ∧ t ≤ last) → K.fromTimestamp t = none
  timestampOpt_out : ∀ t, ¬ (first ≤ t ∧ t ≤ last) → K.timestampOpt t = none
  timestampOpt_in : ∀ t, first ≤ t → t ≤ last →
    ∃ n, K.timestampOpt t = some n ∧ IsDateTime n ∧ seconds n = t + off
  fromLocalDatetime : ∀ n, IsDateTime n → 1980 ≤ n.year → n.year ≤ 2107 →
    K.fromLocalDatetime n = .single (seconds n - off)

/-- The lexicographic order of DOS dates and times; the time is the first of the two words. -/
def DosLe (p q : UInt16 × UInt16) : Prop := p.2 < q.2 ∨ p.2 = q.2 ∧ p.1 ≤ q.1

/-- No earlier timestamp, from the local year 1980 on, has a later DOS date and time. -/
def MonotoneUpTo (X : Extern) (K : Chrono) (off : Int) (u : UInt64) : Prop :=
  ∀ t ≤ u, startOfYear 1980 ≤ t.toNat + off →
    DosLe (unixToDos (X.withChrono K) t.toNat) (unixToDos (X.withChrono K) u.toNat)

/-- The last two seconds of every 128th local year have the DOS date and time of those of 2107. -/
def LastOfCycle (shown : Int) : Prop :=
  ∃ k : Nat, startOfYear (2108 + 128 * k) - 2 ≤ shown ∧ shown < startOfYear (2108 + 128 * k)

/-- The timestamps up to which the conversion is monotone. -/
def InOrder (off last : Int) (u : UInt64) : Prop :=
  u.toNat ≤ last ∧ (u.toNat + off < startOfYear 2108 ∨ LastOfCycle (u.toNat + off))

end Kzip.Spec
