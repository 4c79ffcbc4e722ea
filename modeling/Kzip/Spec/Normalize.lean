import Kzip.Impl.Time
import Kzip.Lib.Calendar

/-!
# The date that is meant

A month that is not one of the twelve counts on from the beginning of its year, and a day that is not one of
the month from the beginning of its month.
-/

namespace Kzip.Spec

open Lib

/-- The first day of a month, which is carried into the year if it is not one of the twelve. -/
def firstOfMonth (y m : Int) : Date :=
  { year := y + (m - 1) / 12, month := ((m - 1) % 12 + 1).toNat, day := 1 }

/-- The date that day `d` of the month is. -/
structure IsMeant (y m d : Int) (date : Date) : Prop where
  valid : date.Valid
  dayNumber : date.dayNumber = (firstOfMonth y m).dayNumber + (d - 1)

def dateFields (date : Date) : Int × Int × Int := (date.year, date.month, date.day)

end Kzip.Spec
