import Kzip.Impl.SeekOffset
import Kzip.Spec.WriteSession

/-!
# The exact target of a seek

Computed without bounds on the integers, and accepted if it is a position in the data that the result type
has (`exactSeek`). A computation in 64 bits goes wrong where the sum comes around (`SumComesAround`), and
panics where it overflows (`SumOverflows`), if overflow is checked.
-/

namespace Kzip.Spec

open Kzip.Impl

def exactSeek (offset length : UInt64) (data : Option SeekArgs) (dataLength : UInt64) : Option Int :=
  (sourceArgsSeek data dataLength).bind fun args =>
    (target args.whence args.offset offset.toNat length.toNat).filter fun t =>
      0 ≤ t ∧ t ≤ length.toNat ∧ t < 2 ^ 63

/-- The call returns the exact target, and fails with `ZIP_ER_INVAL` where there is none. -/
def SeeksExactly (X : Extern) (offset length : UInt64) (data : Option SeekArgs) (dataLength : UInt64)
    (errorp : Option Int32) : Prop :=
  sourceSeekComputeOffset X offset length data dataLength errorp =
    match exactSeek offset length data dataLength with
    | some t => (t, errorp)
    | none => (-1, errorp.map fun _ => zipErInval)

/-- What a seek is relative to. -/
def seekBase (args : SeekArgs) (offset length : UInt64) : Option Nat :=
  if args.whence = seekCur then some offset.toNat
  else if args.whence = seekEnd then some length.toNat
  else none

/-- The sum reaches `2 ^ 64`, and what is left of it is a position in the data. -/
def SumComesAround (length : UInt64) (base : Nat) (delta : Int) : Prop :=
  2 ^ 64 ≤ base + delta ∧ base + delta ≤ 2 ^ 64 + length.toNat

/-- The sum of the base, as a signed number, and the distance does not fit 64 bits. -/
def SumOverflows (base : Nat) (delta : Int) : Prop := base < 2 ^ 63 ↔ 2 ^ 63 ≤ base + delta

instance (base : Nat) (delta : Int) : Decidable (SumOverflows base delta) :=
  inferInstanceAs (Decidable (_ ↔ _))

/-- Nothing is lost if the call fails without saying why: the sum is no position in the data, and
nobody looks at the reason, or it was there before. -/
def FailsUnseen (length : UInt64) (base : Nat) (delta : Int) (errorp : Option Int32) : Prop :=
  ¬ (0 ≤ base + delta ∧ base + delta ≤ length.toNat ∧ base + delta < 2 ^ 63) ∧
    (errorp = none ∨ errorp = some zipErInval)

end Kzip.Spec
