import Kzip.Lib.Run
import Kzip.Spec.Edit

/-!
# The read-only flag

What the archive flag `ZIP_AFL_RDONLY` is for (`FlagGuarded`): while it is set no edit is pending, and
every edit call is refused.
-/

namespace Kzip.Spec

open Lib Kzip.Impl

/-- The calls that record an edit. -/
def ZipCall.isEdit : ZipCall → Bool
  | .setDefaultPassword _ | .setArchiveFlag .. | .unchange _ | .unchangeAll | .unchangeArchive
  | .openEntry .. | .readEntry .. => false
  | _ => true

/-- A call that failed with `ZIP_ER_RDONLY`, and left the pending edits as they were. -/
structure RefusedReadOnly (z : Zip) (r : Int × Zip) : Prop where
  failed : r.1 = -1
  error : r.2.error = .rdonly
  pending : r.2.pending = z.pending

structure FlagGuarded (X : Extern) (z : Zip) : Prop where
  pending : z.chAfl &&& zipAflRdonly ≠ 0 → z.pending.isEmpty
  refused : z.chAfl &&& zipAflRdonly ≠ 0 → ∀ c : ZipCall, c.isEdit → RefusedReadOnly z (c.run X z)

/-- Calls that set the read-only flag of a handle that does not have it. A mask of several flags is
not refused when edits are pending. -/
def SetsReadOnly (z : Zip) : ZipCall → Prop
  | .setArchiveFlag flag value =>
    value ≠ 0 ∧ flag &&& zipAflRdonly ≠ 0 ∧ (flag = zipAflRdonly → z.pending.isEmpty)
  | _ => False

/-- The handle that a call leaves behind. -/
def step (X : Extern) (z : Zip) (c : ZipCall) : Zip := (c.run X z).2

end Kzip.Spec
