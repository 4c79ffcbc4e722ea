import Kzip.Spec.Edit

/-!
# Edits that commute

Two edits commute when neither order shows: both calls return the same either way, and whatever is done
afterwards, a close writes the same (`EditsCommute`).
-/

namespace Kzip.Spec

open Kzip.Impl

/-- The entry that an edit call is about. -/
def ZipCall.editedEntry : ZipCall → Option Nat
  | .delete index | .rename index _ | .fileReplace index _ | .fileSetComment index ..
  | .setFileComment index .. | .fileExtraFieldSet index .. | .fileExtraFieldDelete index _
  | .fileExtraFieldDeleteById index .. | .fileSetMtime index _ | .fileSetDostime index ..
  | .fileSetExternalAttributes index .. | .setFileCompression index .. | .fileSetEncryption index _ =>
    some index
  | .fileAdd .. | .dirAdd _ | .setArchiveComment .. | .setDefaultPassword _ | .setArchiveFlag ..
  | .unchange _ | .unchangeAll | .unchangeArchive | .openEntry .. | .readEntry .. => none

/-- The calls `c` and `d` on a handle, in either order. -/
structure EditsCommute (X : Extern) (z : Zip) (c d : ZipCall) : Prop where
  first : (c.run X z).1 = (c.run X (d.run X z).2).1
  second : (d.run X (c.run X z).2).1 = (d.run X z).1
  later : ∀ calls sched, (runAll X calls (d.run X (c.run X z).2).2).materialize X sched =
    (runAll X calls (c.run X (d.run X z).2).2).materialize X sched

end Kzip.Spec
