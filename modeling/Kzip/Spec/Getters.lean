import Kzip.Impl.Getters
import Kzip.Lib.Run
import Kzip.Spec.Edit

/-!
# What the getters should report

The getters of an entry should report the comment and the extra fields that a close would write
(`GettersAgree`).
-/

namespace Kzip.Spec

open Lib Kzip.Impl

/-- A comment, without the difference between an empty one and none. -/
def nonEmpty (comment : Option Bytes) : Option Bytes := comment.filter (· ≠ [])

/-- The getters of the entry at `i` report its effective comment and its effective extra fields. -/
structure GettersAgree (z : Zip) (i : Nat) : Prop where
  comment : (z.fileGetComment i).1 = nonEmpty (effectiveComment z.archive z.pending i)
  commentLen : (z.fileGetComment i).2.toInt =
    ((effectiveComment z.archive z.pending i).getD []).length
  count : (z.fileExtraFieldsCount i).toInt = (effectiveExtraFields z.archive z.pending i).length
  countById : ∀ id, (z.fileExtraFieldsCountById i id).toInt =
    ((effectiveExtraFields z.archive z.pending i).filter fun f => f.1 == id).length
  getById : ∀ id idx, (z.fileExtraFieldGetById i id idx).map (fun r => (r.1, r.2.toNat)) =
    ((effectiveExtraFields z.archive z.pending i).filter fun f => f.1 == id)[idx.toNat]?.map
      fun f => (f.2, f.2.length)

/-- The comment is one that the comment overlay can hold: a C string with an `int` length. -/
def CString (comment : Option Bytes) : Prop := ∀ bs ∈ comment, 0 ∉ bs ∧ bs.length < 2 ^ 31

/-- The pending edits leave the comment and the extra fields of the entry as they are in the
archive. -/
def AsOpened (z : Zip) (i : Nat) : Prop :=
  nonEmpty (effectiveComment z.archive z.pending i) =
      nonEmpty (effectiveComment z.archive .default i) ∧
    effectiveExtraFields z.archive z.pending i = effectiveExtraFields z.archive .default i

/-- Effects after which the overlays are right: the values that are set fit the getters, and no edit
that shows in an overlay is taken back. -/
def Refreshed (z : Zip) : Effect → Prop
  | .record _ (.comment comment) => CString comment
  | .record i (.extraField op) =>
    (op.apply (effectiveExtraFields z.archive z.pending i)).length < 2 ^ 15
  | .unchange i => AsOpened z i
  | .clear => ∀ i, AsOpened z i
  | _ => True

/-- A call that fails, or whose effect the getters show. -/
def Shows (X : Extern) (z : Zip) (c : ZipCall) : Prop :=
  (c.run X z).1 = -1 ∨ Refreshed z (c.effect z.archive)

end Kzip.Spec
