import Kzip.Impl.Edit
import Kzip.Lib.Run

/-!
# What edits of extra fields mean

The documented meaning of an edit on a list of fields, by position (`meaning`), applied call after call
next to the handle (`extraStep`). The handle should always have the fields that this gives
(`AsDocumented`).
-/

namespace Kzip.Spec

open Lib Kzip.Impl

/-- The position of the `n`-th field with an id. -/
def positionOf (id : UInt16) (n : Nat) (fields : List ExtraField) : Option Nat :=
  ((List.range fields.length).filter fun k => fields[k]?.any fun f => f.1 == id)[n]?

def meaning (fields : List ExtraField) : ExtraFieldOp → List ExtraField
  | .set id efIdx data =>
    if efIdx = zipExtraFieldNew then fields ++ [(id, data)]
    else
      match positionOf id efIdx.toNat fields with
      | some k => fields.set k (id, data)
      | none => fields ++ [(id, data)]
  | .delete efIdx => if efIdx = zipExtraFieldAll then [] else fields.eraseIdx efIdx.toNat
  | .deleteById id efIdx =>
    if id = zipExtraFieldAll then []
    else if efIdx = zipExtraFieldAll then fields.filter fun f => f.1 != id
    else
      match positionOf id efIdx.toNat fields with
      | some k => fields.eraseIdx k
      | none => fields

/-- A call that edits the extra fields of an entry. -/
inductive ExtraCall where
  | set (id efIdx : UInt16) (data : Option Bytes) (len : UInt16)
  | delete (efIdx : UInt16)
  | deleteById (id efIdx : UInt16)
  deriving DecidableEq

def ExtraCall.run (index : Nat) (z : Zip) : ExtraCall → Int × Zip
  | .set id efIdx data len => z.fileExtraFieldSet index id efIdx data len
  | .delete efIdx => z.fileExtraFieldDelete index efIdx
  | .deleteById id efIdx => z.fileExtraFieldDeleteById index id efIdx

/-- The edit that a call asks for. -/
def ExtraCall.op : ExtraCall → ExtraFieldOp
  | .set id efIdx data len => .set id efIdx (sliceArg data len.toNat)
  | .delete efIdx => .delete efIdx
  | .deleteById id efIdx => .deleteById id efIdx

/-- A call on the handle, and its meaning on the fields if it is accepted. -/
def extraStep (index : Nat) (s : Zip × List ExtraField) (call : ExtraCall) : Zip × List ExtraField :=
  ((call.run index s.1).2, if (call.run index s.1).1 = -1 then s.2 else meaning s.2 call.op)

/-- The fields of an entry in the archive, without those that are managed for the user. -/
def originalFields (a : Archive) (index : Nat) : List ExtraField :=
  ((a.dirent index).map fun d => withoutManaged d.extraFields).getD []

/-- The entry has the fields that the calls so far should have given it. -/
def AsDocumented (index : Nat) (s : Zip × List ExtraField) : Prop :=
  effectiveExtraFields s.1.archive s.1.pending index = s.2

/-- No call that is accepted asks for all fields by their id, unless there is none with an id of its
own. -/
def SparesOthers (index : Nat) (s : Zip × List ExtraField) (call : ExtraCall) : Prop :=
  (call.run index s.1).1 ≠ -1 → ∀ efIdx, call = .deleteById zipExtraFieldAll efIdx →
    ∀ f ∈ s.2, f.1 = zipExtraFieldAll

end Kzip.Spec
