import Kzip.Impl.Edit

/-!
# Getters of comments and extra fields

These calls answer from the overlays of the handle. A slot that an overlay does not have is empty.
-/

namespace Kzip.Impl

/-- The comment as a C string, `none` for a null pointer, and its length as an `int`. -/
def Zip.fileGetComment (z : Zip) (index : Nat) : Option Bytes × Int32 :=
  let comment := z.comments[index]?.getD none
  (comment, comment.elim 0 fun bs => Int32.ofNat bs.length)

def Zip.fileExtraFieldsCount (z : Zip) (index : Nat) : Int16 :=
  Int16.ofNat (z.extraFields[index]?.getD []).length

def Zip.fileExtraFieldsCountById (z : Zip) (index : Nat) (id : UInt16) : Int16 :=
  Int16.ofNat (z.countById index id)

/-- The data of the `n`-th field with an id. -/
def findNth (id : UInt16) : Nat → List ExtraField → Option Bytes
  | _, [] => none
  | n, f :: fs =>
    if f.1 = id then
      match n with
      | 0 => some f.2
      | n + 1 => findNth id n fs
    else findNth id n fs

/-- The data of a field and its length, `none` for a null pointer. -/
def Zip.fileExtraFieldGetById (z : Zip) (index : Nat) (id idx : UInt16) : Option (Bytes × UInt16) :=
  (findNth id idx.toNat (z.extraFields[index]?.getD [])).map fun data =>
    (data, UInt16.ofNat data.length)

end Kzip.Impl
