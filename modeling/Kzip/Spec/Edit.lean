import Kzip.Impl.Close
import Kzip.Spec.Archive
import Mathlib.Logic.Function.Basic

/-!
# What the edit calls do

The calls on a handle (`ZipCall`), and an abstract model of the pending edits (`Edits`): the pending
adds, and for every logical index what was set of its entry, in order. Each call that succeeds has
one effect on it (`Effect`), whatever lists the handle keeps.
-/

namespace Kzip.Spec

open Lib Lib.Utf8 Kzip.Impl

/-! ## Calls -/

/-- A call on a handle. Calls that no other call can tell from one of these are left out. -/
inductive ZipCall where
  | fileAdd (name : Option Bytes) (source : Option ZipSource) (flags : UInt32)
  | dirAdd (name : Option Bytes)
  | delete (index : Nat)
  | rename (index : Nat) (name : Option Bytes)
  | fileReplace (index : Nat) (source : Option ZipSource)
  | setArchiveComment (comment : Option Bytes) (len : UInt16)
  | fileSetComment (index : Nat) (comment : Option Bytes) (len : UInt16)
  | setFileComment (index : Nat) (comment : Option Bytes) (len : Int)
  | fileExtraFieldSet (index : Nat) (id efIdx : UInt16) (data : Option Bytes) (len : UInt16)
  | fileExtraFieldDelete (index : Nat) (efIdx : UInt16)
  | fileExtraFieldDeleteById (index : Nat) (id efIdx : UInt16)
  | fileSetMtime (index : Nat) (mtime : Int)
  | fileSetDostime (index : Nat) (dtime ddate : UInt16)
  | fileSetExternalAttributes (index : Nat) (opsys : UInt8) (attributes : UInt32)
  | setFileCompression (index : Nat) (method : Int) (flags : UInt32)
  | fileSetEncryption (index : Nat) (method : UInt16)
  | setDefaultPassword (password : Option Bytes)
  | setArchiveFlag (flag value : Int32)
  | unchange (index : Nat)
  | unchangeAll
  | unchangeArchive
  /-- Opening an entry, or reading it to its end. -/
  | openEntry (index : Nat) (password : Option Bytes)
  | readEntry (sched : Schedule) (index : Nat) (password : Option Bytes)

/-- The result code of a call, and the handle it leaves behind. -/
def ZipCall.run (X : Extern) (z : Zip) : ZipCall → Int × Zip
  | .fileAdd name source flags => let r := z.fileAdd name source flags; (r.1, r.2.1)
  | .dirAdd name => z.dirAdd name
  | .delete index => z.delete index
  | .rename index name => z.rename index name
  | .fileReplace index source => let r := z.fileReplace index source; (r.1, r.2.1)
  | .setArchiveComment comment len => z.setArchiveComment comment len
  | .fileSetComment index comment len => z.fileSetComment index comment len
  | .setFileComment index comment len => z.setFileComment index comment len
  | .fileExtraFieldSet index id efIdx data len => z.fileExtraFieldSet index id efIdx data len
  | .fileExtraFieldDelete index efIdx => z.fileExtraFieldDelete index efIdx
  | .fileExtraFieldDeleteById index id efIdx => z.fileExtraFieldDeleteById index id efIdx
  | .fileSetMtime index mtime => z.fileSetMtime index mtime
  | .fileSetDostime index dtime ddate => z.fileSetDostime index dtime ddate
  | .fileSetExternalAttributes index opsys attributes =>
    z.fileSetExternalAttributes index opsys attributes
  | .setFileCompression index method flags => z.setFileCompression index method flags
  | .fileSetEncryption index method => z.fileSetEncryption index method
  | .setDefaultPassword password => z.setDefaultPassword password
  | .setArchiveFlag flag value => z.setArchiveFlag flag value
  | .unchange index => z.unchange index
  | .unchangeAll => z.unchangeAll
  | .unchangeArchive => z.unchangeArchive
  | .openEntry index password =>
    (0, { z with archive := (z.archive.openEntryWithPassword X index password).2 })
  | .readEntry sched index password =>
    (0, { z with archive := (z.archive.readEntryWithPassword X sched index password).2 })

/-- The handle after a sequence of calls. -/
def runAll (X : Extern) (calls : List ZipCall) (z : Zip) : Zip :=
  calls.foldl (fun z c => (c.run X z).2) z

/-- The calls of a sequence that succeed, in order. -/
def accepted (X : Extern) : List ZipCall → Zip → List ZipCall
  | [], _ => []
  | c :: cs, z =>
    if (c.run X z).1 = -1 then accepted X cs (c.run X z).2 else c :: accepted X cs (c.run X z).2

/-! ## Edits -/

/-- What an edit sets of an entry. -/
inductive Setting where
  | delete
  | rename (name : Str)
  | replace (data : Vec)
  | encryption (method : UInt16)
  | extraField (op : ExtraFieldOp)
  | comment (comment : Option Bytes)
  | dostime (time date : UInt16)
  | mtime (ut : Int)
  | extAttrs (opsys : UInt8) (attributes : UInt32)
  | compression (method : Int) (level : UInt32)
  deriving DecidableEq

/-- The pending edits of one entry. -/
structure EntryOps where
  deleted : Bool
  renames : List Str
  replaces : List Vec
  encryptions : List UInt16
  extraFieldOps : List ExtraFieldOp
  comments : List (Option Bytes)
  dostimes : List (UInt16 × UInt16)
  mtimes : List Int
  extAttrs : List (UInt8 × UInt32)
  compressions : List (Int × UInt32)
  deriving DecidableEq

def EntryOps.none : EntryOps :=
  { deleted := false, renames := [], replaces := [], encryptions := [], extraFieldOps := [],
    comments := [], dostimes := [], mtimes := [], extAttrs := [], compressions := [] }

/-- Names, contents and mutations of the extra fields are kept in order; of the others, only the
last. -/
def EntryOps.record (o : EntryOps) : Setting → EntryOps
  | .delete => { o with deleted := true }
  | .rename name => { o with renames := o.renames ++ [name] }
  | .replace data => { o with replaces := o.replaces ++ [data] }
  | .encryption method => { o with encryptions := [method] }
  | .extraField op => { o with extraFieldOps := o.extraFieldOps ++ [op] }
  | .comment comment => { o with comments := [comment] }
  | .dostime time date => { o with dostimes := [(time, date)] }
  | .mtime ut => { o with mtimes := [ut] }
  | .extAttrs opsys attributes => { o with extAttrs := [(opsys, attributes)] }
  | .compression method level => { o with compressions := [(method, level)] }

/-- The pending edits: the adds, and the edits of each logical index. -/
structure Edits where
  adds : List PendingAdd
  ops : Nat → EntryOps

/-- The pending edits of a logical index, as the lists of a handle hold them. -/
def opsAt (p : PendingOps) (index : Nat) : EntryOps :=
  { deleted := p.deletes.contains index, renames := valuesAt p.renames index,
    replaces := valuesAt p.replaces index, encryptions := valuesAt p.encryptions index,
    extraFieldOps := valuesAt p.extraFieldOps index, comments := valuesAt p.fileComments index,
    dostimes := valuesAt p.dostimes index, mtimes := valuesAt p.mtimes index,
    extAttrs := valuesAt p.extAttrs index, compressions := valuesAt p.compressions index }

def editsOf (p : PendingOps) : Edits := { adds := p.adds, ops := opsAt p }

/-- What a call does to the pending edits. -/
inductive Effect where
  | keep
  | record (index : Nat) (s : Setting)
  | add (entry : PendingAdd)
  | unchange (index : Nat)
  | clear
  deriving DecidableEq

/-- The entry that an effect edits. -/
def Effect.target : Effect → Option Nat
  | .record index _ => some index
  | .keep | .add _ | .unchange _ | .clear => none

/-- The edits after an effect, on an archive of `n` entries. Removing a pending add moves the adds
after it, but not their edits. -/
def Effect.apply (n : Nat) (e : Edits) : Effect → Edits
  | .keep => e
  | .record index s => { e with ops := Function.update e.ops index ((e.ops index).record s) }
  | .add entry => { e with adds := e.adds ++ [entry] }
  | .unchange index =>
    { adds := if n ≤ index then e.adds.eraseIdx (index - n) else e.adds,
      ops := Function.update e.ops index .none }
  | .clear => { adds := [], ops := fun _ => .none }

section
variable (n : Nat) (e : Edits)

@[simp] theorem Effect.ops_record (i : Nat) (s : Setting) : ((Effect.record i s).apply n e).ops =
    Function.update e.ops i ((e.ops i).record s) := rfl

theorem Effect.ops_record_self (i : Nat) (s : Setting) :
    ((Effect.record i s).apply n e).ops i = (e.ops i).record s := Function.update_self ..

theorem Effect.ops_record_of_ne {i j : Nat} (hj : j ≠ i) (s : Setting) :
    ((Effect.record i s).apply n e).ops j = e.ops j := Function.update_of_ne hj ..

@[simp] theorem Effect.adds_record (i : Nat) (s : Setting) :
    ((Effect.record i s).apply n e).adds = e.adds := rfl

@[simp] theorem Effect.ops_add (entry : PendingAdd) :
    ((Effect.add entry).apply n e).ops = e.ops := rfl

@[simp] theorem Effect.adds_add (entry : PendingAdd) :
    ((Effect.add entry).apply n e).adds = e.adds ++ [entry] := rfl

@[simp] theorem Effect.ops_unchange (i : Nat) :
    ((Effect.unchange i).apply n e).ops = Function.update e.ops i .none := rfl

@[simp] theorem Effect.adds_unchange (i : Nat) : ((Effect.unchange i).apply n e).adds =
    if n ≤ i then e.adds.eraseIdx (i - n) else e.adds := rfl

end

/-- The indices of an effect are those of entries, and only an original entry is deleted, renamed or
replaced. -/
def Effect.Valid (n : Nat) (e : Edits) : Effect → Prop
  | .record index s => index < n + e.adds.length ∧
      (s = .delete ∨ (∃ name, s = .rename name) ∨ (∃ data, s = .replace data) → index < n)
  | .unchange index => index < n + e.adds.length
  | .keep | .add _ | .clear => True

/-- The name that a call was given. -/
def nameArg (name : Option Bytes) : Str := (cStr name).getD []

/-- The bytes of the source that a call was given. -/
def sourceArg (source : Option ZipSource) : Vec :=
  (source.bind fun s => s.takeData.1).getD .nil

/-- What a call does to the pending edits when it succeeds, given the archive as it was opened. -/
def ZipCall.effect (a : Archive) : ZipCall → Effect
  | .fileAdd name source _ =>
    match a.nameLocate (nameArg name) with
    | some index => .record index (.replace (sourceArg source))
    | none => .add { name := nameArg name, data := sourceArg source }
  | .dirAdd name => .add { name := dirName (nameArg name), data := .nil }
  | .delete index => .record index .delete
  | .rename index name => .record index (.rename (nameArg name))
  | .fileReplace index source => .record index (.replace (sourceArg source))
  | .fileSetComment index comment len =>
    .record index (.comment (if len = 0 then none else some (sliceArg comment len.toNat)))
  | .setFileComment index comment len =>
    .record index (.comment (comment.map fun bs => if len < 0 then bs else bs.take len.toNat))
  | .fileExtraFieldSet index id efIdx data len =>
    .record index (.extraField (.set id efIdx (sliceArg data len.toNat)))
  | .fileExtraFieldDelete index efIdx => .record index (.extraField (.delete efIdx))
  | .fileExtraFieldDeleteById index id efIdx => .record index (.extraField (.deleteById id efIdx))
  | .fileSetMtime index mtime => .record index (.mtime mtime)
  | .fileSetDostime index dtime ddate => .record index (.dostime dtime ddate)
  | .fileSetExternalAttributes index opsys attributes => .record index (.extAttrs opsys attributes)
  | .setFileCompression index method flags => .record index (.compression method flags)
  | .fileSetEncryption index method => .record index (.encryption method)
  | .unchange index => .unchange index
  | .unchangeAll => .clear
  | .setArchiveComment .. | .setDefaultPassword _ | .setArchiveFlag .. | .unchangeArchive
  | .openEntry .. | .readEntry .. => .keep

/-- The effects of the calls of a sequence that succeed. -/
def effects (X : Extern) (calls : List ZipCall) (z : Zip) : List Effect :=
  (accepted X calls z).map (·.effect z.archive)

end Kzip.Spec
