import Kzip.Impl.Zip

/-!
# Edit calls

The calls of the C interface that record edits on a handle, and those that take them back. Each
returns its result code, `-1` for a failure, and the handle it leaves behind. A string argument is
the bytes before its NUL, or `none` for a null pointer.
-/

namespace Kzip.Impl

open Lib Lib.Utf8

/-- A call refused with an error code. -/
def Zip.fail (z : Zip) (code : ZipErrorCode) : Int × Zip := (-1, z.setErr code)

/-- An edit: refused on a read-only handle, then with the code of the first failed check. -/
def Zip.edit (z : Zip) (refuse : Option ZipErrorCode) (accepted : Zip) : Int × Zip :=
  if z.readOnly then z.fail .rdonly
  else
    match refuse with
    | some code => z.fail code
    | none => (0, accepted)

/-- The first code whose check fails. -/
def checks : List (Bool × ZipErrorCode) → Option ZipErrorCode
  | [] => none
  | (ok, code) :: rest => if ok then checks rest else some code

/-- A string argument as text. Every call refuses a null pointer and bytes that are not UTF-8
alike. -/
def cStr (p : Option Bytes) : Option Str := p.bind fromUtf8

/-! ## Entries -/

def Zip.fileAdd (z : Zip) (name : Option Bytes) (source : Option ZipSource) (flags : UInt32) :
    Int × Zip × Option ZipSource :=
  if z.readOnly then (-1, z.setErr .rdonly, source)
  else
    match cStr name, source with
    | some name, some src =>
      match src.takeData with
      | (none, src) => (-1, z.setErr .read, some src)
      | (some data, src) =>
        match z.archive.nameLocate name with
        | some idx =>
          if flags &&& zipFlOverwrite ≠ 0 then
            (idx, { z with pending.replaces := pushAt z.pending.replaces idx data }, some src)
          else (-1, z.setErr .exists, some src)
        | none =>
          (z.total, { z with pending.adds := z.pending.adds ++ [{ name, data }] }, some src)
    | _, _ => (-1, z.setErr .inval, source)

/-- The name of a directory entry. -/
def dirName (name : Str) : Str := if name.getLast? = some '/' then name else name ++ ['/']

def Zip.dirAdd (z : Zip) (name : Option Bytes) : Int × Zip :=
  if z.readOnly then z.fail .rdonly
  else
    match cStr name with
    | none => z.fail .inval
    | some name =>
      if (z.archive.nameLocate (dirName name)).isSome then z.fail .exists
      else
        (z.total, { z with
          pending.adds := z.pending.adds ++ [{ name := dirName name, data := .nil }] })

def Zip.delete (z : Zip) (index : Nat) : Int × Zip :=
  z.edit (checks [(index < z.archive.len, .inval)])
    { z with pending.deletes :=
        if index ∈ z.pending.deletes then z.pending.deletes else z.pending.deletes ++ [index] }

def Zip.rename (z : Zip) (index : Nat) (name : Option Bytes) : Int × Zip :=
  match cStr name with
  | none => z.edit (some .inval) z
  | some name => z.edit (checks [(index < z.archive.len, .inval)])
      { z with pending.renames := pushAt z.pending.renames index name }

def Zip.fileReplace (z : Zip) (index : Nat) (source : Option ZipSource) :
    Int × Zip × Option ZipSource :=
  if z.readOnly then (-1, z.setErr .rdonly, source)
  else
    match source with
    | none => (-1, z.setErr .inval, none)
    | some src =>
      if index < z.archive.len then
        match src.takeData with
        | (none, src) => (-1, z.setErr .read, some src)
        | (some data, src) =>
          (0, { z with pending.replaces := pushAt z.pending.replaces index data }, some src)
      else (-1, z.setErr .inval, some src)

/-! ## Metadata -/

/-- The `len` bytes at a pointer. -/
def sliceArg (p : Option Bytes) (len : Nat) : Bytes := (p.getD []).take len

def Zip.setArchiveComment (z : Zip) (comment : Option Bytes) (len : UInt16) : Int × Zip :=
  let bytes := sliceArg comment len.toNat
  z.edit (checks [(comment.isSome || len = 0, .inval)])
    { z with pending.archiveComment := some bytes, archiveComment := commentOverlay bytes }

/-- `set_file_comment_pending`: the edit, and the overlay, which holds what makes a C string. -/
def Zip.setFileCommentPending (z : Zip) (index : Nat) (bytes : Option Bytes) : Zip :=
  { z with
    pending.fileComments := putAt z.pending.fileComments index bytes,
    comments := setSlot z.comments none index
      (bytes.bind fun bs => if bs = [] then none else cString bs) }

def Zip.fileSetComment (z : Zip) (index : Nat) (comment : Option Bytes) (len : UInt16) : Int × Zip :=
  z.edit (checks [(z.validIndex index, .inval), (comment.isSome || len = 0, .inval)])
    (z.setFileCommentPending index
      (if len = 0 then none else some (sliceArg comment len.toNat)))

/-- The older `zip_set_file_comment`: a negative length stands for that of the C string. -/
def Zip.setFileComment (z : Zip) (index : Nat) (comment : Option Bytes) (len : Int) : Int × Zip :=
  z.edit (checks [(z.validIndex index, .inval)])
    (z.setFileCommentPending index (comment.map fun bs => if len < 0 then bs else bs.take len.toNat))

/-- How many fields with an id the overlay of an entry has. -/
def Zip.countById (z : Zip) (index : Nat) (id : UInt16) : Nat :=
  ((z.extraFields[index]?.getD []).filter fun f => f.1 == id).length

/-- Records a mutation of the extra fields, and refreshes the overlay. -/
def Zip.pushExtraFieldOp (z : Zip) (index : Nat) (op : ExtraFieldOp) : Zip :=
  Zip.refreshExtraFields
    { z with pending.extraFieldOps := pushAt z.pending.extraFieldOps index op } index

def Zip.fileExtraFieldSet (z : Zip) (index : Nat) (id efIdx : UInt16) (data : Option Bytes)
    (len : UInt16) : Int × Zip :=
  z.edit (checks [(z.validIndex index, .inval), (id != efWinzipAes && id != extraFieldZip64, .inval),
      (data.isSome || len = 0, .inval),
      (efIdx = zipExtraFieldNew || efIdx.toNat ≤ z.countById index id, .inval)])
    (z.pushExtraFieldOp index (.set id efIdx (sliceArg data len.toNat)))

def Zip.fileExtraFieldDelete (z : Zip) (index : Nat) (efIdx : UInt16) : Int × Zip :=
  z.edit (checks [(z.validIndex index, .inval),
      (efIdx = zipExtraFieldAll || efIdx.toNat < (z.extraFields[index]?.getD []).length, .noent)])
    (z.pushExtraFieldOp index (.delete efIdx))

def Zip.fileExtraFieldDeleteById (z : Zip) (index : Nat) (id efIdx : UInt16) : Int × Zip :=
  z.edit (checks [(z.validIndex index, .inval),
      (id = zipExtraFieldAll || efIdx = zipExtraFieldAll || efIdx.toNat < z.countById index id,
        .noent)])
    (z.pushExtraFieldOp index (.deleteById id efIdx))

def Zip.fileSetMtime (z : Zip) (index : Nat) (mtime : Int) : Int × Zip :=
  z.edit (checks [(z.validIndex index, .inval)])
    { z with pending.mtimes := putAt z.pending.mtimes index mtime }

def Zip.fileSetDostime (z : Zip) (index : Nat) (dtime ddate : UInt16) : Int × Zip :=
  z.edit (checks [(z.validIndex index, .inval)])
    { z with pending.dostimes := putAt z.pending.dostimes index (dtime, ddate) }

def Zip.fileSetExternalAttributes (z : Zip) (index : Nat) (opsys : UInt8) (attributes : UInt32) :
    Int × Zip :=
  z.edit (checks [(z.validIndex index, .inval)])
    { z with pending.extAttrs := putAt z.pending.extAttrs index (opsys, attributes) }

def Zip.setFileCompression (z : Zip) (index : Nat) (method : Int) (flags : UInt32) : Int × Zip :=
  z.edit (checks [(z.validIndex index, .inval),
      (method = zipCmDefault || method = zipCmStore || method = zipCmDeflate, .compnotsupp)])
    { z with pending.compressions := putAt z.pending.compressions index (method, flags) }

def Zip.fileSetEncryption (z : Zip) (index : Nat) (method : UInt16) : Int × Zip :=
  z.edit (checks [(z.validIndex index, .inval),
      (method = encryption.none || method = encryption.tradPkware || method = encryption.aes128 ||
        method = encryption.aes192 || method = encryption.aes256, .encrmethnotsupp)])
    { z with pending.encryptions := putAt z.pending.encryptions index method }

/-! ## The archive -/

def Zip.setDefaultPassword (z : Zip) (password : Option Bytes) : Int × Zip :=
  match password with
  | none => z.fail .inval
  | some pw => (0, { z with password := some pw, archive := z.archive.setDefaultPassword pw })

def Zip.setArchiveFlag (z : Zip) (flag value : Int32) : Int × Zip :=
  if flag = zipAflIsTorrentzip then z.fail .inval
  else
    let newFlags := if value ≠ 0 then z.chAfl ||| flag else z.chAfl &&& ~~~flag
    if newFlags = z.chAfl then (0, z)
    else if z.afl &&& zipAflRdonly ≠ 0 then z.fail .rdonly
    else if flag = zipAflRdonly ∧ value ≠ 0 ∧ z.chAfl &&& zipAflRdonly = 0 ∧ !z.pending.isEmpty then
      z.fail .changed
    else (0, { z with chAfl := newFlags })

/-! ## Taking edits back -/

/-- `unchange_entry`: drops the edits of an entry, and the entry itself if it is a pending add. -/
def unchangeEntry (a : Archive) (p : PendingOps) (index : Nat) : PendingOps :=
  { p with
    deletes := p.deletes.filter (· != index),
    renames := dropAt p.renames index,
    replaces := dropAt p.replaces index,
    encryptions := dropAt p.encryptions index,
    extraFieldOps := dropAt p.extraFieldOps index,
    fileComments := dropAt p.fileComments index,
    dostimes := dropAt p.dostimes index,
    mtimes := dropAt p.mtimes index,
    extAttrs := dropAt p.extAttrs index,
    compressions := dropAt p.compressions index,
    adds := if index ≥ a.len then p.adds.eraseIdx (index - a.len) else p.adds }

def Zip.unchange (z : Zip) (index : Nat) : Int × Zip :=
  if index ≥ z.total then z.fail .inval
  else (0, { z with pending := unchangeEntry z.archive z.pending index })

def Zip.resetArchiveCommentOverlay (z : Zip) : Zip :=
  { z with archiveComment := commentOverlay (asBytes z.archive.comment) }

def Zip.unchangeAll (z : Zip) : Int × Zip :=
  (0, Zip.resetArchiveCommentOverlay { z with pending := .default, chAfl := z.afl })

def Zip.unchangeArchive (z : Zip) : Int × Zip :=
  (0, Zip.resetArchiveCommentOverlay { z with pending.archiveComment := none, chAfl := z.afl })

end Kzip.Impl
