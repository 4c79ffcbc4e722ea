import Kzip.Impl.Archive
import Kzip.Impl.Compress
import Kzip.Lib.Keyed

/-!
# The archive handle

`Zip` is the state behind a handle of the C interface: an open archive, the edits that wait for the
handle to be closed (`PendingOps`), and the overlays from which the getters answer. The edits of an
entry are keyed by its logical index: the original entries first, then the pending adds. The locks of
the source are left out, as no two calls are in flight at once.
-/

namespace Kzip.Impl

open Lib Lib.Utf8

/-! ## Constants -/

def zipRdonly : Int32 := 16
def zipFlOverwrite : UInt32 := 8192
def zipAflRdonly : Int32 := 2
def zipAflIsTorrentzip : Int32 := 4
def zipExtraFieldAll : UInt16 := 0xFFFF
def zipExtraFieldNew : UInt16 := 0xFFFF
def zipCmDefault : Int := -1
def zipCmStore : Int := 0
def zipCmDeflate : Int := 8

/-! ## Pending edits -/

/-- A mutation of the extra fields of an entry. -/
inductive ExtraFieldOp where
  | set (id efIdx : UInt16) (data : Bytes)
  | delete (efIdx : UInt16)
  | deleteById (id efIdx : UInt16)
  deriving DecidableEq, Repr

structure PendingAdd where
  name : Str
  data : Vec
  deriving DecidableEq

structure PendingOps where
  adds : List PendingAdd
  deletes : List Nat
  renames : List (Nat × Str)
  replaces : List (Nat × Vec)
  encryptions : List (Nat × UInt16)
  extraFieldOps : List (Nat × ExtraFieldOp)
  /-- `none` removes the comment. -/
  fileComments : List (Nat × Option Bytes)
  /-- DOS time and date. -/
  dostimes : List (Nat × UInt16 × UInt16)
  /-- Unix seconds. -/
  mtimes : List (Nat × Int)
  /-- Host system and attributes. -/
  extAttrs : List (Nat × UInt8 × UInt32)
  /-- Method and level. -/
  compressions : List (Nat × Int × UInt32)
  archiveComment : Option Bytes
  deriving DecidableEq

def PendingOps.default : PendingOps :=
  { adds := [], deletes := [], renames := [], replaces := [], encryptions := [], extraFieldOps := [],
    fileComments := [], dostimes := [], mtimes := [], extAttrs := [], compressions := [],
    archiveComment := none }

def PendingOps.isEmpty (p : PendingOps) : Bool :=
  p.adds.isEmpty && p.deletes.isEmpty && p.renames.isEmpty && p.replaces.isEmpty &&
    p.encryptions.isEmpty && p.extraFieldOps.isEmpty && p.fileComments.isEmpty &&
    p.dostimes.isEmpty && p.mtimes.isEmpty && p.extAttrs.isEmpty && p.compressions.isEmpty &&
    p.archiveComment.isNone

/-! ## Sources -/

/-- A source of bytes for an entry. -/
inductive ZipSource where
  /-- A buffer in memory. -/
  | memory (data : Vec)
  /-- A callback, or layers over one: what draining it gives, `none` when a read fails. -/
  | callback (content : Option Vec)
  deriving DecidableEq

/-- `take_memory_data`: moves the buffer out of a source in memory. -/
def ZipSource.takeMemoryData : ZipSource → Option Vec × ZipSource
  | .memory data => (some data, .memory .nil)
  | .callback content => (none, .callback content)

/-- `read_all` -/
def ZipSource.readAll : ZipSource → Option Vec
  | .memory data => some data
  | .callback content => content

/-- The bytes of a source that is added, and the source it leaves behind. -/
def ZipSource.takeData (s : ZipSource) : Option Vec × ZipSource :=
  match s.takeMemoryData with
  | (some data, s) => (some data, s)
  | (none, s) => (s.readAll, s)

/-! ## The handle -/

structure Zip where
  archive : Archive
  /-- The comment overlay, by logical index; a C string holds no NUL. -/
  comments : List (Option Bytes)
  /-- The archive-comment overlay, with a NUL at its end. -/
  archiveComment : Option Bytes
  /-- The extra-field overlay, by logical index. -/
  extraFields : List (List ExtraField)
  error : ZipErrorCode
  /-- The flags of `zip_open`. -/
  flags : Int32
  /-- The archive flags, as opened and as changed. -/
  afl : Int32
  chAfl : Int32
  pending : PendingOps
  password : Option Bytes
  deriving DecidableEq

def Archive.len (a : Archive) : Nat := a.entries.length
def Archive.dirent (a : Archive) (index : Nat) : Option Dirent := a.entries[index]?
def Archive.name (a : Archive) (index : Nat) : Option Str := (a.dirent index).map (·.filename)

/-- The extra fields apart from those the writer manages. -/
def withoutManaged (fields : List ExtraField) : List ExtraField :=
  fields.filter fun f => f.1 != extraFieldZip64 && f.1 != efWinzipAes

/-- `CString::new` -/
def cString (bs : Bytes) : Option Bytes := if 0 ∈ bs then none else some bs

/-- The archive comment as its overlay holds it. -/
def commentOverlay (comment : Bytes) : Option Bytes := if comment = [] then none else some (comment ++ [0])

/-- The handle of an archive that was just opened. -/
def makeZip (archive : Archive) (flags : Int32) : Zip :=
  let afl := if flags &&& zipRdonly ≠ 0 then zipAflRdonly else 0
  { archive,
    comments := archive.entries.map fun d =>
      if d.comment = [] then none else cString (asBytes d.comment),
    archiveComment := commentOverlay (asBytes archive.comment),
    extraFields := archive.entries.map fun d => withoutManaged d.extraFields, error := .ok, flags,
    afl, chAfl := afl, pending := .default, password := none }

def Zip.setErr (z : Zip) (code : ZipErrorCode) : Zip := { z with error := code }

/-- Whether `check_writable` refuses. -/
def Zip.readOnly (z : Zip) : Bool := z.flags &&& zipRdonly ≠ 0

/-- The number of logical indices. -/
def Zip.total (z : Zip) : Nat := z.archive.len + z.pending.adds.length

def Zip.validIndex (z : Zip) (index : Nat) : Bool := index < z.total

/-! ## Effective metadata -/

def effectiveComment (a : Archive) (p : PendingOps) (index : Nat) : Option Bytes :=
  match lastAt p.fileComments index with
  | some comment => comment
  | none => (a.dirent index).bind fun d => if d.comment = [] then none else some (asBytes d.comment)

/-- Host system and external attributes. -/
def effectiveExtAttrs (a : Archive) (p : PendingOps) (index : Nat) : Option (UInt8 × UInt32) :=
  match lastAt p.extAttrs index with
  | some attrs => some attrs
  | none => (a.dirent index).map fun d : Dirent => ((d.versionMadeby >>> (8 : UInt16)).toUInt8, d.extAttrib)

/-- The DOS time and date of a Unix timestamp. -/
def unixToDos (X : Extern) (ut : Nat) : UInt16 × UInt16 :=
  let t := X.naiveLocal ut
  let year := if t.year < 1980 then 1980 else t.year
  let dosDate := ((UInt16.ofNat (year - 1980).toNat) <<< 9) ||| ((UInt16.ofNat t.month) <<< 5) |||
    UInt16.ofNat t.day
  let dosTime := ((UInt16.ofNat t.hour) <<< 11) ||| ((UInt16.ofNat t.minute) <<< 5) |||
    ((UInt16.ofNat t.second) >>> 1)
  (dosTime, dosDate)

/-- DOS time and date: a pending mtime comes before a pending DOS time. -/
def effectiveDostime (X : Extern) (a : Archive) (p : PendingOps) (index : Nat) : UInt16 × UInt16 :=
  match lastAt p.mtimes index with
  | some ut => unixToDos X (max ut 0).toNat
  | none =>
    match lastAt p.dostimes index with
    | some t => t
    | none =>
      match a.dirent index with
      | some d => (d.lastModTime, d.lastModDate)
      | none => (0, 0)

/-! ## Extra fields -/

/-- Removes the `n`-th field with an id, if there is one. -/
def removeNth (id : UInt16) : Nat → List ExtraField → List ExtraField
  | _, [] => []
  | n, f :: fs =>
    if f.1 = id then
      match n with
      | 0 => fs
      | n + 1 => f :: removeNth id n fs
    else f :: removeNth id n fs

/-- Replaces the `n`-th field with an id; `none` when there is none. -/
def replaceNth (id : UInt16) (data : Bytes) : Nat → List ExtraField → Option (List ExtraField)
  | _, [] => none
  | n, f :: fs =>
    if f.1 = id then
      match n with
      | 0 => some ((id, data) :: fs)
      | n + 1 => (replaceNth id data n fs).map (f :: ·)
    else (replaceNth id data n fs).map (f :: ·)

def ExtraFieldOp.apply (base : List ExtraField) : ExtraFieldOp → List ExtraField
  | .delete efIdx => if efIdx = zipExtraFieldAll then [] else base.eraseIdx efIdx.toNat
  | .deleteById id efIdx =>
    if id = zipExtraFieldAll ∨ efIdx = zipExtraFieldAll then base.filter fun f => f.1 != id
    else removeNth id efIdx.toNat base
  | .set id efIdx data =>
    if efIdx = zipExtraFieldNew then base ++ [(id, data)]
    else (replaceNth id data efIdx.toNat base).getD (base ++ [(id, data)])

/-- The extra fields of an entry after the pending mutations: what `refresh_extra_fields` puts into
the overlay, and `materialize` writes. -/
def effectiveExtraFields (a : Archive) (p : PendingOps) (index : Nat) : List ExtraField :=
  let base := match a.dirent index with
    | some d => withoutManaged d.extraFields
    | none => []
  (valuesAt p.extraFieldOps index).foldl ExtraFieldOp.apply base

/-- Puts a value into a slot of an overlay, which grows as needed. -/
def setSlot {α : Type} (slots : List α) (empty : α) (index : Nat) (x : α) : List α :=
  (slots ++ List.replicate (index + 1 - slots.length) empty).set index x

def Zip.refreshExtraFields (z : Zip) (index : Nat) : Zip :=
  { z with extraFields :=
      setSlot z.extraFields [] index (effectiveExtraFields z.archive z.pending index) }

end Kzip.Impl
