import Kzip.Impl.Cdir
import Kzip.Impl.SharedFile
import Kzip.Lib.Faults

/-!
# The directory of a file

`readCentralDirFile` reads the central directory through an open file, where any operation may fail. A seek or
a read that fails ends the search, except that of the ZIP64 end record: it is taken for missing, and the 32-bit
fields of the end record are used.
-/

namespace Kzip.Impl

open Lib Lib.Utf8

/-- The operations on the file. -/
inductive FileCall where
  | open | tryClone | read | metadata | seek | write | setLen
  deriving DecidableEq

/-- What the system does: which operations fail, by their number; what a failed write leaves of the file; and
where a read that gives nothing leaves the file pointer, which all handles of the file share. -/
structure FileSystem where
  fails : Nat → FileCall → Bool
  maps : Bool
  torn : OsFile → OsFile
  readTo : Nat

structure Disk where
  file : OsFile
  /-- How many operations there were. -/
  calls : Nat
  /-- Those that failed. -/
  faults : List FileCall

/-- Whether an operation failed. -/
def Disk.failed (disk : Disk) : Bool := !disk.faults.isEmpty

abbrev OnDisk := ExceptT Fault (StateM Disk)

section
variable (sys : FileSystem) {α : Type}

/-- A seek or a read. That the file ends, or that the system takes no such offset, is no failure of it. -/
def readCall (call : FileCall) (code : ZipErrorCode) (act : OsFile → Result (α × OsFile)) : OnDisk α :=
  fun disk =>
    let strayed := { disk.file with pos := sys.readTo }
    if sys.fails disk.calls call then
      (.error (.err code), { file := strayed, calls := disk.calls + 1, faults := disk.faults ++ [call] })
    else
      match act disk.file with
      | .ok (a, file) => (.ok a, { disk with file, calls := disk.calls + 1 })
      | .error e => (.error e, { disk with file := strayed, calls := disk.calls + 1 })

/-- `seek` to the start, or to where the file pointer was. -/
def seekBack (pos : Nat) : OnDisk Unit := readCall sys .seek .seek fun f => .ok ((), { f with pos })

/-- `stream_position` -/
def streamPosition : OnDisk Nat := readCall sys .seek .seek fun f => .ok (f.pos, f)

/-- `seek` to `SeekFrom::Start`, with the code that a failure has. -/
def seekStart (code : ZipErrorCode) (pos : Nat) : OnDisk Unit :=
  readCall sys .seek code fun f => if pos < 2 ^ 63 then .ok ((), { f with pos }) else .error (.err code)

/-- `read_exact`; no operation for an empty buffer. -/
def readExactFile (n : Nat) : OnDisk Bytes :=
  if n = 0 then pure []
  else
    readCall sys .read .read fun f =>
      if f.pos + n ≤ f.content.val.length then
        .ok ((f.content.val.drop f.pos).take n, { f with pos := f.pos + n })
      else .error (.err .eof)

/-- Seeks to `pos` and reads exactly `n` bytes. -/
def readAtFile (code : ZipErrorCode) (pos n : Nat) : OnDisk Bytes := do
  seekStart sys code pos
  readExactFile sys n

def sourceLen : OnDisk Nat := do
  let pos ← streamPosition sys
  let len ← readCall sys .seek .seek fun f =>
    .ok (f.content.val.length, { f with pos := f.content.val.length })
  seekBack sys pos
  pure len

/-- The first two bytes. -/
def readHead : OnDisk Bytes := do
  seekBack sys 0
  readCall sys .read .read fun f => .ok (f.read 2 2)

/-- `source_starts_with_pk` -/
def sourceStartsWithPkFile : OnDisk Bool := do
  let pos ← streamPosition sys
  let head ← readHead sys
  seekBack sys pos
  pure (head == [0x50, 0x4B])

/-- The fields of a ZIP64 end record, if it is one. -/
def parseEocd64 (raw : Bytes) : Option Zip64Eocd :=
  if raw.take 4 ≠ magic.eocd64 then none
  else some { cdirSize := le64At raw 40, cdirOffset := le64At raw 48, numEntries := le64At raw 32 }

/-- `read_eocd64`: a record that cannot be read is no record. -/
def readEocd64File (offset : UInt64) : OnDisk (Option Zip64Eocd) := do
  let raw ← attempt (readAtFile sys .seek offset.toNat size.eocd64)
  pure (raw.bind parseEocd64)

/-- The end of the file is an inconsistent directory. -/
def inconsAtEof : Fault → Fault
  | .err .eof => .err .incons
  | e => e

/-- The end of `read_entries`: the records of the region. -/
def parseEntries (numEntries : UInt64) (buf : Bytes) : Result (List Dirent) := do
  let entries ← parseEntriesLoop buf.length buf
  let parsed := entries.length
  if parsed = numEntries.toNat ∨ parsed % 0x10000 = numEntries.toNat then .ok entries
  else .error (.err .incons)

/-- `read_entries` -/
def readEntriesFile (offset cdirSize numEntries : UInt64) : OnDisk (List Dirent) :=
  if cdirSize > maxCdSize then plainly (.error (.err .centralDirTooLarge))
  else do
    let buf ← changeError inconsAtEof (readAtFile sys .seek offset.toNat cdirSize.toNat)
    plainly (parseEntries numEntries buf)

def cdirAtFile (comment : Str) (numEntries : UInt64) (isZip64 : Bool) (cdirSize cdirOffset : UInt64) :
    OnDisk CentralDir := do
  let entries ← readEntriesFile sys cdirOffset cdirSize numEntries
  pure { entries, comment, isZip64, cdirSize, cdirOffset }

def finishCdirFile (comment : Str) (numEntries : UInt16) (isZip64 : Bool) (cdirSize cdirOffset : UInt64) :
    OnDisk CentralDir :=
  if cdirSize = 0 ∧ cdirOffset = 0 ∧ numEntries = 0 then
    pure { entries := [], comment, isZip64, cdirSize := 0, cdirOffset := 0 }
  else cdirAtFile sys comment numEntries.toUInt64 isZip64 cdirSize cdirOffset

/-- An end record: its fields, and the locator before it. -/
structure EndRecord where
  comment : Str
  numEntries : UInt16
  cdirSize : UInt64
  cdirOffset : UInt64
  locator : Option UInt64

/-- The start of `try_parse_cdir`: the end record at `abs`, unless it is passed over. -/
def endRecordAt (tail : Bytes) (tailStart abs : Nat) : Option EndRecord :=
  let rel := abs - tailStart
  if rel + size.eocd > tail.length then none
  else
    let e := (tail.drop rel).take size.eocd
    let thisDisk := le16At e 4
    let eocdDisk := le16At e 6
    let commentLen := (le16At e 20).toNat
    if rel + size.eocd + commentLen > tail.length then none
    else
      let comment := fromUtf8Lossy ((tail.drop (rel + size.eocd)).take commentLen)
      if thisDisk ≠ 0 ∨ eocdDisk ≠ 0 then none
      else
        some { comment, numEntries := le16At e 10, cdirSize := (le32At e 12).toUInt64,
               cdirOffset := (le32At e 16).toUInt64, locator := locatorBefore tail rel }

/-- The end of `try_parse_cdir`. -/
def cdirOfFile (r : EndRecord) : OnDisk CentralDir :=
  match r.locator with
  | none => finishCdirFile sys r.comment r.numEntries false r.cdirSize r.cdirOffset
  | some eocd64Offset => do
    match ← readEocd64File sys eocd64Offset with
    | some z =>
      if r.numEntries = 0xFFFF then cdirAtFile sys r.comment z.numEntries true z.cdirSize z.cdirOffset
      else finishCdirFile sys r.comment r.numEntries true z.cdirSize z.cdirOffset
    | none => finishCdirFile sys r.comment r.numEntries true r.cdirSize r.cdirOffset

/-- The directory of the first end record that is not passed over. -/
def firstCdirFile (tail : Bytes) (tailStart : Nat) : List Nat → OnDisk (Option CentralDir)
  | [] => pure none
  | abs :: rest =>
    match endRecordAt tail tailStart abs with
    | none => firstCdirFile tail tailStart rest
    | some r => do
      let cd ← cdirOfFile sys r
      pure (some cd)

/-- `read_central_dir`, through a cloned handle of the file. -/
def readCentralDirFile : OnDisk CentralDir := do
  let len ← sourceLen sys
  if len < size.eocd then plainly (.error (.err .nozip))
  else do
    let buflen := min len maxCdBuffer
    let tailStart := len - buflen
    let tail ← readAtFile sys .internal tailStart buflen
    match ← firstCdirFile sys tail tailStart (candidates tail tailStart) with
    | some cd => pure cd
    | none =>
      if ← sourceStartsWithPkFile sys then plainly (.error (.err .truncatedZip))
      else plainly (.error (.err .nozip))

end

end Kzip.Impl
