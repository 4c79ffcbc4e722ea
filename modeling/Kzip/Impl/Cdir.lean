import Kzip.Impl.Dirent
import Kzip.Impl.Source

/-!
# The central directory

Reading: `readCentralDir` searches the end of the source backwards for an end-of-central-directory
record that `tryParseCdir` accepts. Writing: the end records, and `CentralDir.serialize`.
-/

namespace Kzip.Impl

open Lib Lib.LE Lib.Utf8

/-- A parsed central directory. -/
structure CentralDir where
  entries : List Dirent
  comment : Str
  isZip64 : Bool
  cdirSize : UInt64
  cdirOffset : UInt64
  deriving DecidableEq, Repr

/-! ## Writing -/

def writeEocd64 (numEntries cdirSize cdirOffset : UInt64) (out : Bytes) : Bytes :=
  out ++ [magic.eocd64, le64 44, le16 45, le16 45, le32 0, le32 0, le64 numEntries,
    le64 numEntries, le64 cdirSize, le64 cdirOffset].flatten

def writeEocd64Locator (zip64EocdOffset : UInt64) (out : Bytes) : Bytes :=
  out ++ [magic.eocd64Locator, le32 0, le64 zip64EocdOffset, le32 1].flatten

/-- A regular end record whose counts, size and offset are the ZIP64 sentinels. -/
def writeEocdZip64Sentinel (comment out : Bytes) : Bytes :=
  out ++ [magic.eocd, le16 0, le16 0, le16 0xFFFF, le16 0xFFFF, le32 0xFFFFFFFF, le32 0xFFFFFFFF,
    le16 (UInt16.ofNat comment.length), comment].flatten

def writeEocd (numEntries : UInt16) (cdirSize cdirOffset : UInt64) (comment out : Bytes) : Bytes :=
  out ++ [magic.eocd, le16 0, le16 0, le16 numEntries, le16 numEntries, le32 cdirSize.toUInt32,
    le32 cdirOffset.toUInt32, le16 (UInt16.ofNat comment.length), comment].flatten

/-- What both serializers put after the central directory of `numEntries` records. -/
def writeEndRecords (X : Extern) (needZip64 : Bool) (numEntries : Nat) (cdirSize cdirOffset : UInt64)
    (comment out : Bytes) : Result Bytes :=
  if needZip64 then do
    let zip64EocdOffset ← addU64 X cdirOffset cdirSize
    .ok (writeEocdZip64Sentinel comment (writeEocd64Locator zip64EocdOffset
      (writeEocd64 (UInt64.ofNat numEntries) cdirSize cdirOffset out)))
  else .ok (writeEocd (UInt16.ofNat numEntries) cdirSize cdirOffset comment out)

/-- The records of the entries, one after the other. -/
def serializeEntries (entries : List Dirent) : Result Bytes :=
  entries.foldlM (fun cdir e => do .ok (cdir ++ (← e.toCentralRecord))) []

/-- Whether the serialized directory needs the ZIP64 records. -/
def CentralDir.needZip64 (cd : CentralDir) (cdirSize : UInt64) : Bool :=
  cd.isZip64 || cd.entries.length > 0xFFFF || cdirSize > u32Max || cd.cdirOffset > u32Max ||
    cd.entries.any Dirent.needsZip64

def CentralDir.serialize (X : Extern) (cd : CentralDir) : Result Bytes := do
  let cdir ← serializeEntries cd.entries
  let cdirSize := UInt64.ofNat cdir.length
  writeEndRecords X (cd.needZip64 cdirSize) cd.entries.length cdirSize cd.cdirOffset
    (asBytes cd.comment) cdir

/-! ## Reading -/

def le16At (bs : Bytes) (i : Nat) : UInt16 := u16 ((bs.drop i).take 2)
def le32At (bs : Bytes) (i : Nat) : UInt32 := u32 ((bs.drop i).take 4)
def le64At (bs : Bytes) (i : Nat) : UInt64 := u64 ((bs.drop i).take 8)

structure Zip64Eocd where
  cdirSize : UInt64
  cdirOffset : UInt64
  numEntries : UInt64

/-- The ZIP64 end record at `offset`, if there is one. -/
def readEocd64 (src : Source) (offset : UInt64) : Option Zip64Eocd :=
  if src.canSeek offset.toNat then
    match src.readExact offset.toNat size.eocd64 with
    | none => none
    | some raw =>
      if raw.take 4 ≠ magic.eocd64 then none
      else some { cdirSize := le64At raw 40, cdirOffset := le64At raw 48, numEntries := le64At raw 32 }
  else none

/-- The loop of `read_entries`: records until the buffer ends or one is refused. -/
def parseEntriesLoop : Nat → Bytes → Result (List Dirent)
  | 0, _ => .ok []
  | _ + 1, [] => .ok []
  | n + 1, b :: bs =>
    match Dirent.parseCentral (b :: bs) with
    | .ok (d, rest) => do .ok (d :: (← parseEntriesLoop n rest))
    | .error .panic => .error .panic
    | .error (.err _) => .ok []

def readEntries (src : Source) (offset cdirSize numEntries : UInt64) : Result (List Dirent) :=
  if cdirSize > maxCdSize then .error (.err .centralDirTooLarge)
  else if !src.canSeek offset.toNat then .error (.err .seek)
  else
    match src.readExact offset.toNat cdirSize.toNat with
    | none => .error (.err .incons)
    | some buf => do
      let entries ← parseEntriesLoop buf.length buf
      let parsed := entries.length
      if parsed = numEntries.toNat ∨ parsed % 0x10000 = numEntries.toNat then .ok entries
      else .error (.err .incons)

/-- The offset in the ZIP64 locator directly before position `rel`, if there is a locator. -/
def locatorBefore (tail : Bytes) (rel : Nat) : Option UInt64 :=
  if size.eocd64Locator ≤ rel ∧
      (tail.drop (rel - size.eocd64Locator)).take 4 = magic.eocd64Locator then
    some (le64At (tail.drop (rel - size.eocd64Locator)) 8)
  else none

/-- The directory of `numEntries` records at `cdirOffset`. -/
def cdirAt (src : Source) (comment : Str) (numEntries : UInt64) (isZip64 : Bool)
    (cdirSize cdirOffset : UInt64) : Result CentralDir := do
  let entries ← readEntries src cdirOffset cdirSize numEntries
  .ok { entries, comment, isZip64, cdirSize, cdirOffset }

/-- The end of `try_parse_cdir`: an archive whose end record is all zero is empty. -/
def finishCdir (src : Source) (comment : Str) (numEntries : UInt16) (isZip64 : Bool)
    (cdirSize cdirOffset : UInt64) : Result CentralDir :=
  if cdirSize = 0 ∧ cdirOffset = 0 ∧ numEntries = 0 then
    .ok { entries := [], comment, isZip64, cdirSize := 0, cdirOffset := 0 }
  else cdirAt src comment numEntries.toUInt64 isZip64 cdirSize cdirOffset

/-- The directory of an end record, given its fields and the locator before it. -/
def cdirOf (src : Source) (comment : Str) (numEntries : UInt16) (cdirSize cdirOffset : UInt64)
    (locator : Option UInt64) : Result CentralDir :=
  match locator with
  | none => finishCdir src comment numEntries false cdirSize cdirOffset
  | some eocd64Offset =>
    match readEocd64 src eocd64Offset with
    | some z =>
      if numEntries = 0xFFFF then cdirAt src comment z.numEntries true z.cdirSize z.cdirOffset
      else finishCdir src comment numEntries true z.cdirSize z.cdirOffset
    | none => finishCdir src comment numEntries true cdirSize cdirOffset

/-- The directory of the end record at `abs`; `none` is to keep searching. -/
def tryParseCdir (src : Source) (tail : Bytes) (tailStart abs : Nat) :
    Result (Option CentralDir) :=
  let rel := abs - tailStart
  if rel + size.eocd > tail.length then .ok none
  else
    let e := (tail.drop rel).take size.eocd
    let thisDisk := le16At e 4
    let eocdDisk := le16At e 6
    let numEntries := le16At e 10
    let cdirSize := (le32At e 12).toUInt64
    let cdirOffset := (le32At e 16).toUInt64
    let commentLen := (le16At e 20).toNat
    if rel + size.eocd + commentLen > tail.length then .ok none
    else
      let comment := fromUtf8Lossy ((tail.drop (rel + size.eocd)).take commentLen)
      if thisDisk ≠ 0 ∨ eocdDisk ≠ 0 then .ok none
      else (cdirOf src comment numEntries cdirSize cdirOffset (locatorBefore tail rel)).map some

/-- The directory of the first candidate that parses. -/
def firstCdir (src : Source) (tail : Bytes) (tailStart : Nat) :
    List Nat → Result (Option CentralDir)
  | [] => .ok none
  | abs :: rest => do
    match ← tryParseCdir src tail tailStart abs with
    | some cd => .ok (some cd)
    | none => firstCdir src tail tailStart rest

/-- The positions of the end-record signatures in the tail, last first. -/
def candidates (tail : Bytes) (tailStart : Nat) : List Nat :=
  ((List.range (tail.length - size.eocd + 1)).reverse.filter fun i =>
    (tail.drop i).take 4 == magic.eocd).map (tailStart + ·)

/-- Whether the source starts with `PK`. -/
def sourceStartsWithPk (src : Source) : Bool := src.bytes.take 2 == [0x50, 0x4B]

def readCentralDir (src : Source) : Result CentralDir :=
  let len := src.bytes.length
  if len < size.eocd then .error (.err .nozip)
  else
    let tailStart := len - min len maxCdBuffer
    let tail := src.bytes.drop tailStart
    do
      match ← firstCdir src tail tailStart (candidates tail tailStart) with
      | some cd => .ok cd
      | none =>
        if sourceStartsWithPk src then .error (.err .truncatedZip) else .error (.err .nozip)

end Kzip.Impl
