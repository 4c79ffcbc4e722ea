import Kzip.Impl.Cdir
import Kzip.Impl.Crypto

/-!
# The writer

`compressFiles` compresses each file on its own; `writeCompressed` lays the results out one after
the other, collects their central records and appends the end records. `writeArchive` writes plain
entries, `writeArchiveFull` adds encryption and an archive comment.
-/

namespace Kzip.Impl

open Lib.LE Lib.Utf8

/-- A file to be archived: name, content and the metadata of its entry. -/
structure ArchiveFile where
  name : Str
  data : Vec
  comment : Option Bytes
  extraFields : List ExtraField
  lastModTime : UInt16
  lastModDate : UInt16
  opsys : UInt8
  externalAttributes : UInt32
  /-- Compression method and level in place of those of the options. -/
  method : Option CompressionMethod
  level : Option UInt32
  deriving DecidableEq

def ArchiveFile.new (name : Str) (data : Vec) : ArchiveFile :=
  { name, data, comment := none, extraFields := [], lastModTime := 0, lastModDate := 0, opsys := 3,
    externalAttributes := 0, method := none, level := none }

structure CompressOptions where
  method : CompressionMethod
  level : UInt32
  parallel : Bool
  workers : Nat
  largeFileThreshold : UInt64
  encryptionMethod : UInt16
  deriving DecidableEq

def CompressOptions.default : CompressOptions :=
  { method := .deflate, level := 6, parallel := true, workers := 0,
    largeFileThreshold := 8 * 1024 * 1024, encryptionMethod := 0 }

/-- A compressed file, with what its headers record. -/
structure CompressedFile where
  name : Str
  /-- The on-disk value of the compression method. -/
  method : UInt16
  crc : UInt32
  compSize : UInt64
  uncompSize : UInt64
  data : Vec
  encryptionMethod : UInt16
  comment : Option Bytes
  extraFields : List ExtraField
  lastModTime : UInt16
  lastModDate : UInt16
  opsys : UInt8
  externalAttributes : UInt32
  deriving DecidableEq

/-! ## Compression -/

section
variable (X : Extern)

def compressBytes (data : Vec) (method : CompressionMethod) (level : UInt32) : Result Vec :=
  match method with
  | .store => .ok data
  | .deflate =>
    match X.deflate (min level 9) data.val with
    | some c => Vec.ofBytes c
    | none => .error (.err .write)
  | .bzip2 | .unsupported _ => .error (.err .compnotsupp)

def compressFile (opts : CompressOptions) (file : ArchiveFile) : Result CompressedFile := do
  let method := file.method.getD opts.method
  let level := file.level.getD opts.level
  let data ← compressBytes X file.data method level
  .ok { name := file.name, method := methodToU16 method, crc := X.crc32 file.data.val,
        compSize := UInt64.ofNat data.val.length, uncompSize := UInt64.ofNat file.data.val.length,
        data, encryptionMethod := encryption.none, comment := file.comment,
        extraFields := file.extraFields, lastModTime := file.lastModTime,
        lastModDate := file.lastModDate, opsys := file.opsys,
        externalAttributes := file.externalAttributes }

/-- The files compressed in input order. The parallel dispatch of the source collects into indexed
slots, so it gives this list too. -/
def compressFiles (files : List ArchiveFile) (opts : CompressOptions) :
    Result (List CompressedFile) :=
  files.mapM (compressFile X opts)

/-- Replaces the data of the entry at `index` by its encryption under a method. -/
def encryptFile (password : Bytes) (index : Nat) (cf : CompressedFile) (em : UInt16) :
    Result CompressedFile :=
  if em = encryption.none then .ok cf
  else if em = encryption.tradPkware then do
    let data ← Vec.ofBytes (encryptData password cf.crc cf.data.val)
    .ok { cf with data, compSize := UInt64.ofNat data.val.length,
                  encryptionMethod := encryption.tradPkware }
  else if isAesMethod em then do
    let salt := (X.randomSalt index (aesSaltLength em)).toList
    let data ← Vec.ofBytes (aesEncryptData X password em cf.data.val salt)
    .ok { cf with data, compSize := UInt64.ofNat data.val.length, encryptionMethod := em }
  else .error (.err .encrmethnotsupp)

/-- Encrypts the entries, each with its own method; an empty list of methods is no encryption. -/
def encryptFiles (password : Bytes) (methods : List UInt16) (compressed : List CompressedFile) :
    Result (List CompressedFile) :=
  if methods = [] then .ok compressed
  else if methods.length ≠ compressed.length then .error (.err .inval)
  else (compressed.zip methods).zipIdx.mapM fun c => encryptFile X password c.2 c.1.1 c.1.2

end

/-! ## Headers -/

def needsZip64Sizes (cf : CompressedFile) : Bool :=
  cf.compSize > u32Max || cf.uncompSize > u32Max

def CompressedFile.isAes (cf : CompressedFile) : Bool := isAesMethod cf.encryptionMethod

def onDiskMethod (cf : CompressedFile) : UInt16 :=
  if cf.isAes then zipCmWinzipAes else cf.method

/-- The bit flags both headers carry. -/
def CompressedFile.flags (cf : CompressedFile) : UInt16 :=
  if cf.encryptionMethod ≠ 0 then
    if cf.isAes then flag.encrypted ||| flag.dataDescriptor else flag.encrypted
  else 0

def CompressedFile.versionNeeded (cf : CompressedFile) (entryZip64 : Bool) : UInt16 :=
  if cf.isAes then 51 else if entryZip64 then 45 else 20

/-- The CRC both headers carry; none is stored for an AES entry. -/
def CompressedFile.storedCrc (cf : CompressedFile) : UInt32 := if cf.isAes then 0 else cf.crc

/-- The WinZip AES extra field of an AES entry. -/
def aesExtraField (cf : CompressedFile) : Option Bytes :=
  if cf.isAes then
    some [le16 efWinzipAes, le16 (UInt16.ofNat efWinzipAesSize), le16 2, [0x41, 0x45],
      [aesStrength cf.encryptionMethod], le16 cf.method].flatten
  else none

/-- The data of the ZIP64 extra field: the sizes that overflow, and in a central record the offset
if it does. -/
def zip64ExtraData (cf : CompressedFile) (central : Bool) (offset : UInt64) : Bytes :=
  [if cf.uncompSize > u32Max then le64 cf.uncompSize else [],
    if cf.compSize > u32Max then le64 cf.compSize else [],
    if central ∧ offset > u32Max then le64 offset else []].flatten

/-- The extra fields of a header: those of the user except the ids the writer manages, then the AES
and the ZIP64 field. -/
def buildExtra (cf : CompressedFile) (entryZip64 central : Bool) (offset : UInt64) :
    Result Bytes := do
  let user ← (cf.extraFields.filter fun f => f.1 != efWinzipAes && f.1 != extraFieldZip64).foldlM
    appendExtraField []
  let extra := user ++ (aesExtraField cf).getD []
  if entryZip64 then
    let data := zip64ExtraData cf central offset
    if data ≠ [] then do
      let len ← tryU16 data.length
      .ok (extra ++ [le16 extraFieldZip64, le16 len, data].flatten)
    else .ok extra
  else .ok extra

def writeLocalHeader (cf : CompressedFile) (out : Bytes) (entryZip64 : Bool) : Result Bytes := do
  let extra ← buildExtra cf entryZip64 false 0
  let extraLen ← tryU16 extra.length
  let compSize : UInt32 := if entryZip64 then 0xFFFFFFFF else cf.compSize.toUInt32
  let uncompSize : UInt32 := if entryZip64 then 0xFFFFFFFF else cf.uncompSize.toUInt32
  .ok (out ++ [magic.localHeader, le16 (cf.versionNeeded entryZip64), le16 cf.flags,
    le16 (onDiskMethod cf), le16 cf.lastModTime, le16 cf.lastModDate, le32 cf.storedCrc,
    le32 compSize, le32 uncompSize, le16 (UInt16.ofNat (asBytes cf.name).length), le16 extraLen,
    asBytes cf.name, extra].flatten)

/-- The fixed part of the central record of an entry. -/
def centralFixed (cf : CompressedFile) (offset : UInt64) (extraLen commentLen : UInt16) :
    CentralFixed :=
  let versionNeeded := cf.versionNeeded (needsZip64Sizes cf || offset > u32Max)
  { versionMadeby := (cf.opsys.toUInt16 <<< 8) ||| versionNeeded, versionNeeded,
    bitflags := cf.flags, compMethodRaw := onDiskMethod cf, lastModTime := cf.lastModTime,
    lastModDate := cf.lastModDate, crc := cf.storedCrc, compSize32 := sentinel32 cf.compSize,
    uncompSize32 := sentinel32 cf.uncompSize,
    filenameLen := UInt16.ofNat (asBytes cf.name).length, extraLen, commentLen, diskNumber := 0,
    intAttrib := 0, extAttrib := cf.externalAttributes, offset32 := sentinel32 offset }

def writeCentralEntry (cf : CompressedFile) (offset : UInt64) (cdir : Bytes) : Result Bytes := do
  let extra ← buildExtra cf (needsZip64Sizes cf || offset > u32Max) true offset
  let extraLen ← tryU16 extra.length
  let comment := cf.comment.getD []
  let commentLen ← tryU16 comment.length
  .ok (cdir ++ (centralFixed cf offset extraLen commentLen).record (asBytes cf.name) extra comment)

def writeDataDescriptor (cf : CompressedFile) (zip64 : Bool) (out : Bytes) : Bytes :=
  out ++ [magic.dataDescriptor, le32 0,
    if zip64 then le64 cf.compSize ++ le64 cf.uncompSize
    else le32 cf.compSize.toUInt32 ++ le32 cf.uncompSize.toUInt32].flatten

/-! ## The archive -/

/-- The state of the loop of `write_compressed`. -/
structure WriteState where
  out : Bytes
  cdir : Bytes
  localOffsets : List UInt64

/-- One step of the loop of `write_compressed`. -/
def writeEntry (s : WriteState) (cf : CompressedFile) : Result WriteState := do
  let offset := UInt64.ofNat s.out.length
  let entryZip64 := needsZip64Sizes cf
  let out ← writeLocalHeader cf s.out entryZip64
  let out := out ++ cf.data.val
  let out := if cf.isAes then writeDataDescriptor cf entryZip64 out else out
  let cdir ← writeCentralEntry cf offset s.cdir
  .ok { out, cdir, localOffsets := s.localOffsets ++ [offset] }

/-- The loop of `write_compressed`. -/
def writeEntries (compressed : List CompressedFile) : Result WriteState :=
  compressed.foldlM writeEntry { out := [], cdir := [], localOffsets := [] }

def WriteState.cdirOffset (s : WriteState) : UInt64 := UInt64.ofNat s.out.length
def WriteState.cdirSize (s : WriteState) : UInt64 := UInt64.ofNat s.cdir.length

/-- Whether the writer puts the ZIP64 end records. -/
def WriteState.needZip64 (s : WriteState) (compressed : List CompressedFile) : Bool :=
  compressed.length > 0xFFFF || s.cdirSize > u32Max || s.cdirOffset > u32Max ||
    (compressed.zip s.localOffsets).any fun c => needsZip64Sizes c.1 || c.2 > u32Max

def writeCompressed (X : Extern) (compressed : List CompressedFile) (archiveComment : Bytes) :
    Result Vec := do
  let s ← writeEntries compressed
  let out ← writeEndRecords X (s.needZip64 compressed) compressed.length s.cdirSize s.cdirOffset
    archiveComment (s.out ++ s.cdir)
  Vec.ofBytes out

section
variable (X : Extern)

def writeArchive (files : List ArchiveFile) (opts : CompressOptions) : Result Vec := do
  let compressed ← compressFiles X files opts
  writeCompressed X compressed []

def writeArchiveFull (files : List ArchiveFile) (opts : CompressOptions) (password : Bytes)
    (methods : List UInt16) (archiveComment : Bytes) : Result Vec := do
  let compressed ← compressFiles X files opts
  let compressed ← encryptFiles X password methods compressed
  writeCompressed X compressed archiveComment

/-- The files compressed, then encrypted: there is a method for each file. -/
def encryptedFiles (files : List ArchiveFile) (opts : CompressOptions) (password : Bytes)
    (methods : List UInt16) : Result (List CompressedFile) := do
  let compressed ← compressFiles X files opts
  if methods.length ≠ compressed.length then .error (.err .inval)
  else (compressed.zip methods).zipIdx.mapM fun c => encryptFile X password c.2 c.1.1 c.1.2

def writeArchiveEncryptedMethods (files : List ArchiveFile) (opts : CompressOptions)
    (password : Bytes) (methods : List UInt16) : Result Vec := do
  let compressed ← encryptedFiles X files opts password methods
  writeCompressed X compressed []

end

end Kzip.Impl
