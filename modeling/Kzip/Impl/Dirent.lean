import Kzip.Lib.Cursor
import Kzip.Lib.Utf8
import Kzip.Impl.Constant
import Kzip.Impl.Extern

/-!
# Directory entries

The entry record (`Dirent`), its parser `Dirent.parseCentral` and its serializer
`Dirent.toCentralRecord`. The fixed part of a central record is `CentralFixed`; both serializers of
central records write it with `CentralFixed.record`.
-/

namespace Kzip.Impl

open Lib Lib.LE Lib.Utf8

/-- An extra-field record: id and data. -/
abbrev ExtraField := UInt16 × Bytes

/-- One step of the loop of `serialize_extra_fields`. -/
def appendExtraField (out : Bytes) (f : ExtraField) : Result Bytes := do
  let len ← tryU16 f.2.length
  .ok (out ++ [le16 f.1, le16 len, f.2].flatten)

/-- The raw form of a list of extra fields, which must fit a `u16` length. -/
def serializeExtraFields (fields : List ExtraField) : Result Bytes := do
  let out ← fields.foldlM appendExtraField []
  if out.length > 0xFFFF then .error (.err .eftoolarge) else .ok out

/-- The loop of `parse_extra_fields`; a tail shorter than an id and a length is ignored. -/
def parseExtraFieldsLoop : Nat → Bytes → Result (List ExtraField)
  | 0, _ => .ok []
  | n + 1, raw =>
    if raw.length < 4 then .ok []
    else
      let id := u16 (raw.take 2)
      let len := (u16 ((raw.drop 2).take 2)).toNat
      let data := raw.drop 4
      if data.length < len then .error (.err .incons)
      else do
        let out ← parseExtraFieldsLoop n (data.drop len)
        .ok ((id, data.take len) :: out)

def parseExtraFields (raw : Bytes) : Result (List ExtraField) :=
  parseExtraFieldsLoop raw.length raw

/-- A round of the loop of `parse_extra_fields`, at a position of the cursor and with the fields read
so far. -/
def parseExtraFieldsRound (raw : Bytes) (c : Nat × List ExtraField) :
    (Nat × List ExtraField) ⊕ Result (List ExtraField) :=
  if raw.length < c.1 + 4 then .inr (.ok c.2)
  else
    let id := u16 ((raw.drop c.1).take 2)
    let len := (u16 ((raw.drop (c.1 + 2)).take 2)).toNat
    let start := c.1 + 4
    if raw.length < start + len then .inr (.error (.err .incons))
    else .inl (start + len, c.2 ++ [(id, (raw.drop start).take len)])

/-- The data of the first ZIP64 extra field. -/
def zip64Data (fields : List ExtraField) : Option Bytes :=
  (fields.find? fun f => f.1 == extraFieldZip64).map (·.2)

/-- The ZIP64 extra field of the values that overflow their fields, if any does. -/
def buildZip64Extra (compSize uncompSize offset : UInt64) (disk : UInt32) : Option Bytes :=
  let needUncomp := decide (uncompSize > u32Max)
  let needComp := decide (compSize > u32Max)
  let needOffset := decide (offset > u32Max)
  let needDisk := decide (disk > 0xFFFF)
  if !(needUncomp || needComp || needOffset || needDisk) then none
  else
    let data := [if needUncomp then le64 uncompSize else [],
      if needComp then le64 compSize else [],
      if needOffset then le64 offset else [],
      if needDisk then le32 disk else []].flatten
    some [le16 extraFieldZip64, le16 (UInt16.ofNat data.length), data].flatten

def aesMethodFromStrength (strength : UInt8) : UInt16 :=
  if strength = 1 then encryption.aes128
  else if strength = 2 then encryption.aes192
  else if strength = 3 then encryption.aes256
  else encryption.unknown

def isAesMethod (method : UInt16) : Bool :=
  method == encryption.aes128 || method == encryption.aes192 || method == encryption.aes256

/-- The WinZip AES extra field: encryption method, actual compression method, version. -/
def parseAesExtra (fields : List ExtraField) : Option (UInt16 × CompressionMethod × UInt16) :=
  match fields.find? fun f => f.1 == efWinzipAes with
  | none => none
  | some (_, data) =>
    if data.length < efWinzipAesSize then none
    else if (data.drop 2).take 2 ≠ [0x41, 0x45] then none
    else
      let version := u16 (data.take 2)
      let enc := aesMethodFromStrength (data.getD 4 0)
      let method := u16 ((data.drop 5).take 2)
      if enc = encryption.unknown then none else some (enc, .fromU16 method, version)

/-- A parsed directory entry. -/
structure Dirent where
  versionMadeby : UInt16
  versionNeeded : UInt16
  bitflags : UInt16
  compMethod : CompressionMethod
  lastModTime : UInt16
  lastModDate : UInt16
  crc : UInt32
  compSize : UInt64
  uncompSize : UInt64
  filename : Str
  comment : Str
  diskNumber : UInt32
  intAttrib : UInt16
  extAttrib : UInt32
  offset : UInt64
  /-- Where the data begins, once a reader has been opened. -/
  dataOffset : Option Nat
  encryptionMethod : UInt16
  /-- Whether the stored CRC is real (it is not for AE-2 entries). -/
  crcValid : Bool
  extraFields : List ExtraField
  deriving DecidableEq, Repr

/-- The fixed fields of a central record, after its signature. -/
structure CentralFixed where
  versionMadeby : UInt16
  versionNeeded : UInt16
  bitflags : UInt16
  compMethodRaw : UInt16
  lastModTime : UInt16
  lastModDate : UInt16
  crc : UInt32
  compSize32 : UInt32
  uncompSize32 : UInt32
  filenameLen : UInt16
  extraLen : UInt16
  commentLen : UInt16
  diskNumber : UInt16
  intAttrib : UInt16
  extAttrib : UInt32
  offset32 : UInt32

/-- `read16` and `read32` on a fixed header; running short of bytes fails an `expect`. -/
def read16 : Cursor Fault UInt16 := Cursor.u16 .panic
def read32 : Cursor Fault UInt32 := Cursor.u32 .panic

def CentralFixed.read : Cursor Fault CentralFixed := do
  let versionMadeby ← read16
  let versionNeeded ← read16
  let bitflags ← read16
  let compMethodRaw ← read16
  let lastModTime ← read16
  let lastModDate ← read16
  let crc ← read32
  let compSize32 ← read32
  let uncompSize32 ← read32
  let filenameLen ← read16
  let extraLen ← read16
  let commentLen ← read16
  let diskNumber ← read16
  let intAttrib ← read16
  let extAttrib ← read32
  let offset32 ← read32
  pure { versionMadeby, versionNeeded, bitflags, compMethodRaw, lastModTime, lastModDate, crc,
         compSize32, uncompSize32, filenameLen, extraLen, commentLen, diskNumber, intAttrib,
         extAttrib, offset32 }

/-- The bytes of the fixed fields. -/
def CentralFixed.bytes (f : CentralFixed) : Bytes :=
  [le16 f.versionMadeby, le16 f.versionNeeded, le16 f.bitflags, le16 f.compMethodRaw,
    le16 f.lastModTime, le16 f.lastModDate, le32 f.crc, le32 f.compSize32, le32 f.uncompSize32,
    le16 f.filenameLen, le16 f.extraLen, le16 f.commentLen, le16 f.diskNumber, le16 f.intAttrib,
    le32 f.extAttrib, le32 f.offset32].flatten

/-- A central record: signature, fixed fields, name, extra fields, comment. -/
def CentralFixed.record (f : CentralFixed) (filename extra comment : Bytes) : Bytes :=
  [magic.central, f.bytes, filename, extra, comment].flatten

/-- `read_raw` -/
def readRaw (len : Nat) : Cursor Fault Bytes := Cursor.take len (.err .eof)

/-- `read_bytes`: a string of `len` bytes, decoded lossily. -/
def readBytes (len : Nat) : Cursor Fault Str := do
  let buf ← Cursor.take len (.err .eof)
  pure (fromUtf8Lossy buf)

/-- The values of the fields that a ZIP64 extra field can hold, in its order. -/
structure Zip64Values where
  uncompSize : UInt64
  compSize : UInt64
  offset : UInt64
  disk : UInt32
  deriving DecidableEq, Repr

/-- Reads the fields whose value in the fixed part is the sentinel. -/
def CentralFixed.readZip64 (f : CentralFixed) : Cursor Fault Zip64Values := do
  let uncompSize ← Cursor.readIf (f.uncompSize32 == zip64Magic32) (Cursor.u64 (.err .incons))
    f.uncompSize32.toUInt64
  let compSize ← Cursor.readIf (f.compSize32 == zip64Magic32) (Cursor.u64 (.err .incons))
    f.compSize32.toUInt64
  let offset ← Cursor.readIf (f.offset32 == zip64Magic32) (Cursor.u64 (.err .incons))
    f.offset32.toUInt64
  let disk ← Cursor.readIf (f.diskNumber == 0xFFFF) (Cursor.u32 (.err .incons))
    f.diskNumber.toUInt32
  pure { uncompSize, compSize, offset, disk }

/-- Sizes, offset and disk number of a record, with its ZIP64 data where there are any. -/
def CentralFixed.zip64Overrides (f : CentralFixed) : Option Bytes → Result Zip64Values
  | none => .ok { uncompSize := f.uncompSize32.toUInt64, compSize := f.compSize32.toUInt64,
                  offset := f.offset32.toUInt64, disk := f.diskNumber.toUInt32 }
  | some z64 => (f.readZip64 z64).map (·.1)

/-- Compression method, encryption method and whether the CRC is real, from the method field, the
flags and the AES extra field. -/
def resolveMethod (raw bitflags : UInt16) (extra : List ExtraField) :
    CompressionMethod × UInt16 × Bool :=
  if raw = zipCmWinzipAes then
    match parseAesExtra extra with
    | some (enc, actual, version) => (actual, enc, version == 1)
    | none => (.unsupported zipCmWinzipAes.toUInt32.toInt32, encryption.unknown, false)
  else
    let encryptionMethod :=
      if bitflags &&& flag.encrypted ≠ 0 then
        if bitflags &&& flag.strongEncryption ≠ 0 then encryption.unknown
        else encryption.tradPkware
      else encryption.none
    (.fromU16 raw, encryptionMethod, true)

/-- `s.contains("..")` -/
def containsDotDot : Str → Bool
  | '.' :: '.' :: _ => true
  | _ :: s => containsDotDot s
  | [] => false

/-- The path traversal guard: names with `..` in them and absolute names are refused. -/
def pathTraversal (filename : Str) : Bool :=
  containsDotDot filename || filename.head? == some '/' || filename.head? == some '\\'

/-- The entry of a central record, from its fixed fields and its three variable parts. -/
def Dirent.ofCentral (f : CentralFixed) (filename : Str) (extraRaw : Bytes) (comment : Str) :
    Result Dirent := do
  let extraFields ← parseExtraFields extraRaw
  let v ← f.zip64Overrides (zip64Data extraFields)
  let (compMethod, encryptionMethod, crcValid) :=
    resolveMethod f.compMethodRaw f.bitflags extraFields
  let d : Dirent :=
    { versionMadeby := f.versionMadeby, versionNeeded := f.versionNeeded, bitflags := f.bitflags,
      compMethod, lastModTime := f.lastModTime, lastModDate := f.lastModDate, crc := f.crc,
      compSize := v.compSize, uncompSize := v.uncompSize, filename, comment, diskNumber := v.disk,
      intAttrib := f.intAttrib, extAttrib := f.extAttrib, offset := v.offset, dataOffset := none,
      encryptionMethod, crcValid, extraFields }
  if pathTraversal filename then .error (.err .incons) else .ok d

/-- Parses the central record a byte list starts with. -/
def Dirent.parseCentral : Cursor Fault Dirent := do
  let raw ← Cursor.take size.central (.err .nozip)
  if raw.take 4 ≠ magic.central then throw (.err .nozip)
  else do
    let f ← Cursor.within (raw.drop 4) CentralFixed.read
    let filename ← readBytes f.filenameLen.toNat
    let extraRaw ← readRaw f.extraLen.toNat
    let comment ← readBytes f.commentLen.toNat
    Cursor.lift (Dirent.ofCentral f filename extraRaw comment)

def Dirent.needsZip64 (d : Dirent) : Bool :=
  d.compSize > u32Max || d.uncompSize > u32Max || d.offset > u32Max || d.diskNumber > 0xFFFF

/-- A 64-bit value in a 32-bit field: the sentinel when it overflows. -/
def sentinel32 (v : UInt64) : UInt32 := if v > u32Max then zip64Magic32 else v.toUInt32

/-- A 32-bit disk number in a 16-bit field. -/
def sentinel16 (v : UInt32) : UInt16 := if v > 0xFFFF then 0xFFFF else v.toUInt16

/-- The fixed part of the central record of an entry. -/
def Dirent.fixed (d : Dirent) (filenameLen extraLen commentLen : UInt16) : CentralFixed :=
  { versionMadeby := d.versionMadeby, versionNeeded := d.versionNeeded, bitflags := d.bitflags,
    compMethodRaw :=
      if isAesMethod d.encryptionMethod then zipCmWinzipAes else methodToU16 d.compMethod,
    lastModTime := d.lastModTime, lastModDate := d.lastModDate, crc := d.crc,
    compSize32 := sentinel32 d.compSize, uncompSize32 := sentinel32 d.uncompSize, filenameLen,
    extraLen, commentLen, diskNumber := sentinel16 d.diskNumber, intAttrib := d.intAttrib,
    extAttrib := d.extAttrib, offset32 := sentinel32 d.offset }

/-- The raw extra fields of a serialized entry. A ZIP64 field is regenerated when a value overflows;
otherwise the fields are written as they are. -/
def Dirent.serializedExtra (d : Dirent) : Result Bytes :=
  if d.needsZip64 then do
    let raw ← serializeExtraFields (d.extraFields.filter fun f => f.1 != extraFieldZip64)
    .ok (raw ++ (buildZip64Extra d.compSize d.uncompSize d.offset d.diskNumber).getD [])
  else serializeExtraFields d.extraFields

/-- Serializes an entry as a central record. -/
def Dirent.toCentralRecord (d : Dirent) : Result Bytes := do
  let extra ← d.serializedExtra
  let extraLen ← tryU16 extra.length
  let filenameLen ← tryU16 (asBytes d.filename).length
  let commentLen ← tryU16 (asBytes d.comment).length
  .ok ((d.fixed filenameLen extraLen commentLen).record (asBytes d.filename) extra
    (asBytes d.comment))

end Kzip.Impl
