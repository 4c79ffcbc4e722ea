import Kzip.Impl.Dirent

/-!
# Local headers

The parser of local headers, `Dirent.parseLocal`. Unlike the one of central records it takes two values
only from a ZIP64 extra field, and does not look at the strong-encryption flag.
-/

namespace Kzip.Impl

open Lib Lib.LE Lib.Utf8

/-- The fixed fields of a local header, after its signature. -/
structure LocalFixed where
  versionNeeded : UInt16
  bitflags : UInt16
  compMethodRaw : UInt16
  lastModTime : UInt16
  lastModDate : UInt16
  crc : UInt32
  compSize32 : UInt32
  uncompSize32 : UInt32
  filenameLen : UInt16
  extraLen : UInt16

def LocalFixed.read : Cursor Fault LocalFixed := do
  let versionNeeded ← read16
  let bitflags ← read16
  let compMethodRaw ← read16
  let lastModTime ← read16
  let lastModDate ← read16
  let crc ← read32
  let compSize32 ← read32
  let uncompSize32 ← read32
  let filenameLen ← read16
  let extraLen ← read16
  pure { versionNeeded, bitflags, compMethodRaw, lastModTime, lastModDate, crc, compSize32,
         uncompSize32, filenameLen, extraLen }

/-- The uncompressed and the compressed size of a local header, with its ZIP64 data where there are
any. -/
def LocalFixed.sizes (f : LocalFixed) : Option Bytes → Result (UInt64 × UInt64)
  | none => .ok (f.uncompSize32.toUInt64, f.compSize32.toUInt64)
  | some z64 =>
    let read : Cursor Fault (UInt64 × UInt64) := do
      let uncompSize ← Cursor.readIf (f.uncompSize32 == zip64Magic32) (Cursor.u64 (.err .incons))
        f.uncompSize32.toUInt64
      let compSize ← Cursor.readIf (f.compSize32 == zip64Magic32) (Cursor.u64 (.err .incons))
        f.compSize32.toUInt64
      pure (uncompSize, compSize)
    (read z64).map (·.1)

/-- Compression method, encryption method and whether the CRC is real, of a local header. -/
def resolveLocalMethod (raw bitflags : UInt16) (extra : List ExtraField) :
    CompressionMethod × UInt16 × Bool :=
  if raw = zipCmWinzipAes then
    match parseAesExtra extra with
    | some (enc, actual, version) => (actual, enc, version == 1)
    | none => (.unsupported zipCmWinzipAes.toUInt32.toInt32, encryption.unknown, false)
  else
    let encryptionMethod :=
      if bitflags &&& flag.encrypted ≠ 0 then encryption.tradPkware else encryption.none
    (.fromU16 raw, encryptionMethod, true)

/-- The entry of a local header, from its fixed fields and its two variable parts. -/
def Dirent.ofLocal (f : LocalFixed) (filename : Str) (extraRaw : Bytes) : Result Dirent := do
  let extraFields ← parseExtraFields extraRaw
  let (uncompSize, compSize) ← f.sizes (zip64Data extraFields)
  let (compMethod, encryptionMethod, crcValid) :=
    resolveLocalMethod f.compMethodRaw f.bitflags extraFields
  .ok { versionMadeby := 0, versionNeeded := f.versionNeeded, bitflags := f.bitflags, compMethod,
        lastModTime := f.lastModTime, lastModDate := f.lastModDate, crc := f.crc, compSize, uncompSize,
        filename, comment := [], diskNumber := 0, intAttrib := 0, extAttrib := 0, offset := 0,
        dataOffset := none, encryptionMethod, crcValid, extraFields }

/-- Parses the local header a byte list starts with: its entry, and where the data begin. -/
def Dirent.parseLocal : Cursor Fault (Dirent × Nat) := do
  let raw ← Cursor.take size.localHeader (.err .eof)
  if raw.take 4 ≠ magic.localHeader then throw (.err .nozip)
  else do
    let f ← Cursor.within (raw.drop 4) LocalFixed.read
    let filename ← readBytes f.filenameLen.toNat
    let extraRaw ← readRaw f.extraLen.toNat
    let headerTotal := size.localHeader + f.filenameLen.toNat + f.extraLen.toNat
    let d ← Cursor.lift (Dirent.ofLocal f filename extraRaw)
    pure (d, headerTotal)

end Kzip.Impl
