import Kzip.Lib.Machine
import Kzip.Impl.Archive

/-!
# The read path with its checks

The functions that open an archive and read an entry, once more, with the checks of a build in which
integer overflow panics: every sum and difference of machine integers, every index and slice and
every `expect` fails where the program would. The plain functions say what is computed; these say
in addition which of the intermediate values exist. Decoders are functions of their input here as
well, and so are the cursors of the standard library.
-/

namespace Kzip.Impl.Checked

open Lib Lib.LE Lib.Utf8

/-- `a + b` on `usize` or `u64`. -/
def add (a b : Nat) : Result Nat := Machine.add .panic 64 a b

/-- `a - b` on `usize` or `u64`. -/
def sub (a b : Nat) : Result Nat := Machine.sub .panic a b

def index (bs : Bytes) (i : Nat) : Result UInt8 := Machine.index .panic bs i

def slice (bs : Bytes) (i j : Nat) : Result Bytes := Machine.slice .panic bs i j

/-- `[bs[i], bs[i + 1], ..]`, `n` bytes in all. -/
def indices (bs : Bytes) (i n : Nat) : Result Bytes := (List.range n).mapM fun j => index bs (i + j)

def le16At (bs : Bytes) (i : Nat) : Result UInt16 := do .ok (u16 (← indices bs i 2))
def le32At (bs : Bytes) (i : Nat) : Result UInt32 := do .ok (u32 (← indices bs i 4))
def le64At (bs : Bytes) (i : Nat) : Result UInt64 := do .ok (u64 (← indices bs i 8))

/-- `dst.copy_from_slice(src)`, which wants slices of one length. -/
def copyFromSlice (dst src : Bytes) : Result Bytes :=
  if dst.length = src.length then .ok src else .error .panic

/-! ## Sources -/

/-- One `read` into a buffer of `len` bytes; `MmapSource::read` does its own arithmetic. -/
def read (src : Source) (pos len : Nat) : Result Bytes :=
  match src.kind with
  | .mmap =>
    if pos ≥ src.bytes.length then .ok []
    else do
      let stop := min (← add pos len) src.bytes.length
      let n ← sub stop pos
      let buf ← slice (List.replicate len 0) 0 n
      let bs ← copyFromSlice buf (← slice src.bytes pos stop)
      let _ ← add pos n
      .ok bs
  | .vec | .arc | .file _ | .shared => .ok ((src.bytes.drop pos).take len)

/-- Reads of up to `cap` bytes, until `n` bytes are there or the source ends. -/
def readLoop (src : Source) (cap : Nat) : Nat → Nat → Nat → Result Bytes
  | 0, _, _ => .ok []
  | fuel + 1, pos, n =>
    if n = 0 then .ok []
    else do
      let bs ← read src pos (min cap n)
      if bs = [] then .ok []
      else .ok (bs ++ (← readLoop src cap fuel (pos + bs.length) (n - bs.length)))

/-- `read_exact` of `n` bytes at `pos`. -/
def readExact (src : Source) (pos n : Nat) : Result (Option Bytes) := do
  let bs ← readLoop src n (src.bytes.length + 1) pos n
  .ok (if bs.length = n then some bs else none)

/-- Seeks to `pos` and reads exactly `n` bytes. -/
def readAt (src : Source) (pos n : Nat) : Result Bytes :=
  if n ≠ 0 ∧ !src.canSeek pos then .error (.err .read)
  else do
    match ← readExact src pos n with
    | some bs => .ok bs
    | none => .error (.err .eof)

/-- At most `n` bytes from `pos` on, through the buffer of a decoder. -/
def stream (src : Source) (pos n : Nat) : Result Bytes :=
  readLoop src 8192 (src.bytes.length + 1) pos n

/-- `seek(SeekFrom::Current(d))`: a cursor refuses a position past `u64::MAX`, a mapping adds on
`i64`. -/
def seekCurrent (src : Source) (pos d : Nat) : Result Nat :=
  match src.kind with
  | .mmap =>
    let sum : Int := (UInt64.ofNat pos).toInt64.toInt + d
    if sum < 2 ^ 63 then .ok (max sum 0).toNat else .error .panic
  | .vec | .arc | .file _ | .shared =>
    if pos + d < 2 ^ 64 then .ok (pos + d) else .error (.err .seek)

/-! ## Entries -/

/-- The loop of `parse_extra_fields`, at position `pos` of the block. -/
def parseExtraFieldsLoop (raw : Bytes) : Nat → Nat → Result (List ExtraField)
  | 0, _ => .ok []
  | n + 1, pos => do
    if (← add pos 4) ≤ raw.length then
      let (id, rest) ← read16 (raw.drop pos)
      let (len, _) ← read16 rest
      let start := pos + 4
      let stop ← add start len.toNat
      if stop > raw.length then .error (.err .incons)
      else
        let data ← slice raw start stop
        .ok ((id, data) :: (← parseExtraFieldsLoop raw n stop))
    else .ok []

def parseExtraFields (raw : Bytes) : Result (List ExtraField) := parseExtraFieldsLoop raw raw.length 0

def parseAesExtra (fields : List ExtraField) :
    Result (Option (UInt16 × CompressionMethod × UInt16)) :=
  match fields.find? fun f => f.1 == efWinzipAes with
  | none => .ok none
  | some (_, data) =>
    if data.length < efWinzipAesSize then .ok none
    else do
      if (← index data 2) ≠ 0x41 then .ok none
      else if (← index data 3) ≠ 0x45 then .ok none
      else
        let version ← le16At data 0
        let strength ← index data 4
        let method ← le16At data 5
        let enc := aesMethodFromStrength strength
        if enc = encryption.unknown then .ok none else .ok (some (enc, .fromU16 method, version))

def resolveMethod (raw bitflags : UInt16) (extra : List ExtraField) :
    Result (CompressionMethod × UInt16 × Bool) :=
  if raw = zipCmWinzipAes then do
    match ← parseAesExtra extra with
    | some (enc, actual, version) => .ok (actual, enc, version == 1)
    | none => .ok (.unsupported zipCmWinzipAes.toUInt32.toInt32, encryption.unknown, false)
  else
    let encryptionMethod :=
      if bitflags &&& flag.encrypted ≠ 0 then
        if bitflags &&& flag.strongEncryption ≠ 0 then encryption.unknown
        else encryption.tradPkware
      else encryption.none
    .ok (.fromU16 raw, encryptionMethod, true)

def ofCentral (f : CentralFixed) (filename : Str) (extraRaw : Bytes) (comment : Str) :
    Result Dirent := do
  let extraFields ← parseExtraFields extraRaw
  let v ← f.zip64Overrides (zip64Data extraFields)
  let (compMethod, encryptionMethod, crcValid) ←
    resolveMethod f.compMethodRaw f.bitflags extraFields
  let d : Dirent :=
    { versionMadeby := f.versionMadeby, versionNeeded := f.versionNeeded, bitflags := f.bitflags,
      compMethod, lastModTime := f.lastModTime, lastModDate := f.lastModDate, crc := f.crc,
      compSize := v.compSize, uncompSize := v.uncompSize, filename, comment, diskNumber := v.disk,
      intAttrib := f.intAttrib, extAttrib := f.extAttrib, offset := v.offset, dataOffset := none,
      encryptionMethod, crcValid, extraFields }
  if pathTraversal filename then .error (.err .incons) else .ok d

def parseCentral : Cursor Fault Dirent := do
  let raw ← Cursor.take size.central (.err .nozip)
  if (← Cursor.lift (slice raw 0 4)) ≠ magic.central then throw (.err .nozip)
  else do
    let f ← Cursor.within (← Cursor.lift (slice raw 4 size.central)) CentralFixed.read
    let filename ← readBytes f.filenameLen.toNat
    let extraRaw ← readRaw f.extraLen.toNat
    let comment ← readBytes f.commentLen.toNat
    Cursor.lift (ofCentral f filename extraRaw comment)

/-! ## The central directory -/

def readEocd64 (src : Source) (offset : UInt64) : Result (Option Zip64Eocd) :=
  if src.canSeek offset.toNat then do
    match ← readExact src offset.toNat size.eocd64 with
    | none => .ok none
    | some raw =>
      if (← slice raw 0 4) ≠ magic.eocd64 then .ok none
      else
        let cdirSize := u64 (← slice raw 40 48)
        let cdirOffset := u64 (← slice raw 48 56)
        let numEntries := u64 (← slice raw 32 40)
        .ok (some { cdirSize, cdirOffset, numEntries })
  else .ok none

def parseEntriesLoop : Nat → Bytes → Result (List Dirent)
  | 0, _ => .ok []
  | _ + 1, [] => .ok []
  | n + 1, b :: bs =>
    match parseCentral (b :: bs) with
    | .ok (d, rest) => do .ok (d :: (← parseEntriesLoop n rest))
    | .error .panic => .error .panic
    | .error (.err _) => .ok []

def readEntries (src : Source) (offset cdirSize numEntries : UInt64) : Result (List Dirent) :=
  if cdirSize > maxCdSize then .error (.err .centralDirTooLarge)
  else if !src.canSeek offset.toNat then .error (.err .seek)
  else do
    match ← readExact src offset.toNat cdirSize.toNat with
    | none => .error (.err .incons)
    | some buf =>
      let entries ← parseEntriesLoop buf.length buf
      let parsed := entries.length
      if parsed = numEntries.toNat ∨ parsed % 0x10000 = numEntries.toNat then .ok entries
      else .error (.err .incons)

def locatorBefore (tail : Bytes) (rel : Nat) : Result (Option UInt64) :=
  if size.eocd64Locator ≤ rel then do
    let p ← sub rel size.eocd64Locator
    if (← slice tail p (← add p 4)) = magic.eocd64Locator then
      let loc ← slice tail (← add p 4) (← add p 20)
      .ok (some (← le64At loc 4))
    else .ok none
  else .ok none

def cdirAt (src : Source) (comment : Str) (numEntries : UInt64) (isZip64 : Bool)
    (cdirSize cdirOffset : UInt64) : Result CentralDir := do
  let entries ← readEntries src cdirOffset cdirSize numEntries
  .ok { entries, comment, isZip64, cdirSize, cdirOffset }

def finishCdir (src : Source) (comment : Str) (numEntries : UInt16) (isZip64 : Bool)
    (cdirSize cdirOffset : UInt64) : Result CentralDir :=
  if cdirSize = 0 ∧ cdirOffset = 0 ∧ numEntries = 0 then
    .ok { entries := [], comment, isZip64, cdirSize := 0, cdirOffset := 0 }
  else cdirAt src comment numEntries.toUInt64 isZip64 cdirSize cdirOffset

def cdirOf (src : Source) (comment : Str) (numEntries : UInt16) (cdirSize cdirOffset : UInt64)
    (locator : Option UInt64) : Result CentralDir :=
  match locator with
  | none => finishCdir src comment numEntries false cdirSize cdirOffset
  | some eocd64Offset => do
    match ← readEocd64 src eocd64Offset with
    | some z =>
      if numEntries = 0xFFFF then cdirAt src comment z.numEntries true z.cdirSize z.cdirOffset
      else finishCdir src comment numEntries true z.cdirSize z.cdirOffset
    | none => finishCdir src comment numEntries true cdirSize cdirOffset

def tryParseCdir (src : Source) (tail : Bytes) (tailStart abs : Nat) :
    Result (Option CentralDir) := do
  let rel ← sub abs tailStart
  let stop ← add rel size.eocd
  if stop > tail.length then .ok none
  else
    let e ← slice tail rel stop
    let thisDisk ← le16At e 4
    let eocdDisk ← le16At e 6
    let _diskEntries ← le16At e 8
    let numEntries ← le16At e 10
    let cdirSize := (← le32At e 12).toUInt64
    let cdirOffset := (← le32At e 16).toUInt64
    let commentLen := (← le16At e 20).toNat
    let commentStop ← add stop commentLen
    if commentStop > tail.length then .ok none
    else
      let comment := fromUtf8Lossy (← slice tail stop commentStop)
      if thisDisk ≠ 0 ∨ eocdDisk ≠ 0 then .ok none
      else
        let locator ← locatorBefore tail rel
        (cdirOf src comment numEntries cdirSize cdirOffset locator).map some

def firstCdir (src : Source) (tail : Bytes) (tailStart : Nat) :
    List Nat → Result (Option CentralDir)
  | [] => .ok none
  | abs :: rest => do
    match ← tryParseCdir src tail tailStart abs with
    | some cd => .ok (some cd)
    | none => firstCdir src tail tailStart rest

/-- One step of the search for signatures: position `i` of the tail. -/
def candidateStep (tail : Bytes) (tailStart : Nat) (out : List Nat) (i : Nat) : Result (List Nat) := do
  if (← slice tail i (← add i 4)) == magic.eocd then .ok (out ++ [← add tailStart i]) else .ok out

def candidates (tail : Bytes) (tailStart : Nat) : Result (List Nat) :=
  if tail.length ≥ size.eocd then do
    let last ← sub tail.length size.eocd
    (List.range (last + 1)).reverse.foldlM (candidateStep tail tailStart) []
  else .ok []

def readCentralDir (src : Source) : Result CentralDir :=
  let len := src.bytes.length
  if len < size.eocd then .error (.err .nozip)
  else do
    let buflen := min len maxCdBuffer
    let tailStart ← sub len buflen
    let tail ← readAt src tailStart buflen
    match ← firstCdir src tail tailStart (← candidates tail tailStart) with
    | some cd => .ok cd
    | none => if sourceStartsWithPk src then .error (.err .truncatedZip) else .error (.err .nozip)

def «open» (src : Source) : Result Archive := do
  let cd ← readCentralDir src
  .ok { src := src.forEntries, entries := cd.entries, comment := cd.comment, isZip64 := cd.isZip64,
        pool := .new bufferPoolCapacity, password := none }

/-! ## Decryption -/

/-- `CRC_TABLE[i]` -/
def crcTableAt (i : UInt32) : Result UInt32 :=
  if i.toNat < 256 then .ok (crcTable i) else .error .panic

def crc32Update (crc : UInt32) (byte : UInt8) : Result UInt32 := do
  .ok ((crc >>> 8) ^^^ (← crcTableAt ((crc ^^^ byte.toUInt32) &&& 0xFF)))

def updateKeys (c : ZipCrypto) (byte : UInt8) : Result ZipCrypto := do
  let key0 ← crc32Update c.key0 byte
  let key1 := (c.key1 + (key0 &&& 0xFF)) * 134775813 + 1
  .ok { key0, key1, key2 := ← crc32Update c.key2 (key1 >>> 24).toUInt8 }

def zipCryptoNew (password : Bytes) : Result ZipCrypto :=
  password.foldlM updateKeys { key0 := 0x12345678, key1 := 0x23456789, key2 := 0x34567890 }

def decrypt (c : ZipCrypto) : Bytes → Result (Bytes × ZipCrypto)
  | [] => .ok ([], c)
  | cipher :: data => do
    let plain := cipher ^^^ c.keystreamByte
    let r ← decrypt (← updateKeys c plain) data
    .ok (plain :: r.1, r.2)

section
variable (X : Extern)

/-- The keys are cut out of a buffer that holds those of AES-256. -/
def deriveAesKeys (method : UInt16) (password salt : Bytes) : Result (Bytes × Bytes × Bytes) := do
  let keyLength := aesKeyLength method
  let outLen ← add (2 * keyLength) winzipAesPasswordVerifyLength
  let buf := List.replicate (2 * 32 + winzipAesPasswordVerifyLength) 0
  let filled ← copyFromSlice (← slice buf 0 outLen)
    (X.pbkdf2HmacSha1 password salt winzipAesPbkdf2Iterations outLen).toList
  let buf := filled ++ buf.drop outLen
  let aesKey ← copyFromSlice (← slice (List.replicate 32 0) 0 keyLength) (← slice buf 0 keyLength)
  let hmacKey ← copyFromSlice (← slice (List.replicate 32 0) 0 keyLength)
    (← slice buf keyLength (2 * keyLength))
  let passwordVerify ← copyFromSlice (List.replicate winzipAesPasswordVerifyLength 0)
    (← slice buf (2 * keyLength) outLen)
  .ok (aesKey, hmacKey, passwordVerify)

/-- The inner loop of `aes_ctr_apply_inner`: the `n` bytes from `pos` on, under one block of
keystream. -/
def xorBlock (pad data : Bytes) (pos n : Nat) : Result Bytes := do
  let block ← (List.range n).mapM fun j => do
    .ok ((← index data (← add pos j)) ^^^ (← index pad j))
  .ok (data.take pos ++ block ++ data.drop (pos + n))

/-- The outer loop of `aes_ctr_apply_inner`, at position `pos` of the data. -/
def aesCtrLoop (key : Bytes) : Nat → Vector UInt8 16 → Nat → Bytes → Result Bytes
  | 0, _, _, data => .ok data
  | fuel + 1, counter, pos, data =>
    if pos < data.length then do
      let n := min 16 (← sub data.length pos)
      let data ← xorBlock (X.encryptBlock key counter).toList data pos n
      aesCtrLoop key fuel (incrementCounter 8 0 counter) (← add pos 16) data
    else .ok data

/-- The cipher takes keys of its own length only. -/
def aesCtrApply (method : UInt16) (key data : Bytes) : Result Bytes :=
  if isAesMethod method then
    if key.length = aesKeyLength method then
      aesCtrLoop X key data.length ((Vector.replicate 16 0).setIfInBounds 0 1) 0 data
    else .error .panic
  else .ok data

def aesDecryptData (password : Bytes) (method : UInt16) (data : Bytes) : Result Bytes := do
  let saltLength := aesSaltLength method
  let aux ← add (← add saltLength winzipAesPasswordVerifyLength) winzipAesHmacLength
  if data.length < aux then .error (.err .truncatedZip)
  else
    let salt ← slice data 0 saltLength
    let verifyStop ← add saltLength winzipAesPasswordVerifyLength
    let storedVerify ← slice data saltLength verifyStop
    let cipherStop ← sub data.length winzipAesHmacLength
    let ciphertext ← slice data verifyStop cipherStop
    let storedHmac ← slice data cipherStop data.length
    let (aesKey, hmacKey, passwordVerify) ← deriveAesKeys X method password salt
    if storedVerify ≠ passwordVerify then .error (.err .wrongpasswd)
    else
      let tag ← slice (X.hmacSha1 hmacKey ciphertext).toList 0 winzipAesHmacLength
      if tag ≠ storedHmac then .error (.err .crc)
      else aesCtrApply X method aesKey ciphertext

/-! ## Opening an entry -/

/-- The fixed part of a local header after its signature: the two lengths in it. -/
def readLocalLengths : Cursor Fault (UInt16 × UInt16) := do
  let _versionNeeded ← read16
  let _bitflags ← read16
  let _compMethod ← read16
  let _lastModTime ← read16
  let _lastModDate ← read16
  let _crc ← read32
  let _compSize ← read32
  let _uncompSize ← read32
  let filenameLen ← read16
  let extraLen ← read16
  pure (filenameLen, extraLen)

def localHeaderLen (src : Source) (offset : Nat) : Result Nat := do
  let raw ← readAt src offset size.localHeader
  if (← slice raw 0 4) ≠ magic.localHeader then .error (.err .nozip)
  else
    let ((filenameLen, extraLen), _) ← readLocalLengths (← slice raw 4 size.localHeader)
    seekCurrent src (offset + size.localHeader) (← add filenameLen.toNat extraLen.toNat)

def findDataOffset (d : Dirent) (src : Source) : Result Nat :=
  match d.dataOffset with
  | some off => .ok off
  | none => localHeaderLen src d.offset.toNat

def decodeSliceInto (data : Bytes) (method : CompressionMethod) (compSize : UInt64) (out : Bytes) :
    Result Bytes := do
  let out := Vec.clear out
  let bounded ← slice data 0 (min compSize.toNat data.length)
  let limit ← add maxDecompressed 1
  match decode X method bounded with
  | none => .error (.err .compnotsupp)
  | some d =>
    let copied := d.out.take limit
    if d.out.length < limit ∧ d.err.isSome then .error (.err .compressedData)
    else if copied.length > maxDecompressed then .error (.err .decompressionLimit)
    else .ok (out ++ copied)

/-- The sum that nothing bounds is the one of `pos` and the compressed size. -/
def openSlice (a : Archive) (d : Dirent) (off : Nat) : Option (Result EntryReader × Archive) :=
  match a.src.asSlice with
  | none => none
  | some bytes =>
    let pos := off
    match add pos d.compSize.toNat with
    | .error e => some (.error e, a)
    | .ok stop =>
      let stop := min stop bytes.length
      if pos ≤ stop then
        match slice bytes pos stop with
        | .error e => some (.error e, a)
        | .ok data =>
          let (buf, pool) := a.pool.acquire
          let a := { a with pool }
          match decodeSliceInto X data d.compMethod d.compSize buf with
          | .error e => some (.error e, a)
          | .ok decoded => some (.ok (.fromBuffer decoded d.crc d.uncompSize true), a)
      else none

def openZeroCopy (a : Archive) (d : Dirent) (off : Nat) : Option (Result EntryReader × Archive) :=
  if d.zeroCopy then
    match a.openShared d off with
    | some r => some (.ok r, a)
    | none => openSlice X a d off
  else none

/-- A decoder over the bytes that it is given of a source. -/
def newReader (input : Bytes) (method : CompressionMethod) (uncompSize : UInt64) (crc : UInt32)
    (checkCrc : Bool) : Result EntryReader :=
  match decode X method input with
  | some d => .ok (.fresh (.streaming d) crc uncompSize checkCrc)
  | none => .error (.err .compnotsupp)

def openAes (a : Archive) (d : Dirent) (off : Nat) (password : Option Bytes) :
    Result EntryReader := do
  let pw ← a.resolvePassword password
  if d.compSize > maxCdSize then .error (.err .centralDirTooLarge)
  else
    let region ← readAt a.src off d.compSize.toNat
    let plainCompressed ← aesDecryptData X pw d.encryptionMethod region
    newReader X plainCompressed d.compMethod d.uncompSize 0 false

def openZipCrypto (a : Archive) (d : Dirent) (off : Nat) (password : Option Bytes) :
    Result EntryReader := do
  let pw ← a.resolvePassword password
  let header ← readAt a.src off encryptionHeaderLen
  let crypto ← zipCryptoNew pw
  let (header, crypto) ← decrypt crypto header
  if (← index header (← sub encryptionHeaderLen 1)) ≠ (d.crc >>> 24).toUInt8 then
    .error (.err .wrongpasswd)
  else if d.compSize.toNat < encryptionHeaderLen then .error (.err .truncatedZip)
  else
    let dataCompSize ← sub d.compSize.toNat encryptionHeaderLen
    let input ← stream a.src (off + encryptionHeaderLen) dataCompSize
    newReader X (← decrypt crypto input).1 d.compMethod d.uncompSize d.crc true

def openStreaming (a : Archive) (d : Dirent) (off : Nat) (password : Option Bytes) :
    Result EntryReader :=
  if d.encrypted then
    if isAesMethod d.encryptionMethod then openAes X a d off password
    else if d.encryptionMethod ≠ encryption.tradPkware then .error (.err .encrmethnotsupp)
    else openZipCrypto X a d off password
  else do newReader X (← stream a.src off d.compSize.toNat) d.compMethod d.uncompSize d.crc true

def openDirent (a : Archive) (index : Nat) (d : Dirent) (password : Option Bytes) :
    Result EntryReader × Archive :=
  match findDataOffset d a.src with
  | .error e => (.error e, a)
  | .ok off =>
    let a := a.cacheOffset index off
    match openZeroCopy X a d off with
    | some r => r
    | none => (openStreaming X a d off password, a)

def openEntryWithPassword (a : Archive) (index : Nat) (password : Option Bytes) :
    Result EntryReader × Archive :=
  match a.entries[index]? with
  | none => (.error (.err .inval), a)
  | some d => openDirent X a index d password

end

/-! ## Reading -/

/-- `buf[..take].copy_from_slice(&data[i..i + take])` for a buffer of `len` bytes. -/
def copyOut (data : Bytes) (i take len : Nat) : Result Bytes := do
  copyFromSlice (← slice (List.replicate len 0) 0 take) (← slice data i (← add i take))

/-- `a.saturating_add(b)` -/
def saturatingAdd (a b : Nat) : Nat := min (a + b) (2 ^ 64 - 1)

def pull (call : ReadCall) : Inner → Result (Except IoError (Bytes × Inner))
  | .streaming d => .ok ((Inner.streaming d).pull call)
  | .buffered data pos pooled =>
    if pos < data.length then do
      let take := min (← sub data.length pos) call.len
      let bs ← copyOut data pos take call.len
      .ok (.ok (bs, .buffered data (← add pos take) pooled))
    else .ok (.ok ([], .buffered data pos pooled))
  | .shared data start stop pos =>
    let begin_ := min (saturatingAdd start pos) data.length
    let limit := min stop data.length
    if begin_ < limit then do
      let take := min (← sub limit begin_) call.len
      let bs ← copyOut data begin_ take call.len
      .ok (.ok (bs, .shared data start stop (← add pos take)))
    else .ok (.ok ([], .shared data start stop pos))

section
variable (X : Extern)

def readEntry (call : ReadCall) (r : EntryReader) : Result (Except IoError Bytes × EntryReader) :=
  match r.integrityErr with
  | some e => .ok (.error e, { r with integrityErr := none })
  | none => do
    match ← pull call r.inner with
    | .error e => .ok (.error e, r)
    | .ok (bs, inner) =>
      if bs.length > 0 then
        let hashed ← slice (bs ++ List.replicate (call.len - bs.length) 0) 0 bs.length
        let sizeRead ← add r.sizeRead bs.length
        let r := { r with inner, crc := r.crc ++ hashed, sizeRead }
        if r.sizeRead > r.sizeLimit then
          let bomb : IoError :=
            ⟨.invalidData, "Decompression limit exceeded (potential Zip bomb)"⟩
          .ok (.error ⟨.invalidData, "Decompression limit exceeded"⟩,
            { r with integrityErr := some bomb })
        else .ok (.ok bs, r)
      else if r.finished then .ok (.ok [], { r with inner })
      else
        match EntryReader.verify X { r with inner } with
        | (true, r) => .ok (.ok [], r)
        | (false, r) =>
          match r.integrityErr with
          | some e => .ok (.error e, { r with integrityErr := none })
          | none => .ok (.ok [], r)

/-- The loop of `read_to_end`. The buffers it passes are spare room of the vector it fills, which
holds less than `2 ^ 63` bytes; where there is no more room, it returns an error. -/
def readToEndLoop (sched : Schedule) : Nat → Nat → EntryReader → Bytes → Result Bytes
  | 0, _, _, _ => .error .panic
  | n + 1, k, r, out =>
    if out.length + (sched.call k).len ≥ 2 ^ 63 then .error (.err .internal)
    else do
      match ← readEntry X (sched.call k) r with
      | (.error e, _) => .error e.toFault
      | (.ok bs, r) => if bs = [] then .ok out else readToEndLoop sched n (k + 1) r (out ++ bs)

def readToEnd (sched : Schedule) (r : EntryReader) : Result Bytes :=
  readToEndLoop X sched (r.inner.remaining.length + 1) 0 r []

end

end Kzip.Impl.Checked
