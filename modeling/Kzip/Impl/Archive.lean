import Kzip.Impl.Cdir
import Kzip.Impl.Crypto
import Kzip.Impl.File

/-!
# Archives

`Archive.open` parses the directory; `Archive.openDirent` builds the reader of an entry, by one of
five ways: stored bytes shared with the source, a slice decoded into a pooled buffer, a streaming
decoder, and the two kinds of decryption. Opening an entry fills the cached data offset of its
`Dirent` and takes a buffer from the pool, so the calls return the archive they leave behind.
-/

namespace Kzip.Impl

open Lib.LE Lib.Utf8

/-- The recycled decode buffers, at most `capacity` of them. -/
structure BufferPool where
  pool : List Bytes
  capacity : Nat
  len_le : pool.length ≤ capacity
  deriving DecidableEq

def BufferPool.new (capacity : Nat) : BufferPool :=
  { pool := [], capacity, len_le := Nat.zero_le _ }

def BufferPool.acquire (p : BufferPool) : Bytes × BufferPool :=
  (p.pool.getLast?.getD [],
    { p with pool := p.pool.dropLast,
             len_le := Nat.le_trans (by rw [List.length_dropLast]; omega) p.len_le })

/-- Puts a buffer back, unless the pool is full or the buffer is larger than is kept. -/
def BufferPool.release (p : BufferPool) (buf : Bytes) : BufferPool :=
  if h : p.pool.length < p.capacity then
    if buf.length > 4 * 1024 * 1024 then p
    else { p with pool := p.pool ++ [buf], len_le := by simpa using Nat.succ_le_of_lt h }
  else p

structure Archive where
  src : Source
  entries : List Dirent
  comment : Str
  isZip64 : Bool
  pool : BufferPool
  /-- The default password. -/
  password : Option Bytes
  deriving DecidableEq

def Archive.open (src : Source) : Result Archive := do
  let cd ← readCentralDir src
  .ok { src := src.forEntries, entries := cd.entries, comment := cd.comment, isZip64 := cd.isZip64,
        pool := .new bufferPoolCapacity, password := none }

/-- The index of the first entry with a name. -/
def Archive.nameLocate (a : Archive) (name : Str) : Option Nat :=
  a.entries.findIdx? fun d => d.filename == name

def Archive.setDefaultPassword (a : Archive) (password : Bytes) : Archive :=
  { a with password := some password }

/-! ## Opening an entry -/

/-- Where the data of the local header at `offset` begins. -/
def localHeaderLen (src : Source) (offset : Nat) : Result Nat := do
  let raw ← src.readAt offset size.localHeader
  if raw.take 4 ≠ magic.localHeader then .error (.err .nozip)
  else .ok (offset + size.localHeader + ((le16At raw 26).toNat + (le16At raw 28).toNat))

/-- The data offset of an entry, from the cache if it was found before. -/
def Dirent.findDataOffset (d : Dirent) (src : Source) : Result Nat :=
  match d.dataOffset with
  | some off => .ok off
  | none => localHeaderLen src d.offset.toNat

/-- Fills the cached data offset of an entry. -/
def Archive.cacheOffset (a : Archive) (index off : Nat) : Archive :=
  { a with entries := a.entries.modify index fun d => { d with dataOffset := some off } }

/-- A password given for the entry, else the default one. -/
def Archive.resolvePassword (a : Archive) (password : Option Bytes) : Result Bytes :=
  match password.or a.password with
  | some pw => .ok pw
  | none => .error (.err .nopasswd)

def Dirent.encrypted (d : Dirent) : Bool := d.bitflags &&& flag.encrypted ≠ 0

/-- Whether an entry is small and plain enough to be decoded from a slice. -/
def Dirent.zeroCopy (d : Dirent) : Bool :=
  !d.encrypted &&
    (match d.compMethod with
      | .unsupported _ => false
      | .store | .deflate | .bzip2 => true) &&
    d.uncompSize ≤ zeroCopyFastMaxUncomp

section
variable (X : Extern)

/-- A reader over the shared bytes of a stored entry. -/
def Archive.openShared (a : Archive) (d : Dirent) (off : Nat) : Option EntryReader :=
  if d.compMethod = .store then
    match a.src.sharedData with
    | some shared =>
      if off + d.compSize.toNat ≤ shared.length then
        some (.fromShared shared off d.compSize.toNat d.crc d.uncompSize)
      else none
    | none => none
  else none

/-- A reader over a pooled buffer with the entry decoded from the slice of the source. -/
def Archive.openSlice (a : Archive) (d : Dirent) (off : Nat) :
    Option (Result EntryReader × Archive) :=
  match a.src.asSlice with
  | none => none
  | some slice =>
    match addUsize X off d.compSize.toNat with
    | .error e => some (.error e, a)
    | .ok stop =>
      let stop := min stop slice.length
      if off ≤ stop then
        let data := (slice.drop off).take (stop - off)
        let (buf, pool) := a.pool.acquire
        let a := { a with pool }
        match decodeSliceInto X data d.compMethod d.compSize buf with
        | .error e => some (.error e, a)
        | .ok decoded => some (.ok (.fromBuffer decoded d.crc d.uncompSize true), a)
      else none

/-- The ways to open an entry without a decoder that streams. -/
def Archive.openZeroCopy (a : Archive) (d : Dirent) (off : Nat) :
    Option (Result EntryReader × Archive) :=
  if d.zeroCopy then
    match a.openShared d off with
    | some r => some (.ok r, a)
    | none => a.openSlice X d off
  else none

/-- A WinZip AES entry: its region is read and authenticated, then decompressed. -/
def Archive.openAes (a : Archive) (d : Dirent) (off : Nat) (password : Option Bytes) :
    Result EntryReader := do
  let pw ← a.resolvePassword password
  if d.compSize > maxCdSize then .error (.err .centralDirTooLarge)
  else do
    let region ← a.src.readAt off d.compSize.toNat
    let plainCompressed ← aesDecryptData X pw d.encryptionMethod region
    EntryReader.newSkipCrc X plainCompressed d.compMethod (UInt64.ofNat plainCompressed.length) d.uncompSize

/-- A traditionally encrypted entry: the check byte of its header is compared with the CRC. -/
def Archive.openZipCrypto (a : Archive) (d : Dirent) (off : Nat) (password : Option Bytes) :
    Result EntryReader := do
  let pw ← a.resolvePassword password
  let header ← a.src.readAt off encryptionHeaderLen
  let (header, crypto) := (ZipCrypto.new pw).decrypt header
  if header.getD (encryptionHeaderLen - 1) 0 ≠ (d.crc >>> 24).toUInt8 then
    .error (.err .wrongpasswd)
  else if d.compSize < UInt64.ofNat encryptionHeaderLen then .error (.err .truncatedZip)
  else
    let dataCompSize := d.compSize - UInt64.ofNat encryptionHeaderLen
    let dec := (crypto.decrypt (a.src.bytes.drop (off + encryptionHeaderLen))).1
    EntryReader.new X dec d.compMethod dataCompSize d.uncompSize d.crc

/-- The streaming ways to open an entry. -/
def Archive.openStreaming (a : Archive) (d : Dirent) (off : Nat) (password : Option Bytes) :
    Result EntryReader :=
  if d.encrypted then
    if isAesMethod d.encryptionMethod then a.openAes X d off password
    else if d.encryptionMethod ≠ encryption.tradPkware then .error (.err .encrmethnotsupp)
    else a.openZipCrypto X d off password
  else EntryReader.new X (a.src.bytes.drop off) d.compMethod d.compSize d.uncompSize d.crc

def Archive.openDirent (a : Archive) (index : Nat) (d : Dirent) (password : Option Bytes) :
    Result EntryReader × Archive :=
  match d.findDataOffset a.src with
  | .error e => (.error e, a)
  | .ok off =>
    let a := a.cacheOffset index off
    match a.openZeroCopy X d off with
    | some r => r
    | none => (a.openStreaming X d off password, a)

def Archive.openEntryWithPassword (a : Archive) (index : Nat) (password : Option Bytes) :
    Result EntryReader × Archive :=
  match a.entries[index]? with
  | none => (.error (.err .inval), a)
  | some d => a.openDirent X index d password

def Archive.openEntry (a : Archive) (index : Nat) : Result EntryReader × Archive :=
  a.openEntryWithPassword X index none

/-- Drops a reader; its pooled buffer goes back to the pool. -/
def Archive.dropReader (a : Archive) (r : EntryReader) : Archive :=
  match r.inner with
  | .buffered data _ true => { a with pool := a.pool.release data }
  | .buffered .. | .streaming _ | .shared .. => a

/-- The content of an entry, decompressed and checked. -/
def Archive.readEntryWithPassword (sched : Schedule) (a : Archive) (index : Nat)
    (password : Option Bytes) : Result Bytes × Archive :=
  match a.openEntryWithPassword X index password with
  | (.error e, a) => (.error e, a)
  | (.ok r, a) =>
    let (out, r) := r.readToEnd X sched
    (out, a.dropReader r)

def Archive.readEntry (sched : Schedule) (a : Archive) (index : Nat) : Result Bytes × Archive :=
  a.readEntryWithPassword X sched index none

end

end Kzip.Impl
