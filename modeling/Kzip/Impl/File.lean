import Kzip.Impl.Codec

/-!
# Entry readers

An `EntryReader` hands out the decompressed bytes of an entry and checks their number and CRC at the
end (`verify`). `readToEnd` is `std::io::Read::read_to_end` over it: the buffers it passes and what
the decoder has ready at each call are a `Schedule`.
-/

namespace Kzip.Impl

/-- The arguments of one `read`: the length of the buffer, and how many bytes beyond the first a
streaming decoder has ready. -/
structure ReadCall where
  len : Nat
  ready : Nat
  deriving DecidableEq, Repr

/-- The calls `read_to_end` makes; it never passes an empty buffer. -/
structure Schedule where
  call : Nat → ReadCall
  len_pos : ∀ k, 0 < (call k).len

/-- Where a reader takes its bytes from. -/
inductive Inner where
  | streaming (d : Decoded)
  /-- Decoded bytes, from a buffer of the pool or not. -/
  | buffered (data : Bytes) (pos : Nat) (pooled : Bool)
  /-- The bytes from `start` to `stop` of a shared backing. -/
  | shared (data : Bytes) (start stop pos : Nat)
  deriving DecidableEq, Repr

structure EntryReader where
  inner : Inner
  /-- The bytes fed to the hasher. -/
  crc : Bytes
  expectedCrc : UInt32
  expectedSize : UInt64
  sizeRead : Nat
  checkCrc : Bool
  finished : Bool
  integrityErr : Option IoError
  seeked : Bool
  deriving DecidableEq, Repr

/-! ## Constructors -/

/-- A reader that has read nothing. -/
def EntryReader.fresh (inner : Inner) (expectedCrc : UInt32) (expectedSize : UInt64)
    (checkCrc : Bool) : EntryReader :=
  { inner, crc := [], expectedCrc, expectedSize, sizeRead := 0, checkCrc, finished := false,
    integrityErr := none, seeked := false }

section
variable (X : Extern)

def EntryReader.new (src : Bytes) (method : CompressionMethod) (compSize uncompSize : UInt64)
    (expectedCrc : UInt32) : Result EntryReader := do
  let d ← Decoder.new X src method compSize
  .ok (.fresh (.streaming d) expectedCrc uncompSize true)

def EntryReader.newSkipCrc (src : Bytes) (method : CompressionMethod)
    (compSize uncompSize : UInt64) : Result EntryReader := do
  let d ← Decoder.new X src method compSize
  .ok (.fresh (.streaming d) 0 uncompSize false)

end

def EntryReader.fromBuffer (data : Bytes) (expectedCrc : UInt32) (expectedSize : UInt64)
    (pooled : Bool) : EntryReader :=
  .fresh (.buffered data 0 pooled) expectedCrc expectedSize true

/-- A reader of content that was authenticated. -/
def EntryReader.fromBufferSkipCrc (data : Bytes) (expectedSize : UInt64) (pooled : Bool) : EntryReader :=
  .fresh (.buffered data 0 pooled) 0 expectedSize false

def EntryReader.fromShared (data : Bytes) (start len : Nat) (expectedCrc : UInt32)
    (expectedSize : UInt64) : EntryReader :=
  .fresh (.shared data start (start + len) 0) expectedCrc expectedSize true

/-! ## Reading -/

/-- The bytes the next read takes. The sums of the source saturate; as each is capped by the length
of the data, plain sums give the same. -/
def Inner.pull (call : ReadCall) : Inner → Except IoError (Bytes × Inner)
  | .streaming d =>
    match d.out, d.err with
    | [], some e => if call.len = 0 then .ok ([], .streaming d) else .error e
    | out, err =>
      let n := min call.len (call.ready + 1)
      .ok (out.take n, .streaming { out := out.drop n, err })
  | .buffered data pos pooled =>
    if pos < data.length then
      let take := min (data.length - pos) call.len
      .ok ((data.drop pos).take take, .buffered data (pos + take) pooled)
    else .ok ([], .buffered data pos pooled)
  | .shared data start stop pos =>
    let begin_ := min (start + pos) data.length
    let limit := min stop data.length
    if begin_ < limit then
      let take := min (limit - begin_) call.len
      .ok ((data.drop begin_).take take, .shared data start stop (pos + take))
    else .ok ([], .shared data start stop pos)

/-- The decompressed size past which a read fails. -/
def EntryReader.sizeLimit (r : EntryReader) : Nat :=
  min (max r.expectedSize.toNat (32 * 1024 * 1024) + 1024 * 1024) (2 ^ 64 - 1)

section
variable (X : Extern)

/-- Checks size and CRC at the end of the stream, unless the reader was seeked. -/
def EntryReader.verify (r : EntryReader) : Bool × EntryReader :=
  let r := { r with finished := true }
  if r.seeked then (true, r)
  else if r.sizeRead ≠ r.expectedSize.toNat then
    (false, { r with integrityErr := some ⟨.invalidData, "Size mismatch"⟩ })
  else if r.checkCrc ∧ X.crc32 r.crc ≠ r.expectedCrc then
    (false, { r with integrityErr := some ⟨.invalidData, "CRC mismatch"⟩ })
  else (true, r)

/-- Accounts for bytes that were read. -/
def EntryReader.advance (r : EntryReader) (inner : Inner) (bs : Bytes) : EntryReader :=
  { r with inner, crc := r.crc ++ bs, sizeRead := r.sizeRead + bs.length }

/-- One `read`: the bytes put into the buffer. -/
def EntryReader.read (call : ReadCall) (r : EntryReader) : Except IoError Bytes × EntryReader :=
  match r.integrityErr with
  | some e => (.error e, { r with integrityErr := none })
  | none =>
    match r.inner.pull call with
    | .error e => (.error e, r)
    | .ok (bs, inner) =>
      if bs.length > 0 then
        let r := r.advance inner bs
        if r.sizeRead > r.sizeLimit then
          let bomb : IoError :=
            ⟨.invalidData, "Decompression limit exceeded (potential Zip bomb)"⟩
          (.error ⟨.invalidData, "Decompression limit exceeded"⟩,
            { r with integrityErr := some bomb })
        else (.ok bs, r)
      else if r.finished then (.ok [], { r with inner })
      else
        match EntryReader.verify X { r with inner } with
        | (true, r) => (.ok [], r)
        | (false, r) =>
          match r.integrityErr with
          | some e => (.error e, { r with integrityErr := none })
          | none => (.ok [], r)

/-- The loop of `read_to_end`, from call `k` on: reads until one returns no bytes. -/
def EntryReader.readToEndLoop (sched : Schedule) : Nat → Nat → EntryReader → Bytes →
    Result Bytes × EntryReader
  | 0, _, r, _ => (.error .panic, r)
  | n + 1, k, r, out =>
    match r.read X (sched.call k) with
    | (.error e, r) => (.error e.toFault, r)
    | (.ok bs, r) => if bs = [] then (.ok out, r) else readToEndLoop sched n (k + 1) r (out ++ bs)

end

/-- The bytes a reader has still to hand out. -/
def Inner.remaining : Inner → Bytes
  | .streaming d => d.out
  | .buffered data pos _ => data.drop pos
  | .shared data start stop pos => (data.take stop).drop (start + pos)

/-- The error a reader ends with. -/
def Inner.tailErr : Inner → Option IoError
  | .streaming d => d.err
  | .buffered .. | .shared .. => none

/-- `read_to_end`: each read but the last takes a byte, which bounds the number of reads. -/
def EntryReader.readToEnd (X : Extern) (sched : Schedule) (r : EntryReader) :
    Result Bytes × EntryReader :=
  r.readToEndLoop X sched (r.inner.remaining.length + 1) 0 []

end Kzip.Impl
