import Kzip.Impl.Archive

/-!
# Opening an entry through a positioned source

`Archive::open_dirent` works on a copy of the source with a position of its own, which starts at the
local header of the entry: the header is read there and skipped, or, when the data offset is cached, the
position is set to it, and the decoders read on from wherever that left the position. Here the position
is kept, in every step (`SourceAt`). A shared file handle counts as one of the reader's own.
-/

namespace Kzip.Impl

open Lib.LE

/-- A source with a position. -/
structure SourceAt where
  src : Source
  pos : Nat

def SourceAt.readExact (s : SourceAt) (n : Nat) : Result (Bytes × SourceAt) := do
  let bs ← s.src.readAt s.pos n
  .ok (bs, { s with pos := s.pos + n })

/-- `SeekFrom::Start` -/
def SourceAt.seekStart (s : SourceAt) (pos : Nat) : Result (Nat × SourceAt) :=
  match s.src.kind with
  | .file _ => if pos < 2 ^ 63 then .ok (pos, { s with pos }) else .error (.err .seek)
  | .vec | .arc | .mmap | .shared => .ok (pos, { s with pos })

section
variable (X : Extern)

/-- `SeekFrom::Current`: a cursor adds on `u64`, a mapping and a shared handle on `i64`. -/
def SourceAt.seekCurrent (s : SourceAt) (d : Nat) : Result (Nat × SourceAt) :=
  match s.src.kind with
  | .vec | .arc => if s.pos + d < 2 ^ 64 then s.seekStart (s.pos + d) else .error (.err .seek)
  | .file _ => s.seekStart (s.pos + d)
  | .mmap | .shared => do
    let pos ← addI64 X (asI64 s.pos) d
    s.seekStart (max pos 0).toNat

/-- `Dirent::local_header_len`: leaves the position behind the local header. -/
def localHeaderLenAt (s : SourceAt) : Result (Nat × SourceAt) := do
  let (raw, s) ← s.readExact size.localHeader
  if raw.take 4 ≠ magic.localHeader then .error (.err .nozip)
  else s.seekCurrent X ((le16At raw 26).toNat + (le16At raw 28).toNat)

/-- `Dirent::data_offset` -/
def Dirent.findDataOffsetAt (d : Dirent) (s : SourceAt) : Result (Nat × SourceAt) :=
  match d.dataOffset with
  | some off => s.seekStart off
  | none => localHeaderLenAt X s

/-- `Archive::open_source_at` -/
def Archive.openSourceAt (a : Archive) (offset : UInt64) : SourceAt := { src := a.src, pos := offset.toNat }

def Archive.openDirentAt (a : Archive) (index : Nat) (d : Dirent) (password : Option Bytes) :
    Result EntryReader × Archive :=
  match d.findDataOffsetAt X (a.openSourceAt d.offset) with
  | .error e => (.error e, a)
  | .ok (off, dup) =>
    let a := a.cacheOffset index off
    match a.openZeroCopy X d off with
    | some r => r
    -- the decoders read from the position, not from the offset that was returned
    | none => (a.openStreaming X d dup.pos password, a)

def Archive.openEntryAt (a : Archive) (index : Nat) (password : Option Bytes) :
    Result EntryReader × Archive :=
  match a.entries[index]? with
  | none => (.error (.err .inval), a)
  | some d => a.openDirentAt X index d password

def Archive.readEntryAt (sched : Schedule) (a : Archive) (index : Nat) (password : Option Bytes) :
    Result Bytes × Archive :=
  match a.openEntryAt X index password with
  | (.error e, a) => (.error e, a)
  | (.ok r, a) =>
    let (out, r) := r.readToEnd X sched
    (out, a.dropReader r)

end

end Kzip.Impl
