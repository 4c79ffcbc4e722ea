import Kzip.Impl.Extern
import Kzip.Lib.Buffer

/-!
# Write sessions of a source

A `ZipSource` over a `Memory` backend (`MemorySource`), as the calls of the C interface use it: it is
read through a cursor, and a write session collects bytes in a pending buffer that takes the place of
the content when the session is committed. The wrapper keeps a flag for the open session, the backend
the pending buffer.
-/

namespace Kzip.Impl

open Lib

def seekSet : Int32 := 0
def seekCur : Int32 := 1
def seekEnd : Int32 := 2

structure PendingWrite where
  out : Vec
  offset : UInt64

def PendingWrite.default : PendingWrite := { out := .nil, offset := 0 }

structure MemorySource where
  data : Vec
  pos : UInt64
  /-- The size that `stat` reports. -/
  statSize : Option UInt64
  pending : Option PendingWrite
  error : ZipErrorCode
  opened : Bool
  eof : Bool
  writeOpen : Bool
  isLayered : Bool

def MemorySource.new (data : Vec) : MemorySource :=
  { data, pos := 0, statSize := some (UInt64.ofNat data.val.length), pending := none, error := .ok,
    opened := false, eof := false, writeOpen := false, isLayered := false }

def MemorySource.setErr (s : MemorySource) (code : ZipErrorCode) : MemorySource := { s with error := code }

/-- The bytes of a write: a pointer that is null, or one to bytes. -/
inductive WriteData where
  | null (length : UInt64)
  | bytes (bs : Vec)

/-! ## The backend -/

section
variable (X : Extern)

/-- The target of a seek from the start, the cursor or the end; `none` is an unknown `whence`. -/
def seekTarget (whence : Int32) (offset : Int64) (cursor : UInt64) (size : Nat) : Result (Option Int) :=
  if whence = seekSet then .ok (some offset.toInt)
  else if whence = seekCur then (addI64 X (asI64 cursor.toNat) offset.toInt).map some
  else if whence = seekEnd then (addI64 X (asI64 size) offset.toInt).map some
  else .ok none

/-- `ZIP_SOURCE_SEEK` -/
def MemorySource.seek (s : MemorySource) (offset : Int64) (whence : Int32) :
    Result Int × MemorySource :=
  match seekTarget X whence offset s.pos s.data.val.length with
  | .error e => (.error e, s)
  | .ok none => (.ok (-1), s.setErr .inval)
  | .ok (some target) =>
    if target < 0 then (.ok (-1), s.setErr .inval)
    else
      let pos := min (UInt64.ofNat target.toNat) (UInt64.ofNat s.data.val.length)
      (.ok 0, { s with pos, eof := decide (UInt64.ofNat s.data.val.length ≤ pos) })

/-- `ZIP_SOURCE_SEEK_WRITE` -/
def MemorySource.seekWrite (s : MemorySource) (offset : Int64) (whence : Int32) :
    Result Int × MemorySource :=
  match s.pending with
  | none => (.ok (-1), s.setErr .inval)
  | some pw =>
    match seekTarget X whence offset pw.offset pw.out.val.length with
    | .error e => (.error e, s)
    | .ok none => (.ok (-1), s.setErr .inval)
    | .ok (some target) =>
      if target < 0 then (.ok (-1), s.setErr .inval)
      else (.ok 0, { s with pending := some { pw with offset := UInt64.ofNat target.toNat } })

end

/-- `ZIP_SOURCE_OPEN` -/
def MemorySource.open (s : MemorySource) : Int × MemorySource :=
  (0, { s with pos := 0, opened := true, eof := false })

/-- `ZIP_SOURCE_READ`, with the bytes it puts into the buffer. -/
def MemorySource.read (s : MemorySource) (len : UInt64) : Bytes × MemorySource :=
  let remaining := s.data.val.length - s.pos.toNat
  let n := min remaining len.toNat
  let bs := (s.data.val.drop s.pos.toNat).take n
  let pos := s.pos + UInt64.ofNat n
  (bs, { s with pos, eof := s.eof || decide (n = 0 ∧ UInt64.ofNat s.data.val.length ≤ pos) })

/-- `ZIP_SOURCE_BEGIN_WRITE` -/
def MemorySource.beginWrite (s : MemorySource) : Int × MemorySource :=
  (0, { s with pending := some .default })

/-- `ZIP_SOURCE_BEGIN_WRITE_CLONING` -/
def MemorySource.beginWriteCloning (s : MemorySource) (len : UInt64) : Int × MemorySource :=
  if len.toNat > s.data.val.length then (-1, s.setErr .inval)
  else
    let out : Vec := ⟨s.data.val.take len.toNat,
      Nat.lt_of_le_of_lt (List.length_take_le' _ _) s.data.property⟩
    (0, { s with pending := some { out, offset := len } })

/-- Writes at the cursor; a vector that grows too far panics. -/
def PendingWrite.write (pw : PendingWrite) (bs : Bytes) (len : UInt64) : Result PendingWrite := do
  let stop := saturatingAddU64 pw.offset len
  let grown := if stop.toNat > pw.out.val.length then padTo 0 stop.toNat pw.out.val else pw.out.val
  let out ← Vec.ofBytes (grown.take pw.offset.toNat ++ bs ++ grown.drop (pw.offset.toNat + bs.length))
  .ok { out, offset := stop }

/-- `ZIP_SOURCE_WRITE` -/
def MemorySource.write (s : MemorySource) (data : WriteData) : Result Int × MemorySource :=
  match s.pending with
  | none => (.ok (-1), s.setErr .inval)
  | some pw =>
    match data with
    | .null len =>
      if len > 0 then (.ok (-1), s.setErr .inval)
      else
        match pw.write [] len with
        | .error e => (.error e, s)
        | .ok pw => (.ok (asI64 len.toNat), { s with pending := some pw })
    | .bytes bs =>
      match pw.write bs.val (UInt64.ofNat bs.val.length) with
      | .error e => (.error e, s)
      | .ok pw => (.ok (asI64 bs.val.length), { s with pending := some pw })

/-- `ZIP_SOURCE_TELL_WRITE` -/
def MemorySource.tellWrite (s : MemorySource) : Int × MemorySource :=
  match s.pending with
  | some pw => (asI64 pw.offset.toNat, s)
  | none => (-1, s.setErr .inval)

/-- `ZIP_SOURCE_COMMIT_WRITE` -/
def MemorySource.commitWrite (s : MemorySource) : Int × MemorySource :=
  match s.pending with
  | some pw => (0, { s with data := pw.out, pos := 0, pending := none,
                            statSize := some (UInt64.ofNat pw.out.val.length) })
  | none => (-1, s.setErr .inval)

/-- `ZIP_SOURCE_ROLLBACK_WRITE` -/
def MemorySource.rollbackWrite (s : MemorySource) : Int × MemorySource := (0, { s with pending := none })

/-! ## The calls -/

/-- A call that panics gives -1. -/
def guarded (call : Result Int × MemorySource) : Int × MemorySource :=
  match call.1 with
  | .ok r => (r, call.2)
  | .error _ => (-1, call.2)

section
variable (X : Extern)

def zipSourceOpen (s : MemorySource) : Int × MemorySource :=
  let (r, s) := s.open
  if r < 0 then (-1, s.setErr .opnotsupp) else (0, s)

def zipSourceRead (s : MemorySource) (len : UInt64) : Bytes × Int × MemorySource :=
  let (bs, s) := s.read len
  let r := asI64 bs.length
  (bs, r, if r < 0 then s.setErr .read else s)

def zipSourceSeek (s : MemorySource) (offset : Int64) (whence : Int32) : Int × MemorySource :=
  let (r, s) := guarded (s.seek X offset whence)
  if r < 0 then (-1, s) else (0, s)

def zipSourceBeginWrite (s : MemorySource) : Int × MemorySource :=
  if s.isLayered then (-1, s.setErr .opnotsupp)
  else if s.writeOpen then (-1, s.setErr .inval)
  else
    let (r, s) := s.beginWrite
    if r < 0 then (-1, s) else (0, { s with writeOpen := true }.setErr .ok)

def zipSourceBeginWriteCloning (s : MemorySource) (offset : UInt64) : Int × MemorySource :=
  if s.isLayered then (-1, s.setErr .opnotsupp)
  else if s.writeOpen then (-1, s.setErr .inval)
  else
    let (r, s) := s.beginWriteCloning offset
    if r < 0 then (-1, s) else (0, { s with writeOpen := true })

def zipSourceWrite (s : MemorySource) (data : WriteData) : Int × MemorySource :=
  if !s.writeOpen then (-1, s.setErr .inval)
  else
    match s.write data with
    | (.error _, s) => (-1, s)
    | (.ok r, s) => (r, if r < 0 then s.setErr .write else s)

def zipSourceSeekWrite (s : MemorySource) (offset : Int64) (whence : Int32) : Int × MemorySource :=
  if s.isLayered then (-1, s.setErr .opnotsupp)
  else if !s.writeOpen ∨ (whence ≠ seekSet ∧ whence ≠ seekCur ∧ whence ≠ seekEnd) then
    (-1, s.setErr .inval)
  else
    let (r, s) := guarded (s.seekWrite X offset whence)
    if r < 0 then (-1, s) else (0, s)

def zipSourceTellWrite (s : MemorySource) : Int × MemorySource :=
  if s.isLayered then (-1, s.setErr .opnotsupp)
  else if !s.writeOpen then (-1, s.setErr .inval)
  else s.tellWrite

def zipSourceCommitWrite (s : MemorySource) : Int × MemorySource :=
  if s.isLayered then (-1, s.setErr .opnotsupp)
  else if !s.writeOpen then (-1, s.setErr .inval)
  else
    let (r, s) := s.commitWrite
    if r < 0 then (-1, { s with writeOpen := false }) else (0, { s with writeOpen := false })

def zipSourceRollbackWrite (s : MemorySource) : MemorySource :=
  if s.isLayered then s
  else if !s.writeOpen then s
  else { s.rollbackWrite.2 with writeOpen := false }

end

end Kzip.Impl
