import Kzip.Impl.Extern

/-!
# Readers that share a file handle

The readers of an archive that was opened from a file share one system handle (`SharedFileState`), with
one file pointer. Each reader (`SharedFile`) has a position of its own, and seeks the handle there
before it reads, unless the handle was left there. A read takes the lock of the handle, so reads do
not overlap.
-/

namespace Kzip.Impl

/-- An open file, and where the system's file pointer stands. -/
structure OsFile where
  content : Vec
  pos : Nat

/-- `SeekFrom::Start`; the system takes no file offset from `2 ^ 63` on. -/
def OsFile.seek (f : OsFile) (pos : UInt64) : Option OsFile :=
  if pos.toNat < 2 ^ 63 then some { f with pos := pos.toNat } else none

/-- A read into a buffer of `len` bytes, of which the system fills `limit` at most. -/
def OsFile.read (f : OsFile) (len limit : Nat) : Bytes × OsFile :=
  let bs := (f.content.val.drop f.pos).take (min len limit)
  (bs, { f with pos := f.pos + bs.length })

structure SharedFileState where
  file : OsFile
  /-- Where the file pointer was left. -/
  lastPos : UInt64

/-- `shared_handle`: the position of the handle is not known. -/
def OsFile.sharedHandle (f : OsFile) : SharedFileState := { file := f, lastPos := 0xFFFFFFFFFFFFFFFF }

structure SharedFile where
  pos : UInt64
  deriving DecidableEq

def SharedFile.atOffset (offset : UInt64) : SharedFile := { pos := offset }

def SharedFile.duplicate (_ : SharedFile) : SharedFile := { pos := 0 }

def SharedFile.duplicateAt (_ : SharedFile) (offset : UInt64) : SharedFile := { pos := offset }

/-- `seek` to an absolute position. -/
def SharedFile.seek (_ : SharedFile) (pos : UInt64) : SharedFile := { pos }

/-- Moves the handle to the position of a reader, unless it was left there; `none` is a failed seek. -/
def SharedFileState.moveTo (s : SharedFileState) (pos : UInt64) : Option SharedFileState :=
  if s.lastPos ≠ pos then (s.file.seek pos).map fun file => { file, lastPos := pos } else some s

def SharedFile.read (X : Extern) (r : SharedFile) (s : SharedFileState) (len limit : Nat) :
    Result Bytes × SharedFileState × SharedFile :=
  match s.moveTo r.pos with
  | none => (.error (.err .internal), s, r)
  | some s =>
    let (bs, file) := s.file.read len limit
    match addU64 X r.pos (UInt64.ofNat bs.length) with
    | .error e => (.error e, { s with file }, r)
    | .ok pos => (.ok bs, { file, lastPos := pos }, { pos })

end Kzip.Impl
