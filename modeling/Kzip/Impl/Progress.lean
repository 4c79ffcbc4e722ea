import Kzip.Impl.Compress
import Kzip.Lib.Checkpoint
import Mathlib.Data.UInt
import Mathlib.Order.Defs.LinearOrder

/-!
# Progress of a write

`writeArchiveFullWithProgress` writes an archive as `writeArchiveFull` does, and calls back at
checkpoints with the bytes completed and the bytes in total. The callback keeps a state of its own and
says whether to cancel the write.
-/

namespace Kzip.Impl

open Lib

/-- A callback: it is told the bytes completed and the total, and says whether to cancel. -/
abbrev WriteProgressPoll (σ : Type) := UInt64 → UInt64 → σ → Bool × σ

structure WriteProgress (σ : Type) where
  total : UInt64
  completed : UInt64
  poll : Option (WriteProgressPoll σ)
  /-- The state of the callback. -/
  captured : σ
  completed_le : completed ≤ total

/-- A step of a write: it may call back, and may fail. -/
abbrev Hooked (σ : Type) := ExceptT Fault (StateM (WriteProgress σ))

variable {σ : Type}

def WriteProgress.new (total : UInt64) (poll : Option (WriteProgressPoll σ)) (captured : σ) :
    WriteProgress σ :=
  { total, completed := 0, poll, captured, completed_le := UInt64.zero_le }

def WriteProgress.report : Hooked σ Unit := fun p =>
  match p.poll with
  | none => (.ok (), p)
  | some poll =>
    let (cancel, captured) := poll p.completed p.total p.captured
    (if cancel then .error (.err .cancelled) else .ok (), { p with captured })

def WriteProgress.advance (n : UInt64) : Hooked σ Unit := fun p =>
  exec WriteProgress.report
    { p with completed := min (saturatingAddU64 p.completed n) p.total, completed_le := Std.min_le_right }

section
variable (X : Extern)

/-- `compress_files_hooked` with a hook; without one it is `compressFiles`. -/
def compressFilesHooked (files : List ArchiveFile) (opts : CompressOptions) :
    Hooked σ (List CompressedFile) :=
  files.mapM fun f => do
    WriteProgress.advance (UInt64.ofNat f.data.val.length)
    plainly (compressFile X opts f)

/-- `write_compressed_hooked` with a hook; without one it is `writeCompressed`. -/
def writeCompressedHooked (compressed : List CompressedFile) (archiveComment : Bytes) :
    Hooked σ Vec := do
  let s ← compressed.foldlM (fun s cf => do WriteProgress.report; plainly (writeEntry s cf))
    { out := [], cdir := [], localOffsets := [] }
  plainly do
    let out ← writeEndRecords X (s.needZip64 compressed) compressed.length s.cdirSize s.cdirOffset
      archiveComment (s.out ++ s.cdir)
    Vec.ofBytes out

/-- The bytes to process. The files are in memory together, so that the sum fits. -/
def totalLength (files : List ArchiveFile) : UInt64 :=
  (files.map fun f => UInt64.ofNat f.data.val.length).sum

/-- The body of `write_archive_full_with_progress`, once the progress is set up. -/
def writeArchiveHooked (files : List ArchiveFile) (opts : CompressOptions) (password : Bytes)
    (methods : List UInt16) (archiveComment : Bytes) : Hooked σ Vec := do
  WriteProgress.report
  let compressed ← compressFilesHooked X files opts
  let compressed ← plainly (encryptFiles X password methods compressed)
  let out ← writeCompressedHooked X compressed archiveComment
  WriteProgress.report
  pure out

/-- The write, with the state of the callback after it. -/
def writeArchiveFullWithProgress (files : List ArchiveFile) (opts : CompressOptions)
    (password : Bytes) (methods : List UInt16) (archiveComment : Bytes)
    (poll : Option (WriteProgressPoll σ)) (captured : σ) : Result Vec × σ :=
  let (result, p) := exec (writeArchiveHooked X files opts password methods archiveComment)
    (.new (totalLength files) poll captured)
  (result, p.captured)

end

end Kzip.Impl
