import Kzip.Impl.WriteSession

/-!
# The target of a seek

`zip_source_seek_compute_offset`, with which the sources written in C work out where a seek leads. The
function runs under a guard that turns a panic into the failure value.
-/

namespace Kzip.Impl

/-- `ZIP_ER_INVAL` -/
def zipErInval : Int32 := 18

/-- The payload of a seek command. -/
structure SeekArgs where
  offset : Int64
  whence : Int32
  deriving DecidableEq, Repr

/-- `size_of::<ZipSourceArgsSeek>()` -/
def seekArgsSize : UInt64 := 16

/-- The payload behind a pointer to `len` bytes, `none` for a null pointer. -/
def sourceArgsSeek (data : Option SeekArgs) (len : UInt64) : Option SeekArgs :=
  if data.isNone ∨ len < seekArgsSize then none else data

/-- The target, or -1; and what the pointer for the error points to, if it is not null. -/
def sourceSeekComputeOffset (X : Extern) (offset length : UInt64) (data : Option SeekArgs)
    (dataLength : UInt64) (errorp : Option Int32) : Int × Option Int32 :=
  let invalid := errorp.map fun _ => zipErInval
  match sourceArgsSeek data dataLength with
  | none => (-1, invalid)
  | some args =>
    match seekTarget X args.whence args.offset offset length.toNat with
    | .error _ => (-1, errorp)
    | .ok none => (-1, invalid)
    | .ok (some newOffset) =>
      if newOffset < 0 ∨ newOffset.toNat > length.toNat then (-1, invalid) else (newOffset, errorp)

end Kzip.Impl
