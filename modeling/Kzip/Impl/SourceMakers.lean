import Kzip.Impl.SourceHandle

/-!
# Sources of fragments and of files

Both are read at once, into a buffer in memory: `zipSourceBufferFragmentCreate` puts fragments one behind the
other, and `sourceFileFromPath` reads a file and takes a window of it.
-/

namespace Kzip.Impl

open Lib Lib.Utf8

variable {σ : Type}

/-! ## Fragments -/

/-- A `zip_buffer_fragment`: a pointer that is null, or one to bytes. -/
inductive BufferFragment where
  | null (length : UInt64)
  | bytes (bs : Vec)

/-- The array of the fragments: a pointer that is null, or one to fragments. -/
inductive FragmentArray where
  | null (nfragments : UInt64)
  | fragments (frags : List BufferFragment)

/-- A round of the loop over the fragments, with the bytes so far and their number. -/
def appendFragment (p : Vec × UInt64) : BufferFragment → Result (Vec × UInt64)
  | .null length => if length = 0 then .ok p else .error (.err .inval)
  | .bytes bs =>
    let length := UInt64.ofNat bs.val.length
    if length = 0 then .ok p
    else if p.2.toNat + length.toNat < 2 ^ 64 then do
      let data ← Vec.ofBytes (p.1.val ++ bs.val)
      .ok (data, p.2 + length)
    else .error (.err .inval)

/-- The bytes of the fragments. -/
def FragmentArray.data : FragmentArray → Result Vec
  | .null nfragments => if nfragments > 0 then .error (.err .inval) else .ok .nil
  | .fragments frags => (frags.foldlM appendFragment (.nil, 0)).map (·.1)

/-- A window, or null for whatever went wrong. -/
def orNull (made : Result (Option (SourceHandle σ))) : Option (SourceHandle σ) := made.toOption.join

/-- The source, or null, and what the pointer for the error points to; the source is as old as the clock says, if
it says anything. -/
def zipSourceBufferFragmentCreate (X : Extern) (clock : Option UInt64) (array : FragmentArray)
    (errorp : Option ZipErrorCode) : Option (SourceHandle σ) × Option ZipErrorCode :=
  match orNull (array.data >>= fun data => makeMemorySource X data 0 (-1) clock) with
  | some src => (some src, errorp)
  | none => (none, errorp.map fun _ => .inval)

/-! ## Files -/

/-- What there is at a path. -/
structure FileOnDisk where
  isFile : Bool
  mtime : Option UInt64
  /-- The bytes, if they can be read. -/
  data : Option Vec

def sourceFileFromPath (X : Extern) (disk : Str → Option FileOnDisk) (path : Option Bytes) (start : UInt64)
    (len : Int64) : Option (SourceHandle σ) :=
  orNull <| match cStr path with
    | none => .error (.err .inval)
    | some path =>
      match disk path with
      | none => .error (.err .open)
      | some file =>
        if !file.isFile then .error (.err .open)
        else
          match file.data with
          | none => .error (.err .read)
          | some data => makeMemorySource X data start len file.mtime

def zipSourceFileCreate (X : Extern) (disk : Str → Option FileOnDisk) (path : Option Bytes) (start : UInt64)
    (len : Int64) (errorp : Option ZipErrorCode) : Option (SourceHandle σ) × Option ZipErrorCode :=
  match sourceFileFromPath X disk path start len with
  | some src => (some src, errorp)
  | none => (none, errorp.map fun _ => .open)

end Kzip.Impl
