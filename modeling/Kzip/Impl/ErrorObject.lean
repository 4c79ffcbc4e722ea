import Kzip.Impl.Zip
import Kzip.Lib.Heap

/-!
# Error objects

`ZipErrorT` is the `zip_error_t` that a caller owns and passes to the calls that report an error. Its string is
one that the heap handed out (`CString::into_raw`), which `zipErrorSet` and `zipErrorFini` release
(`CString::from_raw`), or a message of the program, which `setZipError` stores. A null pointer for the object
is left out: the calls do nothing to it.
-/

namespace Kzip.Impl

open Lib

/-! ## Messages -/

/-- The messages, by error code. -/
def errMessages : List String :=
  ["No error", "Multi-disk zip archives not supported", "Renaming temporary file failed",
    "Closing zip archive failed", "Seek error", "Read error", "Write error", "CRC error",
    "Containing zip archive was closed", "No such file", "File already exists", "Can't open file",
    "Failure to create temporary file", "Zlib error", "Malloc failure", "Entry has been changed",
    "Compression method not supported", "Premature end of file", "Invalid argument", "Not a zip archive",
    "Internal error", "Zip archive inconsistent", "Can't remove file", "Entry has been deleted",
    "Encryption method not supported", "Read-only archive", "No password provided",
    "Wrong password provided", "Operation not supported", "Resource still in use", "Tell error",
    "Compressed data invalid", "Operation cancelled", "Unexpected length of data",
    "Not allowed in torrentzip", "Possibly truncated or corrupted zip archive", "Extra fields too large",
    "Decompressed data exceeds the size limit", "Central directory too large"]

def errStr (code : Int32) : String :=
  if code < 0 then "Internal error" else errMessages.getD code.toNatClampNeg "Internal error"

/-- The same messages as strings of the program, each with a NUL at its end. -/
def errCstr (code : Int32) : String := errStr code

/-- `as_i32`: the codes are numbered in the order of the enumeration. -/
def ZipErrorCode.asI32 (code : ZipErrorCode) : Int32 := Int32.ofNat code.ctorIdx

example : ZipErrorCode.centralDirTooLarge.asI32 = 38 := rfl

/-! ## The calls -/

structure ZipErrorT where
  zipErr : Int32
  sysErr : Int32
  str : Ptr String
  deriving DecidableEq, Repr

/-- An error object of a caller, and the heap that its strings come from. -/
structure ErrorObject where
  ze : ZipErrorT
  heap : Heap String
  deriving DecidableEq, Repr

/-- `CString::new(err_str(code)).unwrap_or_default().into_raw()` -/
def ErrorObject.intoRaw (o : ErrorObject) (code : Int32) : Ptr String × Heap String :=
  o.heap.alloc (errStr code)

def zipErrorInit (o : ErrorObject) : ErrorObject := { o with ze := { zipErr := 0, sysErr := 0, str := .null } }

def zipErrorInitWithCode (code : Int32) (o : ErrorObject) : ErrorObject :=
  let (str, heap) := o.intoRaw code
  { ze := { zipErr := code, sysErr := 0, str }, heap }

/-- `drop(CString::from_raw(str))`, unless the string is null. -/
def ErrorObject.dropStr (o : ErrorObject) : ErrorObject :=
  if o.ze.str = .null then o else { o with heap := o.heap.release o.ze.str }

def zipErrorSet (zipErr sysErr : Int32) (o : ErrorObject) : ErrorObject :=
  let (str, heap) := o.dropStr.intoRaw zipErr
  { ze := { zipErr, sysErr, str }, heap }

/-- The string, which is allocated if it is not there. -/
def zipErrorStrerror (o : ErrorObject) : Ptr String × ErrorObject :=
  if o.ze.str = .null then
    let (str, heap) := o.intoRaw o.ze.zipErr
    (str, { ze := { o.ze with str }, heap })
  else (o.ze.str, o)

def zipErrorFini (o : ErrorObject) : ErrorObject :=
  { o.dropStr with ze := { zipErr := 0, sysErr := 0, str := .null } }

def setZipError (code sys : Int32) (o : ErrorObject) : ErrorObject :=
  { o with ze := { zipErr := code, sysErr := sys, str := .static (errCstr code) } }

/-! ## Opening an archive from a source -/

def zipTruncate : Int32 := 8

section
variable (X : Extern)

/-- The archive in the bytes of a source; with `ZIP_TRUNCATE` they are discarded, for an empty archive. -/
def openBytes (flags : Int32) (bytes : Vec) : Result Archive :=
  if flags &&& zipTruncate ≠ 0 then do
    let empty ← writeArchive X [] .default
    Archive.open { kind := .vec, bytes := empty.val }
  else Archive.open { kind := .vec, bytes := bytes.val }

/-- What `zip_open_from_source` runs under `catch_unwind`. -/
def openSource (src : Option ZipSource) (flags : Int32) : Result Zip :=
  if flags < 0 then .error (.err .inval)
  else
    match src with
    | none => .error (.err .inval)
    | some s =>
      match s.readAll with
      | none => .error (.err .read)
      | some bytes => (openBytes X flags bytes).map fun archive => makeZip archive flags

/-- The handle, or null; and the error object that was passed. -/
def zipOpenFromSource (src : Option ZipSource) (flags : Int32) (o : ErrorObject) :
    Option Zip × ErrorObject :=
  match openSource X src flags with
  | .ok z => (some z, { o with ze := { o.ze with zipErr := 0, sysErr := 0 } })
  | .error (.err code) => (none, setZipError code.asI32 0 o)
  | .error .panic => (none, setZipError ZipErrorCode.internal.asI32 0 o)

end

end Kzip.Impl
