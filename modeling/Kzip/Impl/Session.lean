import Kzip.Impl.Close
import Kzip.Impl.ErrorObject

/-!
# Opening and closing handles

`zipOpen` makes a handle of a file, `zipFdopen` of a descriptor; `zip_open_from_source` is in
`Kzip.Impl.ErrorObject`. `zipClose` writes the archive back to the file if there is something to write.
The files of the system are a function of their paths, which is updated by a write.
-/

namespace Kzip.Impl

open Lib.Utf8

def zipCreate : Int32 := 1
def zipCheckcons : Int32 := 4

/-- `MAX_OPEN_FILE_SIZE` -/
def maxOpenFileSize : Nat := 2 * 1024 * 1024 * 1024

/-- The files, by path. -/
abbrev Files := Str → Option Vec

/-- What `zip_open` and `zip_close` keep of a handle beside the archive and its edits. -/
structure Handle where
  zip : Zip
  /-- The file that the archive is written to, if it was opened from one. -/
  path : Option Str
  /-- Whether the file was there when it was opened. -/
  existed : Bool

/-- What the system answers when a file is opened: whether it can be opened, whether it can be read, and
whether it is mapped. -/
structure OpenEnv where
  opens : Bool
  reads : Bool
  maps : Bool

/-- A handle that is not of a file. -/
def Handle.detached (z : Zip) : Handle := { zip := z, path := none, existed := true }

/-- A call that gives a handle, or null: the handle, and the code it reports. A panic is an internal
error. -/
def reported (r : Result Handle) : Option Handle × ZipErrorCode :=
  match r with
  | .ok h => (some h, .ok)
  | .error (.err code) => (none, code)
  | .error .panic => (none, .internal)

section
variable (X : Extern)

/-- The archive without entries that a new handle starts from. -/
def emptyArchive : Result Archive := do
  let empty ← writeArchive X [] .default
  Archive.open { kind := .vec, bytes := empty.val }

def openFile (env : OpenEnv) (bytes : Vec) (flags : Int32) : Result Archive :=
  if !env.opens then .error (.err .open)
  else if flags &&& zipRdonly ≠ 0 then Archive.open { kind := .file env.maps, bytes := bytes.val }
  else if !env.reads then .error (.err .read)
  else if bytes.val.length > maxOpenFileSize then .error (.err .memory)
  else Archive.open { kind := .arc, bytes := bytes.val }

def openPath (env : OpenEnv) (files : Files) (path : Str) (flags : Int32) : Result Handle :=
  let existed := (files path).isSome
  let archive : Result Archive :=
    match files path with
    | none => if flags &&& zipCreate = 0 then .error (.err .open) else emptyArchive X
    | some bytes => if flags &&& zipTruncate ≠ 0 then emptyArchive X else openFile env bytes flags
  archive.map fun archive => { zip := makeZip archive flags, path := some path, existed }

def zipOpen (env : OpenEnv) (files : Files) (path : Option Bytes) (flags : Int32) :
    Option Handle × ZipErrorCode :=
  match cStr path with
  | none => reported (.error (.err .inval))
  | some path => reported (openPath X env files path flags)

/-- A file descriptor: one that cannot be duplicated, or the bytes behind it, if they can be read. -/
inductive Descriptor where
  | invalid
  | content (bytes : Option Vec)

def zipFdopen (fd : Descriptor) (flags : Int32) : Option Handle × ZipErrorCode :=
  reported <|
    if flags < 0 ∨ flags &&& ~~~(zipCheckcons ||| zipRdonly) ≠ 0 then .error (.err .inval)
    else
      match fd with
      | .invalid => .error (.err .open)
      | .content none => .error (.err .read)
      | .content (some bytes) =>
        (Archive.open { kind := .vec, bytes := bytes.val }).map fun archive =>
          .detached (makeZip archive flags)

/-! ## Closing -/

/-- How writing the file ends: all of it is written, or this is left of it. -/
inductive WriteOutcome where
  | written
  | failed (left : Option Vec)

def Handle.shouldWrite (h : Handle) : Bool :=
  !h.zip.pending.isEmpty || (!h.existed && h.zip.flags &&& zipCreate ≠ 0)

/-- `std::fs::write` -/
def writeFile (outcome : WriteOutcome) (files : Files) (path : Str) (bytes : Vec) : Bool × Files :=
  match outcome with
  | .written => (true, fun p => if p = path then some bytes else files p)
  | .failed left => (false, fun p => if p = path then left else files p)

/-- The result, the files, and what is left of the handle: it is freed unless the call panics. -/
def zipClose (sched : Nat → Schedule) (outcome : WriteOutcome) (files : Files) (h : Handle) :
    Int × Files × Option Handle :=
  if !h.shouldWrite then (0, files, none)
  else
    match h.zip.materialize X sched with
    | .error (.err _) => (-1, files, none)
    | .error .panic => (-1, files, some h)
    | .ok bytes =>
      match h.path with
      | none => (-1, files, none)
      | some path =>
        let (done, files) := writeFile outcome files path bytes
        (if done then 0 else -1, files, none)

end

end Kzip.Impl
