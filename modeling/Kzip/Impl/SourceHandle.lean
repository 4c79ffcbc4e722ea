import Kzip.Impl.Edit
import Kzip.Impl.WriteSession
import Kzip.Lib.Loop

/-!
# Source handles

A source as the calls that take one see it: a reference count, and a backend, which is a buffer in memory
or a callback of the user. A call reads a source through the commands of the backend. Reading may not
come to an end, so a call is given the number of rounds that its loop may take, and has no result if they
do not suffice.
-/

namespace Kzip.Impl

open Lib

/-- A callback of the user, where `σ` is the data behind it, with the sources below it if it is a layer. It
may do anything: it need not yield the same bytes when it is opened again, nor ever come to an end. -/
structure Callback (σ : Type) where
  /-- `ZIP_SOURCE_OPEN` -/
  cmdOpen : σ → Int × σ
  /-- `ZIP_SOURCE_READ` into a buffer of this size: the bytes, or the result if it is negative. -/
  cmdRead : Nat → σ → Except Int Bytes × σ
  /-- `ZIP_SOURCE_CLOSE` -/
  cmdClose : σ → σ
  /-- `ZIP_SOURCE_STAT`, with the modification time if it is valid. -/
  cmdStat : σ → Option UInt64 × σ

inductive SourceBackend (σ : Type) where
  | memory (m : MemorySource) (mtime : Option UInt64)
  /-- `Function` and `Layered` -/
  | callback (ud : σ)

structure SourceHandle (σ : Type) where
  backend : SourceBackend σ
  refcount : Int32

variable {σ : Type}

/-- `zip_source_free`: what is left of the source. -/
def SourceHandle.free (s : SourceHandle σ) : Option (SourceHandle σ) :=
  if s.refcount ≤ 1 then none else some { s with refcount := s.refcount - 1 }

/-- `take_memory_data`: moves the buffer out of a source in memory. -/
def SourceHandle.takeMemoryData (s : SourceHandle σ) : Option Vec × SourceHandle σ :=
  match s.backend with
  | .memory m mtime => (some m.data, { s with backend := .memory { m with data := .nil } mtime })
  | .callback _ => (none, s)

/-! ## Commands -/

section
variable (C : Callback σ)

def SourceHandle.dispatchOpen (s : SourceHandle σ) : Int × SourceHandle σ :=
  match s.backend with
  | .memory m mtime => (m.open.1, { s with backend := .memory m.open.2 mtime })
  | .callback ud => ((C.cmdOpen ud).1, { s with backend := .callback (C.cmdOpen ud).2 })

/-- The size of the buffer that `read_all` reads into. -/
def readBufferSize : Nat := 65536

def SourceHandle.dispatchRead (s : SourceHandle σ) : Except Int Bytes × SourceHandle σ :=
  match s.backend with
  | .memory m mtime =>
    let r := m.read (UInt64.ofNat readBufferSize)
    (.ok r.1, { s with backend := .memory r.2 mtime })
  | .callback ud =>
    let r := C.cmdRead readBufferSize ud
    (r.1, { s with backend := .callback r.2 })

def SourceHandle.dispatchClose (s : SourceHandle σ) : SourceHandle σ :=
  match s.backend with
  | .memory _ _ => s
  | .callback ud => { s with backend := .callback (C.cmdClose ud) }

/-- The modification time that `ZIP_SOURCE_STAT` reports. -/
def SourceHandle.dispatchStat (s : SourceHandle σ) : Option UInt64 × SourceHandle σ :=
  match s.backend with
  | .memory _ mtime => (mtime, s)
  | .callback ud => ((C.cmdStat ud).1, { s with backend := .callback (C.cmdStat ud).2 })

/-! ## Reading -/

/-- A round of the loop of `read_all`. -/
def readRound (p : SourceHandle σ × Vec) : (SourceHandle σ × Vec) ⊕ (Result Vec × SourceHandle σ) :=
  match p.1.dispatchRead C with
  | (.error _, s) => .inr (.error (.err .read), s.dispatchClose C)
  | (.ok bs, s) =>
    if bs = [] then .inr (.ok p.2, s.dispatchClose C)
    -- a callback that says it has read more than there is room for
    else if readBufferSize < bs.length then .inr (.error .panic, s)
    else
      match Vec.ofBytes (p.2.val ++ bs) with
      | .error e => .inr (.error e, s)
      | .ok out => .inl (s, out)

/-- `read_all`, with the error that its callers make of a failure. -/
def SourceHandle.readAll (rounds : Nat) (s : SourceHandle σ) : Option (Result Vec × SourceHandle σ) :=
  let (r, s) := s.dispatchOpen C
  if r < 0 then some (.error (.err .read), s) else runLoop (readRound C) rounds (s, .nil)

/-- The bytes that a call takes from a source. -/
def SourceHandle.takeData (rounds : Nat) (s : SourceHandle σ) :
    Option (Result Vec × SourceHandle σ) :=
  match s.takeMemoryData with
  | (some data, s) => some (.ok data, s)
  | (none, s) => s.readAll C rounds

/-! ## The calls -/

/-- The error that a failed read leaves on the handle; a call that panics leaves none. -/
def Zip.readFailed (z : Zip) : Fault → Zip
  | .err _ => z.setErr .read
  | .panic => z

def zipFileAdd (rounds : Nat) (z : Zip) (name : Option Bytes) (source : Option (SourceHandle σ))
    (flags : UInt32) : Option (Int × Zip × Option (SourceHandle σ)) :=
  if z.readOnly then some (-1, z.setErr .rdonly, source)
  else
    match cStr name, source with
    | some name, some src =>
      (src.takeData C rounds).map fun (data, src) =>
        match data with
        | .error e => (-1, z.readFailed e, some src)
        | .ok data =>
          match z.archive.nameLocate name with
          | some idx =>
            if flags &&& zipFlOverwrite ≠ 0 then
              (idx, { z with pending.replaces := pushAt z.pending.replaces idx data }, some src)
            else (-1, z.setErr .exists, some src)
          | none =>
            (z.total, { z with pending.adds := z.pending.adds ++ [{ name, data }] }, some src)
    | _, _ => some (-1, z.setErr .inval, source)

def zipFileReplace (rounds : Nat) (z : Zip) (index : Nat) (source : Option (SourceHandle σ)) :
    Option (Int × Zip × Option (SourceHandle σ)) :=
  if z.readOnly then some (-1, z.setErr .rdonly, source)
  else
    match source with
    | none => some (-1, z.setErr .inval, none)
    | some src =>
      if index < z.archive.len then
        (src.takeData C rounds).map fun (data, src) =>
          match data with
          | .error e => (-1, z.readFailed e, some src)
          | .ok data =>
            (0, { z with pending.replaces := pushAt z.pending.replaces index data }, some src)
      else some (-1, z.setErr .inval, some src)

end

/-! ## Windows -/

/-- `ZIP_LENGTH_UNCHECKED` -/
def zipLengthUnchecked : Int64 := -2

/-- Where the window stops in `dlen` bytes; a negative length stands for the rest of them. -/
def windowStop (X : Extern) (dlen start : UInt64) (len : Int64) : Result UInt64 :=
  if len = zipLengthUnchecked then .ok dlen
  else if len < 0 then .ok dlen
  else (addU64 X start len.toUInt64).map (min · dlen)

/-- A source in memory over a window of the data, if the window is in it. -/
def makeMemorySource (X : Extern) (data : Vec) (start : UInt64) (len : Int64) (mtime : Option UInt64) :
    Result (Option (SourceHandle σ)) :=
  let dlen := UInt64.ofNat data.val.length
  (windowStop X dlen start len).map fun hi =>
    if start > hi ∨ start > dlen then none
    else
      let slice : Vec := ⟨(data.val.drop start.toNat).take (hi - start).toNat,
        Nat.lt_of_le_of_lt (List.length_take_le' _ _)
          (Nat.lt_of_le_of_lt (by rw [List.length_drop]; exact Nat.sub_le _ _) data.property)⟩
      some { backend := .memory (.new slice) mtime, refcount := 1 }

/-- The window, or null; the source that is left to the caller; and what the pointer for the error points
to. -/
def zipSourceWindowCreate (X : Extern) (C : Callback σ) (rounds : Nat) (src : Option (SourceHandle σ))
    (offset : UInt64) (len : Int64) (errorp : Option ZipErrorCode) :
    Option (Option (SourceHandle σ) × Option (SourceHandle σ) × Option ZipErrorCode) :=
  let invalid := errorp.map fun _ => ZipErrorCode.inval
  match src with
  | none => some (none, none, invalid)
  | some s =>
    let st := s.dispatchStat C
    (st.2.readAll C rounds).map fun (data, s) =>
      match data with
      | .error _ => (none, some s, invalid)
      | .ok data =>
        -- the lower source is freed before the bounds of the window are checked
        match makeMemorySource X data offset len st.1 with
        | .ok (some window) => (some window, s.free, errorp)
        | _ => (none, s.free, invalid)

end Kzip.Impl
