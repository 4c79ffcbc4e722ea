import Kzip.Impl.File
import Kzip.Lib.Run

/-!
# What a sequence of reads should give

Reads of any lengths on one reader, each with what it returned. Read into a buffer with room, a reader
should give its stream in order and report the end of it once, with the outcome of its checks; read into
an empty buffer, it should do nothing (`ReadsStream`).
-/

namespace Kzip.Impl

/-- Whether a reader that has handed out all of `content` passes its checks. -/
structure EntryReader.Passes (X : Extern) (r : EntryReader) (content : Bytes) : Prop where
  no_err : r.inner.tailErr = none
  size : content.length = r.expectedSize.toNat
  crc : r.checkCrc = true → X.crc32 content = r.expectedCrc

end Kzip.Impl

namespace Kzip.Spec

open Lib Kzip.Impl

variable (X : Extern)

/-- The reader after a read. -/
def afterRead (r : EntryReader) (call : ReadCall) : EntryReader := (r.read X call).2

/-- What the reads return, one after the other. -/
def readResults : EntryReader → List ReadCall → List (Except IoError Bytes) :=
  outputs fun r call => (afterRead X r call, (r.read X call).1)

/-- Nothing is read, and no later reads tell that this one was made. -/
structure Harmless (r : EntryReader) (call : ReadCall) : Prop where
  nothing : (r.read X call).1 = .ok []
  unseen : ∀ later, readResults X (afterRead X r call) later = readResults X r later

/-- The bytes that a read put into its buffer. -/
def bytesRead : Except IoError Bytes → Bytes
  | .ok bs => bs
  | .error _ => []

def deliveredBytes (r : EntryReader) (calls : List ReadCall) : Bytes :=
  (readResults X r calls).flatMap bytesRead

/-- What the first read with room that gets no bytes returns. -/
def endReport : EntryReader → List ReadCall → Option (Except IoError Bytes)
  | _, [] => none
  | r, call :: calls =>
    if call.len ≠ 0 ∧ bytesRead (r.read X call).1 = [] then some (r.read X call).1
    else endReport (afterRead X r call) calls

/-- The reads give the stream of the reader, whatever their lengths. -/
structure ReadsStream (r : EntryReader) (calls : List ReadCall) : Prop where
  empty_reads : Along (afterRead X) (fun r call => call.len = 0 → Harmless X r call) r calls
  in_order : deliveredBytes X r calls <+: r.inner.remaining
  passes : ∀ o, endReport X r calls = some o → r.Passes X r.inner.remaining →
    o = .ok [] ∧ deliveredBytes X r calls = r.inner.remaining
  fails : ∀ o, endReport X r calls = some o → ¬ r.Passes X r.inner.remaining → ∃ e, o = .error e

end Kzip.Spec
