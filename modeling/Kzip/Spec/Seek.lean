import Kzip.Lib.Run
import Kzip.Impl.Seek

/-!
# Random access to a content

The calls on a reader, each with what it returned and the position after it (`accessResults`); and what
they should return on a content with a cursor in it (`cursorResults`).
-/

namespace Kzip.Spec

open Lib Kzip.Impl

inductive AccessCall where
  | seek (pos : UInt64)
  | read (call : ReadCall)

/-- A call on a reader: the bytes it returned, and the position after it. -/
def AccessCall.run (X : Extern) (r : EntryReader) (call : AccessCall) :
    EntryReader × Except IoError Bytes × Nat :=
  let (out, r) :=
    match call with
    | .seek pos => ((r.seek pos).1.map fun _ => [], (r.seek pos).2)
    | .read call => r.read X call
  (r, out, r.position)

/-- The call on a cursor in the content. -/
def AccessCall.spec (content : Bytes) (cursor : Nat) (call : AccessCall) :
    Nat × Except IoError Bytes × Nat :=
  match call with
  | .seek pos =>
    let cursor := min pos.toNat content.length
    (cursor, .ok [], cursor)
  | .read call =>
    let n := min call.len (content.length - cursor)
    (cursor + n, .ok ((content.drop cursor).take n), cursor + n)

def accessResults (X : Extern) (r : EntryReader) (calls : List AccessCall) :
    List (Except IoError Bytes × Nat) := outputs (AccessCall.run X) r calls

def cursorResults (content : Bytes) (cursor : Nat) (calls : List AccessCall) :
    List (Except IoError Bytes × Nat) := outputs (AccessCall.spec content) cursor calls

end Kzip.Spec
