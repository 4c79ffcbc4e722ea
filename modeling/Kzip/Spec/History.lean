import Kzip.Impl.Positioned

/-!
# Archives in use

An open archive with the readers that were opened on it and not dropped yet, and the calls on both. What
`Archive.readEntryAt` gives should not depend on the calls made before.
-/

namespace Kzip.Spec

open Kzip.Impl

inductive ReaderCall where
  | openEntry (index : Nat) (password : Option Bytes)
  | readEntry (sched : Schedule) (index : Nat) (password : Option Bytes)
  /-- One read of a reader that is still open. -/
  | read (reader : Nat) (call : ReadCall)
  | readToEnd (reader : Nat) (sched : Schedule)
  | drop (reader : Nat)

structure InUse where
  archive : Archive
  readers : List EntryReader

variable (X : Extern)

/-- A call; reading on leaves the archive alone, and dropping a reader gives its buffer back. -/
def InUse.step (u : InUse) : ReaderCall → InUse
  | .openEntry index password =>
    match u.archive.openEntryAt X index password with
    | (.ok r, a) => { archive := a, readers := u.readers ++ [r] }
    | (.error _, a) => { u with archive := a }
  | .readEntry sched index password =>
    { u with archive := (u.archive.readEntryAt X sched index password).2 }
  | .read i call => { u with readers := u.readers.modify i fun r => (r.read X call).2 }
  | .readToEnd i sched => { u with readers := u.readers.modify i fun r => (r.readToEnd X sched).2 }
  | .drop i =>
    match u.readers[i]? with
    | some r => { archive := u.archive.dropReader r, readers := u.readers.eraseIdx i }
    | none => u

/-- The archive after a sequence of calls, of which the first ones are made on a fresh archive. -/
def usedArchive (a : Archive) (calls : List ReaderCall) : Archive :=
  (calls.foldl (InUse.step X) { archive := a, readers := [] }).archive

end Kzip.Spec
