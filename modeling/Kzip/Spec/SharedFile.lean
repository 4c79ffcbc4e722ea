import Kzip.Impl.SharedFile
import Kzip.Lib.Run

/-!
# What a shared file handle should look like

Any number of readers over one file, in two machines that take the same operations: in one the readers
share a handle (`SharedReaders.step`), in the other each reader has a handle of its own that stands
where the reader does (`privateStep`). Both put out what a read returns, and the positions of all
readers after each operation.
-/

namespace Kzip.Spec

open Kzip.Impl

/-- An operation on the readers of a file, which are numbered in the order they were made. A read
names the bytes asked for, and how many of these the system is willing to give. -/
inductive FileOp where
  | atOffset (offset : UInt64)
  | duplicate (reader : Nat)
  | duplicateAt (reader : Nat) (offset : UInt64)
  | seek (reader : Nat) (pos : UInt64)
  | read (reader len limit : Nat)

/-- What an operation shows: the result of a read, and the positions of the readers. -/
abbrev Shown := Option (Result Bytes) × List UInt64

structure SharedReaders where
  state : SharedFileState
  readers : List SharedFile

def SharedReaders.positions (w : SharedReaders) : List UInt64 := w.readers.map (·.pos)

/-- The readers after an operation that does not read. -/
def SharedReaders.keep (w : SharedReaders) (readers : List SharedFile) : SharedReaders × Shown :=
  let w := { w with readers }
  (w, (none, w.positions))

def SharedReaders.step (X : Extern) (w : SharedReaders) : FileOp → SharedReaders × Shown
  | .atOffset offset => w.keep (w.readers ++ [.atOffset offset])
  | .duplicate i => w.keep (w.readers ++ (w.readers[i]?.map (·.duplicate)).toList)
  | .duplicateAt i offset => w.keep (w.readers ++ (w.readers[i]?.map (·.duplicateAt offset)).toList)
  | .seek i pos => w.keep (w.readers.modify i (·.seek pos))
  | .read i len limit =>
    match w.readers[i]? with
    | none => w.keep w.readers
    | some r =>
      let (result, state, r) := r.read X w.state len limit
      let w := { state, readers := w.readers.set i r }
      (w, (some result, w.positions))

/-- A read through a handle that stands at the position of its reader. -/
def privateRead (content : Vec) (pos : UInt64) (len limit : Nat) : Result Bytes × UInt64 :=
  match OsFile.seek { content, pos := 0 } pos with
  | none => (.error (.err .internal), pos)
  | some file => (.ok (file.read len limit).1, UInt64.ofNat (file.read len limit).2.pos)

/-- The positions of the readers after an operation, when every reader has a handle of its own. -/
def privateStep (content : Vec) (ps : List UInt64) : FileOp → List UInt64 × Shown
  | .atOffset offset => (ps ++ [offset], (none, ps ++ [offset]))
  | .duplicate i => let ps := ps ++ (ps[i]?.map fun _ => 0).toList; (ps, (none, ps))
  | .duplicateAt i offset => let ps := ps ++ (ps[i]?.map fun _ => offset).toList; (ps, (none, ps))
  | .seek i pos => let ps := ps.modify i fun _ => pos; (ps, (none, ps))
  | .read i len limit =>
    match ps[i]? with
    | none => (ps, (none, ps))
    | some pos =>
      let (result, pos) := privateRead content pos len limit
      let ps := ps.set i pos
      (ps, (some result, ps))

/-- A reader at the last position there is reads before the handle was moved. -/
def ReadsUnmoved (w : SharedReaders) : FileOp → Prop
  | .read i _ _ => w.readers[i]? = some { pos := 0xFFFFFFFFFFFFFFFF } ∧ w.state.lastPos = 0xFFFFFFFFFFFFFFFF
  | _ => False

end Kzip.Spec
