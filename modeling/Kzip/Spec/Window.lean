import Kzip.Impl.SourceMakers
import Kzip.Spec.SourceHandle

/-!
# Windows on windows

A source is made of fragments or of a file, and windows are put on it, each on the one before. What comes of it
is described by the stretch of the bytes that is left (`Stretch.narrow`).
-/

namespace Kzip.Spec

open Kzip.Impl

/-- The bytes from `lo` up to `hi`. -/
structure Stretch where
  lo : Nat
  hi : Nat
  deriving DecidableEq

def Stretch.all (n : Nat) : Stretch := { lo := 0, hi := n }

/-- What a window leaves of a stretch; a negative length stands for the rest of it. -/
def Stretch.narrow (r : Stretch) (w : UInt64 × Int64) : Option Stretch :=
  let lo := r.lo + w.1.toNat
  if lo ≤ r.hi then some { lo, hi := if w.2 < 0 then r.hi else min (lo + w.2.toInt.toNat) r.hi } else none

def Stretch.cut (r : Stretch) (data : Vec) : Vec :=
  ⟨(data.val.drop r.lo).take (r.hi - r.lo), Nat.lt_of_le_of_lt (List.length_take_le' ..)
    (Nat.lt_of_le_of_lt (by rw [List.length_drop]; exact Nat.sub_le ..) data.property)⟩

/-- A source in memory that was just made. -/
def freshSource (σ : Type) (mtime : Option UInt64) (data : Vec) : SourceHandle σ :=
  { backend := .memory (.new data) mtime, refcount := 1 }

variable {σ : Type}

/-- Windows that are put on a source, each on the one before; what is left is the last of them, or null. -/
inductive Windows (X : Extern) (C : Callback σ) :
    Option (SourceHandle σ) → List (UInt64 × Int64) → Option (SourceHandle σ) → Prop
  | nil (s : Option (SourceHandle σ)) : Windows X C s [] s
  | cons {rounds : Nat} {s window left t : Option (SourceHandle σ)} {offset : UInt64} {len : Int64}
    {errorp e : Option ZipErrorCode} {ws : List (UInt64 × Int64)}
    (hcreate : zipSourceWindowCreate X C rounds s offset len errorp = some (window, left, e))
    (hrest : Windows X C window ws t) : Windows X C s ((offset, len) :: ws) t

/-- The bytes of a fragment, if there is a pointer to them or it is empty. -/
def fragmentBytes : BufferFragment → Option Bytes
  | .null length => if length = 0 then some [] else none
  | .bytes bs => some bs.val

/-- The bytes of the fragments one behind the other. -/
def arrayBytes : FragmentArray → Option Bytes
  | .null nfragments => if nfragments = 0 then some [] else none
  | .fragments frags => (frags.mapM fragmentBytes).map List.flatten

/-- The bytes of fragments, if they can be had and fit into a vector. -/
def arrayData (array : FragmentArray) : Option Vec := (arrayBytes array).bind fun bs => (Vec.ofBytes bs).toOption

/-- The bytes of the file at a path and its modification time, if it is a file that can be read. -/
def fileData (disk : Lib.Utf8.Str → Option FileOnDisk) (path : Option Bytes) : Option (Vec × Option UInt64) := do
  let file ← disk (← cStr path)
  let data ← file.data
  if file.isFile then some (data, file.mtime) else none

end Kzip.Spec
