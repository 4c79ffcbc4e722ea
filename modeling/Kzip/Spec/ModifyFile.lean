import Kzip.Impl.ModifyFile

/-!
# What a modification of a file should do

The same as one in memory (`FollowsMemory`).
-/

namespace Kzip.Spec

open Kzip.Impl

/-- The file `content`, with the file pointer at its start, before anything failed. -/
def closedFile (content : Vec) : Disk := { file := { content, pos := 0 }, calls := 0, faults := [] }

/-- The result of a modification of a file with `content`, and the file after it, against the result of
the modification in memory. -/
structure FollowsMemory (content : Vec) (memory : Result Vec) (result : Result UInt64) (file : Vec) :
    Prop where
  succeeds : (∃ len, result = .ok len) ↔ ∃ out, memory = .ok out
  modified : ∀ out, memory = .ok out → file = out ∧ result = .ok (UInt64.ofNat out.val.length)
  untouched : (∀ out, memory ≠ .ok out) → file = content

end Kzip.Spec
