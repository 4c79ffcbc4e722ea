import Kzip.Impl.Cdir
import Kzip.Lib.Indexed
import Mathlib.Data.List.Sort

/-!
# In-place modification

`modifyArchive` renames and removes entries of an archive: its data region is kept and the directory
is serialized again.
-/

namespace Kzip.Impl

open Lib.Utf8

/-- Renames by original index; an index out of range is skipped. -/
def applyRenames (renames : List (UInt64 × Str)) (entries : List Dirent) : List Dirent :=
  renames.foldl (fun es r => es.modify r.1.toNat fun d => { d with filename := r.2 }) entries

/-- Removes entries by original index: the indices are sorted, deduplicated and removed from the
last on, so that each removal leaves the earlier ones in place. -/
def applyDeletes (deletes : List UInt64) (entries : List Dirent) : List Dirent :=
  let dels := Lib.dedup (deletes.insertionSort (· ≤ ·))
  dels.reverse.foldl (fun es d => es.eraseIdx d.toNat) entries

def modifyArchive (X : Extern) (bytes : Bytes) (renames : List (UInt64 × Str))
    (deletes : List UInt64) : Result Vec := do
  let cd ← readCentralDir { kind := .vec, bytes }
  if cd.cdirOffset.toNat > bytes.length ∨ cd.cdirSize.toNat > bytes.length ∨
      2 ^ 64 ≤ cd.cdirOffset.toNat + cd.cdirSize.toNat ∨
      cd.cdirOffset.toNat + cd.cdirSize.toNat > bytes.length then
    .error (.err .incons)
  else do
    let entries := applyDeletes deletes (applyRenames renames cd.entries)
    let newSerialized ← CentralDir.serialize X { cd with entries }
    Vec.ofBytes (bytes.take cd.cdirOffset.toNat ++ newSerialized)

end Kzip.Impl
