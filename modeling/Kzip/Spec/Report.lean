import Kzip.Impl.Report
import Kzip.Spec.Close

/-!
# What the reports are worth

What a handle reports of its comment and of its entries is what a close writes (`Foretells`).
-/

namespace Kzip.Spec

open Lib Kzip.Impl

section
variable (X : Extern) (Z : Zone) (z : Zip)

/-- What is reported of the entry at `i` is what it is written with as `f`. An entry that is not in the archive
yet has no stat, and no attributes unless they were set. -/
structure Reported (i : Nat) (f : ArchiveFile × UInt16) : Prop where
  attributes : ∀ attrs, (z.fileGetExternalAttributes i).1 = some attrs →
    attrs = (f.1.opsys, f.1.externalAttributes)
  hasAttributes : i < z.archive.len → (z.fileGetExternalAttributes i).1.isSome
  time : i < z.archive.len → ∃ stat, zipStatIndex X Z z i true = (0, some stat, z) ∧
    (∀ fname, (cStr fname).bind z.archive.nameLocate = some i → zipStat X Z z fname true = (0, some stat, z)) ∧
    stat.mtime = asI64 (dosToUnix Z f.1.lastModTime f.1.lastModDate).toNat
  noStat : z.archive.len ≤ i → (zipStatIndex X Z z i true).1 = -1

/-- The reports are those of an archive of the files of `plan` with this comment. -/
structure Foretells (plan : List (ArchiveFile × UInt16)) (archiveComment : Bytes) : Prop where
  comment : z.getArchiveComment.1 = if archiveComment = [] then none else some (archiveComment ++ [0])
  commentLen : z.getArchiveComment.2.toInt = archiveComment.length
  entries : List.Forall₂ (Reported X Z z) (present z.archive.len (editsOf z.pending)) plan

end

end Kzip.Spec
