import Kzip.Impl.Archive
import Kzip.Impl.Compress

/-!
# The archive comment

Two archives of the same files with different comments, written one after the other, so that each
draws its own salts. A reader ought to see no difference in what they hold (`SameArchive`).
-/

namespace Kzip.Spec

open Kzip.Impl

/-- Another run of the program: it draws other salts. -/
def withSalt (X : Extern) (salt : Nat → (n : Nat) → Vector UInt8 n) : Extern :=
  { X with randomSalt := salt }

/-- What `writeArchiveFull` lays out: the files compressed, then encrypted. -/
def sealedFiles (X : Extern) (files : List ArchiveFile) (opts : CompressOptions) (password : Bytes)
    (methods : List UInt16) : Result (List CompressedFile) := do
  encryptFiles X password methods (← compressFiles X files opts)

/-- Both archives are opened, with the same entries; each entry reads the same from both, without a
password and with the one that it was encrypted with. -/
def SameArchive (X : Extern) (kind : SourceKind) (password : Bytes) (out₁ out₂ : Vec) : Prop :=
  ∃ a₁ a₂, Archive.open { kind, bytes := out₁.val } = .ok a₁ ∧
    Archive.open { kind, bytes := out₂.val } = .ok a₂ ∧ a₁.entries = a₂.entries ∧
    ∀ sched index pw, pw = none ∨ pw = some password →
      (a₁.readEntryWithPassword X sched index pw).1.toOption =
        (a₂.readEntryWithPassword X sched index pw).1.toOption

end Kzip.Spec
