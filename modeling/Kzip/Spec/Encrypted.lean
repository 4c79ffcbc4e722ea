import Kzip.Spec.Archive
import Kzip.Spec.Writer

/-!
# What the writer of encrypted archives promises

The content that a password gives back (`ReadsWith`) and that is refused without one (`LockedOut`), and when
the writer puts a ZIP64 locator.
-/

namespace Kzip.Spec

open Kzip.Impl

/-- Reading the entry at `index` with the password gives `content`, whatever was read before. -/
def ReadsWith (X : Extern) (a : Archive) (index : Nat) (password content : Bytes) : Prop :=
  ∀ calls sched,
    ((after X calls a).readEntryWithPassword X sched index (some password)).1 = .ok content

/-- The entry is refused as long as no password is known. -/
def LockedOut (X : Extern) (a : Archive) (index : Nat) : Prop :=
  ∀ calls sched, (after X calls a).password = none →
    ((after X calls a).readEntry X sched index).1 = .error (.err .nopasswd)

/-- Whether the writer puts a ZIP64 locator after the encrypted files. -/
def encryptedLocator (X : Extern) (files : List ArchiveFile) (opts : CompressOptions)
    (password : Bytes) (methods : List UInt16) : Bool :=
  match encryptedFiles X files opts password methods with
  | .error _ => false
  | .ok cfs =>
    match writeEntries cfs with
    | .error _ => false
    | .ok s => s.needZip64 cfs

end Kzip.Spec
