import Kzip.Impl.Cdir
import Kzip.Lib.Indexed

/-!
# What a modification of an archive means

The entries that survive a list of renames and deletes (`survivors`), the directory they are
serialized to (`directoryBytes`), and entries compared without the ZIP64 field, which a serializer
regenerates (`withoutZip64`).
-/

namespace Kzip.Spec

open Lib Lib.Utf8 Kzip.Impl

/-- An entry with the name of the last rename of its index, if there is one. -/
def renamed (renames : List (UInt64 × Str)) (i : Nat) (d : Dirent) : Dirent :=
  (lastAt (renames.map fun r => (r.1.toNat, r.2)) i).elim d fun name => { d with filename := name }

/-- The entries whose index is not deleted, in order, each with its last new name. -/
def survivors (renames : List (UInt64 × Str)) (deletes : List UInt64) (entries : List Dirent) :
    List Dirent :=
  keepIdx (deletes.map UInt64.toNat) (entries.mapIdx (renamed renames))

/-- A directory after the renames and deletes. -/
def modified (renames : List (UInt64 × Str)) (deletes : List UInt64) (cd : CentralDir) :
    CentralDir :=
  { cd with entries := survivors renames deletes cd.entries }

/-- The record of an entry, if it has one. -/
def recordBytes (d : Dirent) : Bytes := d.toCentralRecord.toOption.getD []

/-- The serialized directory of a list of entries. -/
def directoryBytes (entries : List Dirent) : Bytes := entries.flatMap recordBytes

/-- Whether a locator is put when a modified directory is serialized. -/
def rewritesLocator (renames : List (UInt64 × Str)) (deletes : List UInt64) (cd : CentralDir) : Bool :=
  (modified renames deletes cd).needZip64
    (UInt64.ofNat (directoryBytes (survivors renames deletes cd.entries)).length)

/-- An entry apart from its ZIP64 extra field. -/
def withoutZip64 (d : Dirent) : Dirent :=
  { d with extraFields := d.extraFields.filter fun f => f.1 != extraFieldZip64 }

end Kzip.Spec
