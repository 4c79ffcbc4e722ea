import Kzip.Impl.SourceHandle
import Kzip.Impl.Stat

/-!
# Entries as sources

`zipSourceZipCreate` makes a source in memory of an entry of an archive as it was opened: of its content,
or of the bytes as they are stored. From there on the source has nothing to do with the archive.
-/

namespace Kzip.Impl

open Lib.Utf8

def zipFlCompressed : UInt32 := 4

/-- The bytes of an entry as they are stored, neither decompressed nor decrypted. -/
def Archive.readCompressedEntry (a : Archive) (index : Nat) : Result Bytes :=
  match a.entries[index]? with
  | none => .error (.err .inval)
  | some d =>
    if d.compSize > maxCdSize then .error (.err .centralDirTooLarge)
    else do
      -- the data offset is not looked up in the cache, and not put there
      let off ← localHeaderLen a.src d.offset.toNat
      a.src.readAt off d.compSize.toNat

section
variable (X : Extern)

/-- What a source is made of, and the archive that reading it leaves. -/
def Archive.sourceData (sched : Schedule) (a : Archive) (index : Nat) (flags : UInt32) :
    Result Bytes × Archive :=
  if flags &&& zipFlCompressed ≠ 0 then (a.readCompressedEntry index, a) else a.readEntry X sched index

/-- The source, or null; the handle; and what the pointer for the error points to: the last error of the
handle, on which no error is set. -/
def zipSourceZipCreate {σ : Type} (Z : Zone) (sched : Schedule) (z : Zip) (index : Nat) (flags : UInt32)
    (start : UInt64) (len : Int64) (errorp : Option ZipErrorCode) :
    Option (SourceHandle σ) × Zip × Option ZipErrorCode :=
  let (data, archive) := z.archive.sourceData X sched index flags
  let z := { z with archive }
  let mtime := (archive.stat Z index).toOption.bind (·.mtime)
  match data >>= Vec.ofBytes >>= fun data => makeMemorySource X data start len mtime with
  | .ok (some src) => (some src, z, errorp)
  | .ok none | .error _ => (none, z, errorp.map fun _ => z.error)

end

end Kzip.Impl
