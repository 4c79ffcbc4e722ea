import Kzip.Impl.Archive
import Kzip.Impl.ModifyFile
import Kzip.Spec.Modify

/-!
# What a failed modification leaves of a file

Which operations on the file fail is up to the system, and so is what a failed write leaves of the new
directory. A modification ends in one of four ways (`Ending`), two of which leave an archive. In all of them
a handle that was opened before still reads the entries before the directory (`Salvageable`).
-/

namespace Kzip.Spec

open Kzip.Impl Lib.Utf8

/-- A write within a file that fails changes nothing before its position. -/
def KeepsBefore (sys : FileSystem) : Prop :=
  ∀ f, f.pos ≤ f.content.val.length → (sys.torn f).content.val.take f.pos = f.content.val.take f.pos

/-- A seek or a read is among the operations that failed. -/
def Missed (faults : List FileCall) : Prop := .seek ∈ faults ∨ .read ∈ faults

/-- The last end record that is not passed over. -/
def lastEndRecord (bytes : Bytes) : Option EndRecord :=
  let tailStart := bytes.length - min bytes.length maxCdBuffer
  let tail := bytes.drop tailStart
  (candidates tail tailStart).findSome? (endRecordAt tail tailStart)

/-- The directory that the 32-bit fields of an end record lead to, which has a ZIP64 locator before it. -/
def NarrowDirectory (src : Source) (cd : CentralDir) : Prop :=
  ∃ r, lastEndRecord src.bytes = some r ∧ r.locator.isSome = true ∧
    finishCdir src r.comment r.numEntries true r.cdirSize r.cdirOffset = .ok cd

/-- The directory that may be found in a file, when these operations failed: its own, or, where a ZIP64 end
record could not be read, which goes unnoticed, the one without that record. -/
def MayFind (sys : FileSystem) (content : Vec) (faults : List FileCall) (cd : CentralDir) : Prop :=
  readCentralDir { kind := .file sys.maps, bytes := content.val } = .ok cd ∨
    Missed faults ∧ NarrowDirectory { kind := .file sys.maps, bytes := content.val } cd

/-- The archive with the directory `cd` replaced by the modified one. -/
def Rewritten (X : Extern) (content : Vec) (renames : List (UInt64 × Str)) (deletes : List UInt64)
    (cd : CentralDir) (out : Vec) : Prop :=
  cd.cdirOffset.toNat + cd.cdirSize.toNat ≤ content.val.length ∧
    ∃ s, (modified renames deletes cd).serialize X = .ok s ∧ out.val = content.val.take cd.cdirOffset.toNat ++ s

/-- What the archive is to become: what the modification in memory makes of it, or, where its ZIP64 end record
could not be read, what replacing the directory without that record makes of it. -/
def Intended (X : Extern) (sys : FileSystem) (content : Vec) (renames : List (UInt64 × Str))
    (deletes : List UInt64) (faults : List FileCall) (out : Vec) : Prop :=
  modifyArchive X content.val renames deletes = .ok out ∨
    Missed faults ∧ ∃ cd, NarrowDirectory { kind := .file sys.maps, bytes := content.val } cd ∧
      Rewritten X content renames deletes cd out

/-- How the modification of a file with this content ends: which operations failed, what it gives, and what is
left in the file. -/
inductive Ending (X : Extern) (sys : FileSystem) (content : Vec) (renames : List (UInt64 × Str))
    (deletes : List UInt64) (faults : List FileCall) : Result UInt64 → Vec → Prop
  /-- An operation failed, or the archive cannot be modified in memory either. -/
  | untouched (e : Fault)
    (hwhy : faults ≠ [] ∨ ∀ out, modifyArchive X content.val renames deletes ≠ .ok out) :
    Ending X sys content renames deletes faults (.error e) content
  | modified (out : Vec) (hout : Intended X sys content renames deletes faults out) :
    Ending X sys content renames deletes faults (.ok (UInt64.ofNat out.val.length)) out
  /-- The file could not be cut off behind the new archive. -/
  | uncut (out file : Vec) (e : Fault) (hout : Intended X sys content renames deletes faults out)
    (hfails : .setLen ∈ faults) (hfile : file.val = out.val ++ content.val.drop out.val.length) :
    Ending X sys content renames deletes faults (.error e) file
  /-- The new directory could not be written, if only because it is too long for a file. -/
  | torn (cd : CentralDir) (s : Bytes) (file : Vec) (e : Fault) (hcd : MayFind sys content faults cd)
    (hs : (modified renames deletes cd).serialize X = .ok s) (hfails : .write ∈ faults)
    (hle : cd.cdirOffset.toNat ≤ content.val.length)
    (hfile : file = (sys.torn { content, pos := cd.cdirOffset.toNat }).content) :
    Ending X sys content renames deletes faults (.error e) file

/-- What lies before the directory, whichever may be found, is as it was. -/
def KeptBefore (sys : FileSystem) (content : Vec) (faults : List FileCall) (file : Vec) : Prop :=
  ∀ n, (∀ cd, MayFind sys content faults cd → n ≤ cd.cdirOffset.toNat) → file.val.take n = content.val.take n

/-- A handle that was opened on the old content reads from the file the entries that lie before the directory,
whichever may be found, as it did before. -/
def Salvageable (X : Extern) (sys : FileSystem) (content : Vec) (faults : List FileCall) (file : Vec) : Prop :=
  ∀ a (i : Nat) d off, Archive.open { kind := .file sys.maps, bytes := content.val } = .ok a →
    a.entries[i]? = some d → localHeaderLen a.src d.offset.toNat = .ok off →
    (∀ cd, MayFind sys content faults cd → off + d.compSize.toNat ≤ cd.cdirOffset.toNat) →
    ∀ sched password v,
      (({ a with src.bytes := file.val } : Archive).readEntryWithPassword X sched i password).1 = .ok v ↔
        (a.readEntryWithPassword X sched i password).1 = .ok v

end Kzip.Spec
