import Kzip.Impl.Getters
import Kzip.Impl.Stat

/-!
# What a handle reports

The getters that answer from the archive and the pending edits, without an overlay of the entry: the archive
comment, the external attributes, and the stat of an entry.
-/

namespace Kzip.Impl

open Lib.Utf8

/-- `zip_get_archive_comment`: the comment with a NUL behind it, `none` for a null pointer, and its length
as an `int`. -/
def Zip.getArchiveComment (z : Zip) : Option Bytes × Int32 :=
  (z.archiveComment, z.archiveComment.elim 0 fun bs => Int32.ofNat (bs.length - 1))

/-- `zip_get_name`: the name that an entry was opened with, as a C string. -/
def Zip.getName (z : Zip) (index : Nat) : Option Bytes :=
  (z.archive.name index).bind fun name => cString (asBytes name)

/-- The operating system and the attributes, if they are reported, and the handle. -/
def Zip.fileGetExternalAttributes (z : Zip) (index : Nat) : Option (UInt8 × UInt32) × Zip :=
  if z.validIndex index then (effectiveExtAttrs z.archive z.pending index, z) else (none, z.setErr .inval)

/-! ## The stat of an entry -/

structure ZipStat where
  valid : UInt64
  name : Option Bytes
  index : Nat
  size : UInt64
  compSize : UInt64
  mtime : Int
  crc : UInt32
  compMethod : UInt16
  encryptionMethod : UInt16
  flags : UInt32
  deriving DecidableEq

section
variable (X : Extern) (Z : Zone)

/-- The time is that of the pending edits; everything else is what the archive says. -/
def fillStat (z : Zip) (stat : Stat) : ZipStat :=
  let index := stat.index.getD 0
  let time := effectiveDostime X z.archive z.pending index
  { valid := stat.valid, name := z.getName index, index, size := stat.size.getD 0,
    compSize := stat.compSize.getD 0, mtime := asI64 (dosToUnix Z time.1 time.2).toNat, crc := stat.crc.getD 0,
    compMethod := stat.compMethod.getD 0, encryptionMethod := stat.encryptionMethod.getD 0, flags := 0 }

/-- The result, what is filled in if there is room for it, and the handle. -/
def zipStatIndex (z : Zip) (index : Nat) (sb : Bool) : Int × Option ZipStat × Zip :=
  match z.archive.stat Z index with
  | .ok stat => if sb then (0, some (fillStat X Z z stat), z) else (-1, none, z)
  | .error (.err code) => (-1, none, z.setErr code)
  | .error .panic => (-1, none, z)

/-- An entry that is not found leaves no error. -/
def zipStat (z : Zip) (fname : Option Bytes) (sb : Bool) : Int × Option ZipStat × Zip :=
  match (cStr fname).bind z.archive.nameLocate with
  | some index => zipStatIndex X Z z index sb
  | none => (-1, none, z)

end

end Kzip.Impl
