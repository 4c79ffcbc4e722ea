import Kzip.Impl.Archive
import Kzip.Impl.Time

/-!
# Entry metadata

`Archive.stat` reports what the central record of an entry says, the encryption method among it.
-/

namespace Kzip.Impl

open Lib.Utf8

structure Stat where
  index : Option Nat
  name : Option Str
  size : Option UInt64
  compSize : Option UInt64
  mtime : Option UInt64
  crc : Option UInt32
  compMethod : Option UInt16
  encryptionMethod : Option UInt16
  valid : UInt64
  deriving DecidableEq

/-- The CRC of an entry without a real one is not marked as valid. -/
def Archive.stat (Z : Zone) (a : Archive) (index : Nat) : Result Stat :=
  match a.entries[index]? with
  | none => .error (.err .inval)
  | some d =>
    .ok { index := some index, name := some d.filename, size := some d.uncompSize,
          compSize := some d.compSize, mtime := some (dosToUnix Z d.lastModTime d.lastModDate),
          crc := some d.crc, compMethod := some (methodToU16 d.compMethod),
          encryptionMethod := some d.encryptionMethod,
          valid := if d.crcValid then 0xFF else 0xFF &&& ~~~0x20 }

end Kzip.Impl
