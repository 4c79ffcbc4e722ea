import Kzip.Impl.Copy
import Kzip.Spec.Archive

/-!
# What a source takes of an entry

A window of bytes (`window`), and what an entry is apart from where it lies: the bytes that are stored for it,
and what its record says of them (`StoredAlike`).
-/

namespace Kzip.Spec

open Kzip.Impl

/-- The bytes of a window; a negative length stands for the rest of them. -/
def window (data : Vec) (start : UInt64) (len : Int64) : Option Vec :=
  if start.toNat ≤ data.val.length then
    let rest := data.val.drop start.toNat
    some ⟨rest.take (if len < 0 then rest.length else len.toInt.toNat),
      Nat.lt_of_le_of_lt (List.length_take_le' ..)
        (Nat.lt_of_le_of_lt (by rw [List.length_drop]; exact Nat.sub_le ..) data.property)⟩
  else none

/-- The records say the same of the bytes that are stored. -/
structure StoredAlike (d e : Dirent) : Prop where
  bitflags : d.bitflags = e.bitflags
  compMethod : d.compMethod = e.compMethod
  encryptionMethod : d.encryptionMethod = e.encryptionMethod
  compSize : d.compSize = e.compSize
  uncompSize : d.uncompSize = e.uncompSize
  crc : d.crc = e.crc

/-- The archive was opened from bytes in memory or on disk, and then used. -/
def InService (X : Extern) (a : Archive) : Prop :=
  ∃ (kind : SourceKind) (bytes : Vec) (opened : Archive) (calls : List ArchiveCall),
    Archive.open { kind, bytes := bytes.val } = .ok opened ∧ a = after X calls opened

end Kzip.Spec
