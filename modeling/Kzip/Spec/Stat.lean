import Kzip.Impl.Stat
import Kzip.Spec.Archive

/-!
# Entries that are reported as encrypted

An entry that `stat` reports as encrypted should not be opened without a password
(`HidesEncrypted`). The entries of the other kind are those whose record has AES data but not the flag for
encryption, and whose bytes can be opened as they are (`ServedInTheClear`).
-/

namespace Kzip.Spec

open Kzip.Impl

/-- The entry is opened without a password only if it is reported as not encrypted. -/
def HidesEncrypted (X : Extern) (Z : Zone) (a : Archive) (index : Nat) : Prop :=
  ∀ r, (a.openEntry X index).1 = .ok r →
    ∃ st, a.stat Z index = .ok st ∧ st.encryptionMethod = some encryption.none

/-- The bytes of the slice from `off` on decode at once, unless the entry reaches beyond the slice and is
decoded while it is read. -/
def DecodesAtOnce (X : Extern) (d : Dirent) (off : Nat) (slice : Bytes) : Prop :=
  ∃ stop, addUsize X off d.compSize.toNat = .ok stop ∧ (off ≤ min stop slice.length →
    ∃ v, decodeSliceInto X ((slice.drop off).take (min stop slice.length - off)) d.compMethod
      d.compSize [] = .ok v)

/-- The stored bytes can be shared with the source. -/
def SharesBytes (src : Source) (d : Dirent) (off : Nat) : Prop :=
  d.compMethod = .store ∧ ∃ bs, src.sharedData = some bs ∧ off + d.compSize.toNat ≤ bs.length

/-- The bytes at `off` can be opened as those of an entry that is not encrypted: there is a codec for
them, and a small entry of a source in memory is shared or decodes at once. -/
structure OpensPlain (X : Extern) (src : Source) (d : Dirent) (off : Nat) : Prop where
  codec : ∀ v, d.compMethod ≠ .unsupported v
  small : d.uncompSize ≤ zeroCopyFastMaxUncomp → ¬ SharesBytes src d off →
    ∀ slice, src.asSlice = some slice → DecodesAtOnce X d off slice

/-- An entry with AES data, but without the flag for encryption, that opens as it is. -/
def ServedInTheClear (X : Extern) (a : Archive) (index : Nat) : Prop :=
  ∃ d off, a.entries[index]? = some d ∧ isAesMethod d.encryptionMethod = true ∧ d.encrypted = false ∧
    localHeaderLen a.src d.offset.toNat = .ok off ∧ OpensPlain X a.src d off

end Kzip.Spec
