import Kzip.Impl.Checked

/-!
# Freedom from panics

Opening an archive and reading an entry of it makes no check fail: no integer overflows, no index
and no slice is out of range, and no `expect` meets an error (`PanicFree`). `SumsFit` says when the
sums that depend on the archive have a result.
-/

namespace Kzip.Spec

open Kzip.Impl

/-- Malformed input leads to an error at most. -/
structure PanicFree (X : Extern) (src : Source) (index : Nat) (password : Option Bytes) : Prop where
  readCentralDir : Checked.readCentralDir src ≠ .error .panic
  archive : Checked.open src ≠ .error .panic
  openEntry : ∀ a, Checked.open src = .ok a →
    (Checked.openEntryWithPassword X a index password).1 ≠ .error .panic
  readToEnd : ∀ a r sched, Checked.open src = .ok a →
    (Checked.openEntryWithPassword X a index password).1 = .ok r →
    Checked.readToEnd X sched r ≠ .error .panic

/-- The data offset of the entry fits the `i64` of a mapping's seek, and where the entry is decoded
from a slice, the end of the slice fits a `usize`. -/
def SumsFit (src : Source) (index : Nat) : Prop :=
  ∀ a d off, Archive.open src = .ok a → a.entries[index]? = some d →
    localHeaderLen src d.offset.toNat = .ok off →
    (src.kind = .mmap → off < 2 ^ 63) ∧ (d.zeroCopy = true → off + d.compSize.toNat < 2 ^ 64)

end Kzip.Spec
