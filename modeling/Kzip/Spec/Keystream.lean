import Kzip.Impl.Crypto
import Kzip.Lib.CounterMode

/-!
# The AES keystream

Counter mode as it is specified: the blocks of the data are numbered from one, and each is combined with
what the cipher makes of its number.
-/

namespace Kzip.Spec

open Kzip.Impl Lib Lib.LE

/-- The number of a block, in the low 8 bytes. -/
def counterBlock (n : Nat) : Vector UInt8 16 := ⟨(encode 8 n ++ List.replicate 8 0).toArray, by simp⟩

/-- The blocks of 16 bytes, of which the last may be short. -/
def blockCount (data : Bytes) : Nat := (data.length + 15) / 16

structure Enciphers (cipher : Vector UInt8 16 → Vector UInt8 16) (data out : Bytes) : Prop where
  length : out.length = data.length
  blocks : ∀ k < blockCount data,
    block 16 k out = List.zipWith (· ^^^ ·) (block 16 k data) (cipher (counterBlock (k + 1))).toList

/-- No two of `n` blocks have the same counter. -/
def CountersDistinct (n : Nat) : Prop :=
  ∀ j < n, ∀ k < n, counterBlock (j + 1) = counterBlock (k + 1) → j = k

end Kzip.Spec
