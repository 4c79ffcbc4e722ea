import Kzip.Spec.Keystream
import Kzip.Proof.Crypto
import Kzip.Impl.Reference

/-!
# The AES keystream

The loop that carries from byte to byte of the counter adds one to its number (`incrementCounter_counterBlock`),
so after `k` blocks the counter is that of block `k`.
-/

namespace Kzip.Impl

open Lib Lib.LE Spec

variable {X : Extern}

/-! ## The counter -/

/-- The loop adds one to the bytes it may carry into, whatever stands around them. -/
theorem toList_incrementCounter (low bytes high : Bytes) {c : Vector UInt8 16}
    (hc : c.toList = low ++ (bytes ++ high)) :
    (incrementCounter bytes.length low.length c).toList = low ++ (incr bytes ++ high) := by
  induction bytes generalizing c low with
  | nil => exact hc
  | cons b bytes ih =>
    have hb : c.getD low.length 0 = b := by
      rw [Vector.getD, Array.getD_eq_getD_getElem?, Vector.getElem?_toArray, ← Vector.getElem?_toList, hc]
      simp
    have hset : (c.setIfInBounds low.length (b + 1)).toList = low ++ (b + 1) :: (bytes ++ high) := by
      rw [Vector.toList_setIfInBounds, hc]
      simp
    rw [List.length_cons, incrementCounter, hb, incr]
    by_cases h : b + 1 ≠ 0
    · rw [if_pos h, if_pos h]
      exact hset
    · have hnext : (c.setIfInBounds low.length (b + 1)).toList = low ++ [b + 1] ++ (bytes ++ high) := by
        simp [hset]
      have hrest := ih (low ++ [b + 1]) hnext
      rw [List.length_append, List.length_singleton] at hrest
      rw [if_neg h, if_neg h, hrest]
      simp

theorem toList_counterBlock (n : Nat) : (counterBlock n).toList = encode 8 n ++ List.replicate 8 0 := by
  simp [counterBlock]

theorem incrementCounter_counterBlock (n : Nat) :
    incrementCounter 8 0 (counterBlock n) = counterBlock (n + 1) := by
  have h := toList_incrementCounter [] (encode 8 n) (List.replicate 8 0) (toList_counterBlock n)
  rw [length_encode, incr_encode] at h
  exact Vector.toList_inj.mp (h.trans (toList_counterBlock (n + 1)).symm)

theorem iterate_incrementCounter (n k : Nat) :
    (incrementCounter 8 0)^[k] (counterBlock n) = counterBlock (n + k) := by
  induction k with
  | zero => rfl
  | succ k ih => rw [Function.iterate_succ_apply', ih, incrementCounter_counterBlock, Nat.add_assoc]

theorem counterBlock_one : (Vector.replicate 16 0).setIfInBounds 0 1 = counterBlock 1 := by decide

theorem counterBlock_inj {n n' : Nat} (hn : n < 2 ^ 64) (hn' : n' < 2 ^ 64)
    (h : counterBlock n = counterBlock n') : n = n' := by
  have hlist := congrArg Vector.toList h
  rw [toList_counterBlock, toList_counterBlock] at hlist
  exact encode_inj hn hn' (List.append_cancel_right hlist)

theorem countersDistinct_of_lt {n : Nat} (hn : n < 2 ^ 64) : CountersDistinct n := by
  intro j hj k hk h
  have := counterBlock_inj (show j + 1 < 2 ^ 64 by omega) (show k + 1 < 2 ^ 64 by omega) h
  omega

/-! ## The blocks -/

theorem block_aesCtrApplyInner (key data : Bytes) (k : Nat) :
    block 16 k (aesCtrApplyInner X key data) =
      List.zipWith (· ^^^ ·) (block 16 k data) (X.encryptBlock key (counterBlock (k + 1))).toList := by
  rw [aesCtrApplyInner, aesCtrLoop_eq_counterMode, counterBlock_one,
    block_counterMode (length_pad key) _ (show data.length ≤ 16 * data.length by omega),
    iterate_incrementCounter, Nat.add_comm]

/-- Every block is combined with what the cipher makes of its number, and no number comes twice. -/
theorem aesCtr_keystream (X : Extern) (key data : Bytes) (h : blockCount data < 2 ^ 64) :
    Enciphers (X.encryptBlock key) data (aesCtrApplyInner X key data) ∧
      CountersDistinct (blockCount data) ∧
      aesCtrApplyInner X key (aesCtrApplyInner X key data) = data :=
  ⟨⟨length_aesCtrApplyInner key data, fun k _ => block_aesCtrApplyInner key data k⟩,
    countersDistinct_of_lt h, aesCtrApplyInner_involutive key data⟩

/-- The last of two blocks is a single byte. -/
theorem aesCtr_keystream_sample :
    block 16 1 (aesCtrApplyInner reference [] (List.replicate 17 0)) = [2] ∧
      CountersDistinct (blockCount (List.replicate 17 0)) :=
  ⟨((aesCtr_keystream reference [] (List.replicate 17 0) (by decide)).1.blocks 1 (by decide)).trans (by decide),
    (aesCtr_keystream reference [] (List.replicate 17 0) (by decide)).2.1⟩

end Kzip.Impl
