import Mathlib.Data.Nat.Basic
import Mathlib.Algebra.Order.Ring.Nat

/-!
# Little-endian byte encodings

`encode w n` is the `w` low bytes of `n`, least significant first; `decode` reads a byte string
back. `decode_encode` and `encode_decode` are the two round trips, exact below `256 ^ w`. The
fixed-width words (`le16`, `le32`, `le64` and their readers `u16`, `u32`, `u64`) are the cases
`w = 2, 4, 8`. Adding one to the bytes (`incr`) adds one to the number.
-/

namespace Lib.LE

/-- The `w` low bytes of `n`, least significant first. -/
def encode : Nat → Nat → List UInt8
  | 0, _ => []
  | w + 1, n => UInt8.ofNat n :: encode w (n / 256)

/-- The number whose little-endian bytes are given. -/
def decode : List UInt8 → Nat
  | [] => 0
  | b :: bs => b.toNat + 256 * decode bs

@[simp] theorem length_encode (w n : Nat) : (encode w n).length = w := by
  induction w generalizing n with
  | zero => rfl
  | succ w ih => simp only [encode, List.length_cons, ih]

theorem decode_encode (w n : Nat) : decode (encode w n) = n % 256 ^ w := by
  induction w generalizing n with
  | zero => simp only [encode, decode, pow_zero, Nat.mod_one]
  | succ w ih =>
    have hb : (UInt8.ofNat n).toNat = n % 256 := rfl
    rw [encode, decode, ih, hb, pow_succ', Nat.mod_mul]

theorem decode_encode_of_lt {w n : Nat} (h : n < 256 ^ w) : decode (encode w n) = n := by
  rw [decode_encode, Nat.mod_eq_of_lt h]

theorem decode_lt (bs : List UInt8) : decode bs < 256 ^ bs.length := by
  induction bs with
  | nil => simp only [decode, List.length_nil, pow_zero, Nat.lt_one_iff]
  | cons b bs ih =>
    have hb : b.toNat < 256 := b.toNat_lt
    rw [decode, List.length_cons, pow_succ]
    omega

theorem encode_decode (bs : List UInt8) : encode bs.length (decode bs) = bs := by
  induction bs with
  | nil => rfl
  | cons b bs ih =>
    have hb : b.toNat < 256 := b.toNat_lt
    have hlow : UInt8.ofNat (b.toNat + 256 * decode bs) = b :=
      UInt8.toNat_inj.mp (by simp only [UInt8.toNat_ofNat']; omega)
    have hhigh : (b.toNat + 256 * decode bs) / 256 = decode bs := by omega
    rw [List.length_cons, decode, encode, hlow, hhigh, ih]

theorem encode_inj {w n n' : Nat} (hn : n < 256 ^ w) (hn' : n' < 256 ^ w) (h : encode w n = encode w n') :
    n = n' := by
  rw [← decode_encode_of_lt hn, h, decode_encode_of_lt hn']

/-! ## Counting -/

/-- Adds one; the carry out of the last byte is lost. -/
def incr : List UInt8 → List UInt8
  | [] => []
  | b :: bs => if b + 1 ≠ 0 then (b + 1) :: bs else (b + 1) :: incr bs

theorem ofNat_add_one_eq_zero (n : Nat) : UInt8.ofNat n + 1 = 0 ↔ n % 256 = 255 := by
  rw [← UInt8.toNat_inj, UInt8.toNat_add, UInt8.toNat_ofNat']
  simp only [UInt8.toNat_one, UInt8.toNat_zero]
  omega

theorem incr_encode (w n : Nat) : incr (encode w n) = encode w (n + 1) := by
  induction w generalizing n with
  | zero => rfl
  | succ w ih =>
    have hlow : UInt8.ofNat n + 1 = UInt8.ofNat (n + 1) := (UInt8.ofNat_add n 1).symm
    rw [encode, encode, incr, ← hlow]
    by_cases h : n % 256 = 255
    · rw [if_neg (not_not_intro ((ofNat_add_one_eq_zero n).mpr h)), ih,
        show (n + 1) / 256 = n / 256 + 1 by omega]
    · rw [if_pos (fun h0 => h ((ofNat_add_one_eq_zero n).mp h0)), show (n + 1) / 256 = n / 256 by omega]

/-! ## Fixed-width words -/

def le16 (x : UInt16) : List UInt8 := encode 2 x.toNat
def le32 (x : UInt32) : List UInt8 := encode 4 x.toNat
def le64 (x : UInt64) : List UInt8 := encode 8 x.toNat

def u16 (bs : List UInt8) : UInt16 := UInt16.ofNat (decode bs)
def u32 (bs : List UInt8) : UInt32 := UInt32.ofNat (decode bs)
def u64 (bs : List UInt8) : UInt64 := UInt64.ofNat (decode bs)

@[simp] theorem length_le16 (x : UInt16) : (le16 x).length = 2 := length_encode _ _
@[simp] theorem length_le32 (x : UInt32) : (le32 x).length = 4 := length_encode _ _
@[simp] theorem length_le64 (x : UInt64) : (le64 x).length = 8 := length_encode _ _

@[simp] theorem u16_le16 (x : UInt16) : u16 (le16 x) = x := by
  rw [u16, le16, decode_encode_of_lt x.toNat_lt, UInt16.ofNat_toNat]

@[simp] theorem u32_le32 (x : UInt32) : u32 (le32 x) = x := by
  rw [u32, le32, decode_encode_of_lt x.toNat_lt, UInt32.ofNat_toNat]

@[simp] theorem u64_le64 (x : UInt64) : u64 (le64 x) = x := by
  rw [u64, le64, decode_encode_of_lt x.toNat_lt, UInt64.ofNat_toNat]

theorem le16_u16 {bs : List UInt8} (h : bs.length = 2) : le16 (u16 bs) = bs := by
  have hlt := decode_lt bs
  rw [h] at hlt
  rw [le16, u16, UInt16.toNat_ofNat_of_lt' (by simpa [UInt16.size] using hlt), ← h, encode_decode]

theorem le32_u32 {bs : List UInt8} (h : bs.length = 4) : le32 (u32 bs) = bs := by
  have hlt := decode_lt bs
  rw [h] at hlt
  rw [le32, u32, UInt32.toNat_ofNat_of_lt' (by simpa [UInt32.size] using hlt), ← h, encode_decode]

theorem le64_u64 {bs : List UInt8} (h : bs.length = 8) : le64 (u64 bs) = bs := by
  have hlt := decode_lt bs
  rw [h] at hlt
  rw [le64, u64, UInt64.toNat_ofNat_of_lt' (by simpa [UInt64.size] using hlt), ← h, encode_decode]

end Lib.LE
