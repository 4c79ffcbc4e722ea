import Kzip.Impl.Error
import Mathlib.Algebra.Group.Int.Defs
import Mathlib.Algebra.Group.Nat.Defs

/-!
# Code outside the repository

The crates and the system calls the code rests on, as parameters: the codecs of `flate2` and
`bzip2_rs`, the CRC-32 of `crc32fast`, the primitives behind WinZip AES, the local time of `chrono`
and the salt drawn from clock and process id. A decoder is a function of the compressed bytes it
may consume: what it produces, and the error it ends with, if any. Whether the build checks integer
overflow is a parameter too (`addUsize`, `addU64`).
-/

namespace Kzip.Impl

abbrev Bytes := List UInt8

/-- What a decoder makes of its input: the bytes it produces, then an error or the end. -/
structure Decoded where
  out : Bytes
  err : Option IoError
  deriving DecidableEq, Repr

/-- The fields of a `chrono` date and time. -/
structure NaiveDateTime where
  year : Int
  month : Nat
  day : Nat
  hour : Nat
  minute : Nat
  second : Nat
  deriving DecidableEq, Repr

structure Extern where
  /-- Whether overflowing integer arithmetic panics; it wraps otherwise. -/
  overflowChecks : Bool
  crc32 : Bytes → UInt32
  /-- Raw deflate at a level; `none` is a write error. -/
  deflate : UInt32 → Bytes → Option Bytes
  inflate : Bytes → Decoded
  bunzip2 : Bytes → Decoded
  /-- `pbkdf2_hmac::<Sha1>(password, salt, iterations, &mut [u8; n])`. -/
  pbkdf2HmacSha1 : Bytes → Bytes → Nat → (n : Nat) → Vector UInt8 n
  /-- `Hmac::<Sha1>` of a key and a message. -/
  hmacSha1 : Bytes → Bytes → Vector UInt8 20
  /-- One block of AES under a key. -/
  encryptBlock : Bytes → Vector UInt8 16 → Vector UInt8 16
  /-- The local wall-clock time of a Unix timestamp. -/
  naiveLocal : Nat → NaiveDateTime
  /-- The salt of `n` bytes drawn for the entry at an index. -/
  randomSalt : Nat → (n : Nat) → Vector UInt8 n

/-- A `Vec<u8>`, which holds at most `isize::MAX` bytes. -/
abbrev Vec := { bs : Bytes // bs.length < 2 ^ 63 }

/-- `Vec::new` -/
def Vec.nil : Vec := ⟨[], Nat.two_pow_pos 63⟩

/-- A `Vec<u8>` of the bytes; growing it too far panics. -/
def Vec.ofBytes (bs : Bytes) : Result Vec :=
  if h : bs.length < 2 ^ 63 then .ok ⟨bs, h⟩ else .error .panic

theorem Vec.ofBytes_ok {bs : Bytes} {v : Vec} : Vec.ofBytes bs = .ok v ↔ v.val = bs := by
  by_cases h : bs.length < 2 ^ 63
  · simp only [ofBytes, h, ↓reduceDIte, Except.ok.injEq]
    exact ⟨fun e => e ▸ rfl, fun e => Subtype.ext e.symm⟩
  · simp only [ofBytes, h, ↓reduceDIte, reduceCtorEq, false_iff]
    rintro rfl
    exact h v.property

/-- `a.saturating_add(b)` on `u64`. -/
def saturatingAddU64 (a b : UInt64) : UInt64 := UInt64.ofNat (min (a.toNat + b.toNat) (2 ^ 64 - 1))

theorem toNat_min (a b : UInt64) : (min a b).toNat = min a.toNat b.toNat := by
  show (if a ≤ b then a else b).toNat = _
  have hle := UInt64.le_iff_toNat_le (a := a) (b := b)
  split <;> rename_i h <;> rw [hle] at h <;> omega

section
variable (X : Extern)

/-- `a + b` on `usize`. -/
def addUsize (a b : Nat) : Result Nat :=
  if a + b < 2 ^ 64 then .ok (a + b)
  else if X.overflowChecks then .error .panic else .ok ((a + b) % 2 ^ 64)

/-- `a + b` on `u64`. -/
def addU64 (a b : UInt64) : Result UInt64 :=
  if a.toNat + b.toNat < 2 ^ 64 then .ok (a + b)
  else if X.overflowChecks then .error .panic else .ok (a + b)

/-- `a + b` on `i64`. -/
def addI64 (a b : Int) : Result Int :=
  if -2 ^ 63 ≤ a + b ∧ a + b < 2 ^ 63 then .ok (a + b)
  else if X.overflowChecks then .error .panic else .ok (Int.bmod (a + b) (2 ^ 64))

end

/-- `n as i64` -/
def asI64 (n : Nat) : Int := Int.bmod n (2 ^ 64)

theorem asI64_of_lt {n : Nat} (h : n < 2 ^ 63) : asI64 n = n :=
  Int.bmod_eq_of_le (by omega) (by omega)

/-- A number that is less than one and a half times too large, in 64 bits. -/
theorem bmod_of_lt {t : Int} (hlow : -2 ^ 63 ≤ t) (hhigh : t < 2 ^ 64 + 2 ^ 63) :
    t.bmod (2 ^ 64) = if t < 2 ^ 63 then t else t - 2 ^ 64 := by
  split
  · exact Int.bmod_eq_of_le (by omega) (by omega)
  · have hsub : (t - 2 ^ 64).bmod (2 ^ 64) = t.bmod (2 ^ 64) := Int.sub_bmod_right t (2 ^ 64)
    rw [← hsub]
    exact Int.bmod_eq_of_le (by omega) (by omega)

theorem asI64_of_ge {n : Nat} (h : 2 ^ 63 ≤ n) (hn : n < 2 ^ 64) : asI64 n = (n : Int) - 2 ^ 64 :=
  (bmod_of_lt (by omega) (by omega)).trans (if_neg (by omega))

end Kzip.Impl
