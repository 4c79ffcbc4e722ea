import Kzip.Impl.Crypto
import Kzip.Lib.CounterMode
import Kzip.Lib.Except

/-!
# Decryption undoes encryption

AES in counter mode is its own inverse (`aesCtrApply_involutive`), and keeps the length. So the
region that `aesEncryptData` frames as salt, verification value, ciphertext and tag is taken apart
again by `aesDecryptData` (`aesDecryptData_encrypt`).
-/

namespace Kzip.Impl

open Lib

variable {X : Extern}

/-! ## The stream cipher -/

theorem ZipCrypto.length_decrypt (c : ZipCrypto) (data : Bytes) :
    (c.decrypt data).1.length = data.length := by
  induction data generalizing c with
  | nil => rfl
  | cons b data ih => simp only [decrypt, List.length_cons, ih]

/-- A prefix is decrypted to a prefix. -/
theorem ZipCrypto.decrypt_take (c : ZipCrypto) (data : Bytes) (n : Nat) :
    (c.decrypt (data.take n)).1 = (c.decrypt data).1.take n := by
  induction data generalizing c n with
  | nil => simp only [List.take_nil, decrypt]
  | cons b data ih =>
    cases n with
    | zero => rfl
    | succ n => simp only [List.take_succ_cons, decrypt, ih]

theorem ZipCrypto.length_encrypt (c : ZipCrypto) (data : Bytes) :
    (c.encrypt data).1.length = data.length := by
  have h := c.length_decrypt (c.encrypt data).1
  rw [c.decrypt_encrypt] at h
  exact h.symm

theorem length_encryptionHeader (password : Bytes) (crc : UInt32) :
    (encryptionHeader password crc).length = encryptionHeaderLen := by
  rw [encryptionHeader, List.length_append, List.length_map, List.length_range]
  rfl

/-- The last byte of the header is the high byte of the CRC. -/
theorem encryptionHeader_check (password : Bytes) (crc : UInt32) :
    (encryptionHeader password crc)[encryptionHeaderLen - 1]? = some (crc >>> 24).toUInt8 := by
  have h11 : ((List.range 11).map fun i =>
      (Nat.repeat xorShift64 (i + 1) (headerSeed password crc)).toUInt8).length = 11 := by
    rw [List.length_map, List.length_range]
  rw [encryptionHeader, List.getElem?_append_right (by rw [h11]; decide), h11]
  rfl

/-- The header is encrypted first, and the data with the keys it leaves. -/
theorem encryptData_eq (password : Bytes) (crc : UInt32) (data : Bytes) :
    encryptData password crc data =
      ((ZipCrypto.new password).encrypt (encryptionHeader password crc)).1 ++
        (((ZipCrypto.new password).encrypt (encryptionHeader password crc)).2.encrypt data).1 := by
  obtain ⟨first, hfirst⟩ :
      ∃ first, (ZipCrypto.new password).encrypt (encryptionHeader password crc) = first := ⟨_, rfl⟩
  rw [encryptData, hfirst]

/-! ## Counter mode -/

/-- The loop is counter mode with blocks of 16 bytes. -/
theorem aesCtrLoop_eq_counterMode (key : Bytes) (n : Nat) (counter : Vector UInt8 16) (data : Bytes) :
    aesCtrLoop X key n counter data =
      counterMode (· ^^^ ·) (fun c => (X.encryptBlock key c).toList) (incrementCounter 8 0) 16 n counter
        data := by
  induction n generalizing counter data with
  | zero => rfl
  | succ n ih =>
    cases data with
    | nil => rfl
    | cons b data => simp only [aesCtrLoop, counterMode, ih]

theorem length_pad (key : Bytes) (c : Vector UInt8 16) : (X.encryptBlock key c).toList.length = 16 :=
  Vector.length_toList

theorem xor_xor (a b : UInt8) : a ^^^ b ^^^ b = a := by
  rw [UInt8.xor_assoc, UInt8.xor_self, UInt8.xor_zero]

/-- One block of the loop. -/
theorem aesCtrLoop_cons (key : Bytes) (n : Nat) (counter : Vector UInt8 16) {data : Bytes}
    (h : data ≠ []) :
    aesCtrLoop X key (n + 1) counter data =
      List.zipWith (· ^^^ ·) (data.take 16) (X.encryptBlock key counter).toList ++
        aesCtrLoop X key n (incrementCounter 8 0 counter) (data.drop 16) := by
  cases data with
  | nil => exact absurd rfl h
  | cons b data => rfl

/-- Nothing but the block cipher enters. -/
theorem aesCtrLoop_congr {Y : Extern} (h : X.encryptBlock = Y.encryptBlock) (key : Bytes) (n : Nat)
    (counter : Vector UInt8 16) (data : Bytes) :
    aesCtrLoop X key n counter data = aesCtrLoop Y key n counter data := by
  induction n generalizing counter data with
  | zero => rfl
  | succ n ih =>
    cases data with
    | nil => rfl
    | cons b data => simp only [aesCtrLoop, ih, h]

theorem length_aesCtrLoop (key : Bytes) {n : Nat} (counter : Vector UInt8 16) {data : Bytes}
    (h : data.length ≤ n) : (aesCtrLoop X key n counter data).length = data.length := by
  rw [aesCtrLoop_eq_counterMode]
  exact length_counterMode (length_pad key) counter (by omega)

/-- The same keystream applied twice. -/
theorem aesCtrLoop_involutive (key : Bytes) {n : Nat} (counter : Vector UInt8 16) {data : Bytes}
    (h : data.length ≤ n) :
    aesCtrLoop X key n counter (aesCtrLoop X key n counter data) = data := by
  rw [aesCtrLoop_eq_counterMode, aesCtrLoop_eq_counterMode]
  exact counterMode_involutive (length_pad key) xor_xor counter (by omega)

@[simp] theorem length_aesCtrApplyInner (key data : Bytes) :
    (aesCtrApplyInner X key data).length = data.length := length_aesCtrLoop key _ (Nat.le_refl _)

theorem aesCtrApplyInner_involutive (key data : Bytes) :
    aesCtrApplyInner X key (aesCtrApplyInner X key data) = data := by
  rw [aesCtrApplyInner, length_aesCtrApplyInner, aesCtrApplyInner]
  exact aesCtrLoop_involutive key _ (Nat.le_refl _)

theorem aesCtrApply_eq_inner (method : UInt16) (key data : Bytes) :
    aesCtrApply X method key data =
      if isAesMethod method then aesCtrApplyInner X key data else data := rfl

@[simp] theorem length_aesCtrApply (method : UInt16) (key data : Bytes) :
    (aesCtrApply X method key data).length = data.length := by
  rw [aesCtrApply_eq_inner]
  split
  · exact length_aesCtrApplyInner key data
  · rfl

theorem aesCtrApply_involutive (method : UInt16) (key data : Bytes) :
    aesCtrApply X method key (aesCtrApply X method key data) = data := by
  simp only [aesCtrApply_eq_inner]
  split
  · exact aesCtrApplyInner_involutive key data
  · rfl

/-! ## The frame of an AES entry -/

@[simp] theorem length_passwordVerify (method : UInt16) (password salt : Bytes) :
    (deriveAesKeys X method password salt).2.2.length = winzipAesPasswordVerifyLength := by
  simp only [deriveAesKeys, List.length_drop, Vector.length_toList]
  omega

@[simp] theorem length_aesTag (key ciphertext : Bytes) :
    (aesTag X key ciphertext).length = winzipAesHmacLength := by
  simp only [aesTag, List.length_take, Vector.length_toList]
  decide

@[simp] theorem length_aesEncryptData (password : Bytes) (method : UInt16) (data salt : Bytes) :
    (aesEncryptData X password method data salt).length =
      salt.length + winzipAesPasswordVerifyLength + data.length + winzipAesHmacLength := by
  simp only [aesEncryptData, List.flatten_cons, List.flatten_nil, List.append_nil, List.length_append,
    length_passwordVerify, length_aesCtrApply, length_aesTag]
  omega

/-- A region is taken apart at the lengths it was put together with. -/
theorem aesDecryptData_parts (password : Bytes) (method : UInt16) {salt verify tag : Bytes}
    (ciphertext : Bytes) (hsalt : salt.length = aesSaltLength method)
    (hverify : verify.length = winzipAesPasswordVerifyLength) (htag : tag.length = winzipAesHmacLength) :
    aesDecryptData X password method [salt, verify, ciphertext, tag].flatten =
      if verify ≠ (deriveAesKeys X method password salt).2.2 then .error (.err .wrongpasswd)
      else if aesTag X (deriveAesKeys X method password salt).2.1 ciphertext ≠ tag then .error (.err .crc)
      else .ok (aesCtrApply X method (deriveAesKeys X method password salt).1 ciphertext) := by
  have hflat : [salt, verify, ciphertext, tag].flatten = salt ++ (verify ++ (ciphertext ++ tag)) := by
    simp only [List.flatten_cons, List.flatten_nil, List.append_nil]
  have hlen : (salt ++ (verify ++ (ciphertext ++ tag))).length =
      aesSaltLength method + winzipAesPasswordVerifyLength + winzipAesHmacLength +
        ciphertext.length := by
    simp only [List.length_append]
    omega
  have hpre : (salt ++ verify).length = aesSaltLength method + winzipAesPasswordVerifyLength := by
    rw [List.length_append, hsalt, hverify]
  have hmid : ((salt ++ (verify ++ (ciphertext ++ tag))).drop
      (aesSaltLength method + winzipAesPasswordVerifyLength)).take ciphertext.length = ciphertext := by
    rw [← List.append_assoc, List.drop_left' hpre, List.take_left' rfl]
  have hend : (salt ++ (verify ++ (ciphertext ++ tag))).drop
      (aesSaltLength method + winzipAesPasswordVerifyLength + winzipAesHmacLength +
        ciphertext.length - winzipAesHmacLength) = tag := by
    rw [← List.append_assoc, ← List.append_assoc]
    refine List.drop_left' ?_
    rw [List.length_append, hpre]
    omega
  simp only [hflat, aesDecryptData, List.take_left' hsalt, List.drop_left' hsalt,
    List.take_left' hverify, hlen, Nat.add_sub_cancel_left, hmid, hend]
  rw [if_neg (by omega)]

/-- Decryption undoes encryption. -/
theorem aesDecryptData_encrypt (password : Bytes) (method : UInt16) (data : Bytes) {salt : Bytes}
    (hsalt : salt.length = aesSaltLength method) :
    aesDecryptData X password method (aesEncryptData X password method data salt) = .ok data := by
  simp only [aesEncryptData]
  rw [aesDecryptData_parts password method _ hsalt (length_passwordVerify method password salt)
    (length_aesTag _ _), if_neg (not_not_intro rfl), if_neg (not_not_intro rfl), aesCtrApply_involutive]

/-- What is decrypted is shorter than the region. -/
theorem length_aesDecryptData {password region plain : Bytes} {method : UInt16}
    (h : aesDecryptData X password method region = .ok plain) : plain.length ≤ region.length := by
  simp only [aesDecryptData] at h
  obtain ⟨-, h⟩ := guard_ok.mp h
  obtain ⟨-, h⟩ := guard_ok.mp h
  obtain ⟨-, h⟩ := guard_ok.mp h
  cases h
  rw [length_aesCtrApply, List.length_take, List.length_drop]
  omega

end Kzip.Impl
