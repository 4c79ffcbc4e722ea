import Kzip.Proof.Crypto
import Kzip.Spec.Region

/-!
# The regions that a password opens

`aesDecryptData` accepts exactly the authentic regions (`aesDecryptData_ok_iff`), and finds a region
truncated exactly when it cannot hold the parts (`aesRegion_codec`).
-/

namespace Kzip.Impl

open Lib Kzip.Spec

variable {X : Extern} {method : UInt16}

theorem AesRegion.length_bytes (r : AesRegion method) :
    r.bytes.length = aesSaltLength method + 12 + r.ciphertext.length := by
  simp only [AesRegion.bytes, List.flatten_cons, List.flatten_nil, List.append_nil, List.length_append,
    r.length_salt, r.length_verify, r.length_tag]
  omega

/-- Whatever is long enough has the parts of a region. -/
theorem exists_aesRegion {bs : Bytes} (h : aesSaltLength method + 12 ≤ bs.length) :
    ∃ r : AesRegion method, bs = r.bytes := by
  refine ⟨{
    salt := bs.take (aesSaltLength method)
    verify := (bs.drop (aesSaltLength method)).take 2
    ciphertext := (bs.drop (aesSaltLength method + 2)).take (bs.length - (aesSaltLength method + 12))
    tag := (bs.drop (aesSaltLength method + 2)).drop (bs.length - (aesSaltLength method + 12))
    length_salt := by rw [List.length_take]; omega
    length_verify := by rw [List.length_take, List.length_drop]; omega
    length_tag := by rw [List.length_drop, List.length_drop]; omega }, ?_⟩
  simp only [AesRegion.bytes, List.flatten_cons, List.flatten_nil, List.append_nil,
    List.take_append_drop, ← List.drop_drop]

theorem aesDecryptData_bytes (password : Bytes) (r : AesRegion method) :
    aesDecryptData X password method r.bytes =
      if r.verify ≠ (deriveAesKeys X method password r.salt).2.2 then .error (.err .wrongpasswd)
      else if aesTag X (deriveAesKeys X method password r.salt).2.1 r.ciphertext ≠ r.tag then
        .error (.err .crc)
      else .ok (r.plaintext X password) :=
  aesDecryptData_parts password method r.ciphertext r.length_salt r.length_verify r.length_tag

theorem aesDecryptData_bytes_ok {password plain : Bytes} {r : AesRegion method} :
    aesDecryptData X password method r.bytes = .ok plain ↔
      r.Authentic X password ∧ plain = r.plaintext X password := by
  rw [aesDecryptData_bytes, guard_ok, guard_ok, not_not, not_not, Except.ok.injEq, AesRegion.Authentic,
    and_assoc]
  exact and_congr_right fun _ => and_congr eq_comm eq_comm

theorem aesDecryptData_truncated_iff (password : Bytes) (bs : Bytes) :
    aesDecryptData X password method bs = .error (.err .truncatedZip) ↔
      bs.length < aesSaltLength method + 12 := by
  by_cases h : bs.length < aesSaltLength method + 12
  · refine iff_of_true ?_ h
    rw [aesDecryptData]
    exact if_pos h
  · obtain ⟨r, rfl⟩ := exists_aesRegion (Nat.not_lt.mp h)
    refine iff_of_false (fun herr => ?_) h
    rw [aesDecryptData_bytes] at herr
    split at herr
    · cases herr
    · split at herr <;> cases herr

theorem aesDecryptData_ok_iff {password bs plain : Bytes} :
    aesDecryptData X password method bs = .ok plain ↔
      ∃ r : AesRegion method, bs = r.bytes ∧ r.Authentic X password ∧ plain = r.plaintext X password := by
  constructor
  · intro h
    have hlen : ¬ bs.length < aesSaltLength method + 12 := fun hlt => by
      rw [(aesDecryptData_truncated_iff password bs).mpr hlt] at h
      cases h
    obtain ⟨r, rfl⟩ := exists_aesRegion (Nat.not_lt.mp hlen)
    exact ⟨r, rfl, aesDecryptData_bytes_ok.mp h⟩
  · rintro ⟨r, rfl, h⟩
    exact aesDecryptData_bytes_ok.mpr h

/-- The codec of AES regions: what is encrypted is decrypted again; a region is accepted exactly when it
has all its parts and they are authentic; and it is truncated exactly when they do not fit. -/
theorem aesRegion_codec (X : Extern) (password : Bytes) (method : UInt16) :
    (∀ data salt, salt.length = aesSaltLength method →
      aesDecryptData X password method (aesEncryptData X password method data salt) = .ok data) ∧
    (∀ bs plain, aesDecryptData X password method bs = .ok plain ↔
      aesSaltLength method + 12 ≤ bs.length ∧ ∃ r : AesRegion method,
        bs = r.bytes ∧ r.Authentic X password ∧ plain = r.plaintext X password) ∧
    ∀ bs, aesDecryptData X password method bs = .error (.err .truncatedZip) ↔
      bs.length < aesSaltLength method + 12 := by
  refine ⟨fun data salt hsalt => aesDecryptData_encrypt password method data hsalt, fun bs plain => ?_,
    aesDecryptData_truncated_iff password⟩
  rw [aesDecryptData_ok_iff]
  refine ⟨?_, And.right⟩
  rintro ⟨r, hr, h⟩
  refine ⟨?_, r, hr, h⟩
  rw [hr, AesRegion.length_bytes]
  omega

end Kzip.Impl
