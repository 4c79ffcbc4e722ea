import Kzip.Lib.Except

/-!
# Errors

`ZipErrorCode` is the code enumeration of the error module. `Fault` is how a call can fail: with an
error value, or by a panic (a failed `expect`, an arithmetic overflow).
-/

namespace Kzip.Impl

/-- A ZIP error code, numbered as in `ZIP_ER_*`. -/
inductive ZipErrorCode where
  | ok | multidisk | rename | close | seek | read | write | crc | zipclosed | noent | exists | open
  | tmpopen | zlib | memory | changed | compnotsupp | eof | inval | nozip | internal | incons
  | remove | deleted | encrmethnotsupp | rdonly | nopasswd | wrongpasswd | opnotsupp | inuse | tell
  | compressedData | cancelled | dataDescriptor | zipdestroyed | truncatedZip | eftoolarge
  | decompressionLimit | centralDirTooLarge
  deriving DecidableEq, Repr

/-- How a call fails. -/
inductive Fault where
  /-- An error value. -/
  | err (code : ZipErrorCode)
  /-- The thread panics. -/
  | panic
  deriving DecidableEq, Repr

/-- The result of a fallible call. -/
abbrev Result (α : Type) := Except Fault α

/-- The kinds of `std::io::Error` the read path produces. -/
inductive ErrorKind where
  | invalidData | unexpectedEof | unsupported | other
  deriving DecidableEq, Repr

structure IoError where
  kind : ErrorKind
  msg : String
  deriving DecidableEq, Repr

/-- `From<std::io::Error> for ZipError`. -/
def IoError.toFault (_ : IoError) : Fault := .err .internal

/-- `u16::try_from(n)`, with `ZIP_ER_EF_TOO_LARGE` when `n` does not fit. -/
def tryU16 (n : Nat) : Result UInt16 :=
  if n ≤ 0xFFFF then .ok (UInt16.ofNat n) else .error (.err .eftoolarge)

theorem tryU16_ok {n : Nat} {x : UInt16} : tryU16 n = .ok x ↔ n ≤ 0xFFFF ∧ UInt16.ofNat n = x := by
  by_cases h : n ≤ 0xFFFF <;> simp [tryU16, h]

theorem toNat_ofNat_u16 {n : Nat} (h : n ≤ 0xFFFF) : (UInt16.ofNat n).toNat = n :=
  UInt16.toNat_ofNat_of_lt' (Nat.lt_succ_of_le h)

theorem tryU16_toNat {n : Nat} {x : UInt16} (h : tryU16 n = .ok x) : x.toNat = n := by
  obtain ⟨hn, rfl⟩ := tryU16_ok.mp h
  exact toNat_ofNat_u16 hn

end Kzip.Impl
