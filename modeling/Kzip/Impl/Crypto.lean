import Kzip.Impl.Dirent

/-!
# Encryption

Traditional PKWARE encryption (`ZipCrypto`, `encryptData`) and WinZip AES (`aesEncryptData`,
`aesDecryptData`). The block cipher, the MAC and the key derivation are parameters.
-/

namespace Kzip.Impl

open Lib.LE

/-! ## Traditional PKWARE -/

/-- The 11 random bytes and the check byte that precede the data. -/
def encryptionHeaderLen : Nat := 12

/-- One step of the reflected CRC-32 division. -/
def crcStep (c : UInt32) : UInt32 :=
  if c &&& 1 ≠ 0 then (0xEDB88320 : UInt32) ^^^ (c >>> 1) else c >>> 1

/-- An entry of `CRC_TABLE`. -/
def crcTable (i : UInt32) : UInt32 := Nat.repeat crcStep 8 i

def crc32Update (crc : UInt32) (byte : UInt8) : UInt32 :=
  (crc >>> 8) ^^^ crcTable ((crc ^^^ byte.toUInt32) &&& 0xFF)

/-- The three keys of the keystream. -/
structure ZipCrypto where
  key0 : UInt32
  key1 : UInt32
  key2 : UInt32
  deriving DecidableEq, Repr

def ZipCrypto.updateKeys (c : ZipCrypto) (byte : UInt8) : ZipCrypto :=
  let key0 := crc32Update c.key0 byte
  let key1 := (c.key1 + (key0 &&& 0xFF)) * 134775813 + 1
  { key0, key1, key2 := crc32Update c.key2 (key1 >>> 24).toUInt8 }

/-- The keys of a password. -/
def ZipCrypto.new (password : Bytes) : ZipCrypto :=
  password.foldl ZipCrypto.updateKeys
    { key0 := 0x12345678, key1 := 0x23456789, key2 := 0x34567890 }

def ZipCrypto.keystreamByte (c : ZipCrypto) : UInt8 :=
  let temp := (c.key2 ||| 2) &&& 0xFFFF
  (((temp * (temp ^^^ 1)) >>> 8) &&& 0xFF).toUInt8

/-- Encrypts a buffer; the keys advance with the plaintext. -/
def ZipCrypto.encrypt (c : ZipCrypto) : Bytes → Bytes × ZipCrypto
  | [] => ([], c)
  | plain :: data =>
    let r := (c.updateKeys plain).encrypt data
    ((plain ^^^ c.keystreamByte) :: r.1, r.2)

/-- Decrypts a buffer; the keys advance with the plaintext. -/
def ZipCrypto.decrypt (c : ZipCrypto) : Bytes → Bytes × ZipCrypto
  | [] => ([], c)
  | cipher :: data =>
    let plain := cipher ^^^ c.keystreamByte
    let r := (c.updateKeys plain).decrypt data
    (plain :: r.1, r.2)

/-- One step of the generator behind the encryption header. -/
def xorShift64 (x : UInt64) : UInt64 :=
  let x := x ^^^ (x <<< 13)
  let x := x ^^^ (x >>> 7)
  x ^^^ (x <<< 17)

/-- The seed of the header bytes. -/
def headerSeed (password : Bytes) (crc : UInt32) : UInt64 :=
  let seed := password.foldl (fun s b => s * 31 + b.toUInt64) 0x9E3779B97F4A7C15
  (seed ^^^ crc.toUInt64) ||| 1

/-- The header in the clear: eleven generated bytes and the high byte of the CRC. -/
def encryptionHeader (password : Bytes) (crc : UInt32) : Bytes :=
  (List.range 11).map (fun i => (Nat.repeat xorShift64 (i + 1) (headerSeed password crc)).toUInt8) ++
    [(crc >>> 24).toUInt8]

/-- The encrypted header, then the encrypted data. -/
def encryptData (password : Bytes) (crc : UInt32) (data : Bytes) : Bytes :=
  let (header, crypto) := (ZipCrypto.new password).encrypt (encryptionHeader password crc)
  header ++ (crypto.encrypt data).1

/-- Decryption undoes encryption and leaves the same keys. -/
theorem ZipCrypto.decrypt_encrypt (c : ZipCrypto) (data : Bytes) :
    c.decrypt (c.encrypt data).1 = (data, (c.encrypt data).2) := by
  induction data generalizing c with
  | nil => rfl
  | cons b data ih =>
    have hb : b ^^^ c.keystreamByte ^^^ c.keystreamByte = b := by
      rw [UInt8.xor_assoc, UInt8.xor_self, UInt8.xor_zero]
    simp only [encrypt, decrypt, hb, ih]

/-! ## WinZip AES -/

def aesKeyLength (method : UInt16) : Nat :=
  if method = encryption.aes128 then 16
  else if method = encryption.aes192 then 24
  else if method = encryption.aes256 then 32
  else 0

def aesSaltLength (method : UInt16) : Nat := aesKeyLength method / 2

def aesStrength (method : UInt16) : UInt8 :=
  if method = encryption.aes128 then 1
  else if method = encryption.aes192 then 2
  else if method = encryption.aes256 then 3
  else 0

section
variable (X : Extern)

/-- The AES key, the HMAC key and the two bytes that verify the password. -/
def deriveAesKeys (method : UInt16) (password salt : Bytes) : Bytes × Bytes × Bytes :=
  let keyLength := aesKeyLength method
  let outLen := 2 * keyLength + winzipAesPasswordVerifyLength
  let buf := (X.pbkdf2HmacSha1 password salt winzipAesPbkdf2Iterations outLen).toList
  (buf.take keyLength, (buf.drop keyLength).take keyLength, buf.drop (2 * keyLength))

/-- Adds one to the little-endian counter in the low 8 bytes: `n` bytes from byte `j` on are left
to carry into. -/
def incrementCounter : Nat → Nat → Vector UInt8 16 → Vector UInt8 16
  | 0, _, counter => counter
  | n + 1, j, counter =>
    let b := counter.getD j 0 + 1
    let counter := counter.setIfInBounds j b
    if b ≠ 0 then counter else incrementCounter n (j + 1) counter

/-- The loop of `aes_ctr_apply_inner`: one block of keystream for each 16 bytes. -/
def aesCtrLoop (key : Bytes) : Nat → Vector UInt8 16 → Bytes → Bytes
  | 0, _, _ => []
  | _ + 1, _, [] => []
  | n + 1, counter, data =>
    let pad := X.encryptBlock key counter
    List.zipWith (· ^^^ ·) (data.take 16) pad.toList ++
      aesCtrLoop key n (incrementCounter 8 0 counter) (data.drop 16)

/-- Encrypts or decrypts under a key; the counter starts at one. -/
def aesCtrApplyInner (key data : Bytes) : Bytes :=
  aesCtrLoop X key data.length ((Vector.replicate 16 0).setIfInBounds 0 1) data

def aesCtrApply (method : UInt16) (key data : Bytes) : Bytes :=
  if isAesMethod method then
    aesCtrLoop X key data.length ((Vector.replicate 16 0).setIfInBounds 0 1) data
  else data

/-- The tag stored after the ciphertext: the first ten bytes of its HMAC. -/
def aesTag (hmacKey ciphertext : Bytes) : Bytes :=
  (X.hmacSha1 hmacKey ciphertext).toList.take winzipAesHmacLength

/-- Salt, verification value, ciphertext and tag. -/
def aesEncryptData (password : Bytes) (method : UInt16) (data salt : Bytes) : Bytes :=
  let (aesKey, hmacKey, passwordVerify) := deriveAesKeys X method password salt
  let ciphertext := aesCtrApply X method aesKey data
  [salt, passwordVerify, ciphertext, aesTag X hmacKey ciphertext].flatten

/-- Checks the password and the tag of a region, and decrypts its ciphertext. -/
def aesDecryptData (password : Bytes) (method : UInt16) (data : Bytes) : Result Bytes :=
  let saltLength := aesSaltLength method
  let aux := saltLength + winzipAesPasswordVerifyLength + winzipAesHmacLength
  if data.length < aux then .error (.err .truncatedZip)
  else
    let salt := data.take saltLength
    let storedVerify := (data.drop saltLength).take winzipAesPasswordVerifyLength
    let ciphertext := (data.drop (saltLength + winzipAesPasswordVerifyLength)).take
      (data.length - aux)
    let storedHmac := data.drop (data.length - winzipAesHmacLength)
    let (aesKey, hmacKey, passwordVerify) := deriveAesKeys X method password salt
    if storedVerify ≠ passwordVerify then .error (.err .wrongpasswd)
    else if aesTag X hmacKey ciphertext ≠ storedHmac then .error (.err .crc)
    else .ok (aesCtrApply X method aesKey ciphertext)

end

end Kzip.Impl
