import Kzip.Impl.Crypto

/-!
# The region of a WinZip AES entry

Salt, verification value, ciphertext and tag, of the lengths that the method prescribes (`AesRegion`),
and what it takes for a password to open them (`AesRegion.Authentic`).
-/

namespace Kzip.Spec

open Kzip.Impl

structure AesRegion (method : UInt16) where
  salt : Bytes
  verify : Bytes
  ciphertext : Bytes
  tag : Bytes
  length_salt : salt.length = aesSaltLength method
  length_verify : verify.length = 2
  length_tag : tag.length = 10

namespace AesRegion

variable {method : UInt16} (X : Extern) (password : Bytes) (r : AesRegion method)

def bytes : Bytes := [r.salt, r.verify, r.ciphertext, r.tag].flatten

/-- The verification value and the tag are those derived from the password. -/
def Authentic : Prop :=
  let (_, hmacKey, passwordVerify) := deriveAesKeys X method password r.salt
  r.verify = passwordVerify ∧ r.tag = aesTag X hmacKey r.ciphertext

def plaintext : Bytes := aesCtrApply X method (deriveAesKeys X method password r.salt).1 r.ciphertext

end AesRegion

end Kzip.Spec
