import Kzip.Lib.Loop
import Kzip.Lib.Reader
import Kzip.Impl.Crypto

/-!
# Decrypting while reading

`DecryptingSource` decrypts what it reads from an inner source, which may return fewer bytes than it is
asked for, and fail. `readExactRound` is a round of `std::io::Read::read_exact`, with which the encryption
header is read.
-/

namespace Kzip.Impl

open Lib

/-- What the `read` of a source fails with; `read_exact` tries again after an interrupt. -/
inductive ReadError where
  | interrupted
  | failed (e : IoError)
  deriving DecidableEq, Repr

variable {σ : Type} (R : Reader σ UInt8 ReadError)

/-- A round of `read_exact` of `len` bytes, from a source and the bytes read so far. -/
def readExactRound (len : Nat) (c : σ × Bytes) : (σ × Bytes) ⊕ (Result Bytes × σ) :=
  if c.2.length = len then .inr (.ok c.2, c.1)
  else
    match R.read (len - c.2.length) c.1 with
    | (.ok [], s) => .inr (.error (.err .eof), s)
    | (.ok bs, s) => .inl (s, c.2 ++ bs)
    | (.error .interrupted, s) => .inl (s, c.2)
    | (.error (.failed e), s) =>
      .inr (.error (.err (if e.kind = .unexpectedEof then .eof else .read)), s)

structure DecryptingSource (σ : Type) where
  inner : σ
  crypto : ZipCrypto

def DecryptingSource.read (len : Nat) (d : DecryptingSource σ) :
    Except ReadError Bytes × DecryptingSource σ :=
  match R.read len d.inner with
  | (.error e, inner) => (.error e, { d with inner })
  | (.ok bs, inner) => (.ok (d.crypto.decrypt bs).1, { inner, crypto := (d.crypto.decrypt bs).2 })

end Kzip.Impl
