import Kzip.Spec.Archive

/-!
# The content of an entry

What an entry holds, as a function of the bytes of the archive alone: its compressed bytes are taken
from where its data begin and decrypted (`Dirent.compressed`), decoded, and the result is compared
with the recorded size and CRC (`Dirent.content`). No source, buffer or schedule of reads enters, so
that two ways to read an entry are compared by comparing each with this.
-/

namespace Kzip.Spec

open Kzip.Impl

section
variable (X : Extern) (bytes : Bytes) (d : Dirent) (off : Nat)

/-- The compressed bytes of a WinZip AES entry whose region is authentic under a password. -/
def aesCompressed (password : Bytes) : Option Bytes :=
  let region := (bytes.drop off).take d.compSize.toNat
  if d.compSize ≤ maxCdSize ∧ region.length = d.compSize.toNat then
    (aesDecryptData X password d.encryptionMethod region).toOption
  else none

/-- The compressed bytes of a traditionally encrypted entry whose check byte is right. -/
def zipCryptoCompressed (password : Bytes) : Option Bytes :=
  let header := (bytes.drop off).take encryptionHeaderLen
  let (plain, crypto) := (ZipCrypto.new password).decrypt header
  if header.length = encryptionHeaderLen ∧ encryptionHeaderLen ≤ d.compSize.toNat ∧
      plain.getD (encryptionHeaderLen - 1) 0 = (d.crc >>> 24).toUInt8 then
    some ((crypto.decrypt (bytes.drop (off + encryptionHeaderLen))).1.take
      (d.compSize.toNat - encryptionHeaderLen))
  else none

/-- The compressed bytes of an entry whose data begin at `off`. -/
def compressed (password : Option Bytes) : Option Bytes :=
  if d.encrypted then
    if isAesMethod d.encryptionMethod then password.bind (aesCompressed X bytes d off)
    else if d.encryptionMethod = encryption.tradPkware then
      password.bind (zipCryptoCompressed bytes d off)
    else none
  else some ((bytes.drop off).take d.compSize.toNat)

/-- The compressed bytes `c` decode without an error to `v`, which has the recorded size and, unless
the entry is authenticated, the recorded CRC. -/
structure DecodesTo (c v : Bytes) : Prop where
  decode : decode X d.compMethod c = some { out := v, err := none }
  size : v.length = d.uncompSize.toNat
  crc : opensAes d = false → X.crc32 v = d.crc

/-- The entry whose data begin at `off` holds the content `v`. -/
def Holds (password : Option Bytes) (v : Bytes) : Prop :=
  ∃ c, compressed X bytes d off password = some c ∧ DecodesTo X d c v

end

/-- Opens an archive held in a source of the given kind, and reads an entry of it. -/
def readFrom (X : Extern) (sched : Schedule) (kind : SourceKind) (bytes : Vec) (index : Nat)
    (password : Option Bytes) : Result Bytes := do
  let a ← Archive.open { kind, bytes := bytes.val }
  (a.readEntryWithPassword X sched index password).1

/-- The data offset of an entry and its compressed size add up within a `usize`. -/
def FitsUsize (bytes : Vec) (index : Nat) : Prop :=
  ∀ kind a d off, Archive.open { kind, bytes := bytes.val } = .ok a → a.entries[index]? = some d →
    localHeaderLen a.src d.offset.toNat = .ok off → off + d.compSize.toNat < 2 ^ 64

/-- An entry reads alike from every kind of source and in pieces of any size: everywhere the same
bytes, or everywhere an error. -/
def ReadsAlike (X : Extern) (bytes : Vec) (index : Nat) (password : Option Bytes) : Prop :=
  (∃ v, ∀ kind sched, readFrom X sched kind bytes index password = .ok v) ∨
    ∀ kind sched, ∃ code, readFrom X sched kind bytes index password = .error (.err code)

end Kzip.Spec
