import Kzip.Impl.Archive

/-!
# What a reader of an archive may rely on

The calls on an open archive (`ArchiveCall`), and what it means for the region of a WinZip AES entry
to be authentic (`AesAuthentic`).
-/

namespace Kzip.Spec

open Kzip.Impl

/-- A call on an open archive, other than the one under consideration. -/
inductive ArchiveCall where
  | setDefaultPassword (password : Bytes)
  | openEntry (index : Nat) (password : Option Bytes)
  | readEntry (sched : Schedule) (index : Nat) (password : Option Bytes)

/-- The archive a call leaves behind. -/
def ArchiveCall.run (X : Extern) (a : Archive) : ArchiveCall → Archive
  | .setDefaultPassword password => a.setDefaultPassword password
  | .openEntry index password => (a.openEntryWithPassword X index password).2
  | .readEntry sched index password => (a.readEntryWithPassword X sched index password).2

/-- The archive after a sequence of calls. -/
def after (X : Extern) (calls : List ArchiveCall) (a : Archive) : Archive :=
  calls.foldl (ArchiveCall.run X) a

/-- Reading the entry at `index` gives `content`, whatever was read before. -/
def ReadsAs (X : Extern) (a : Archive) (index : Nat) (content : Bytes) : Prop :=
  ∀ calls sched, ((after X calls a).readEntry X sched index).1 = .ok content

/-- Whether an entry is opened through `open_aes`. -/
def opensAes (d : Dirent) : Bool := d.encrypted && isAesMethod d.encryptionMethod

/-- The compressed bytes stored for an entry whose data begin at `off`. -/
def storedRegion (src : Source) (d : Dirent) (off : Nat) : Bytes :=
  (src.bytes.drop off).take d.compSize.toNat

/-- A region of salt, verification value, ciphertext and tag whose tag is the truncated HMAC of its
ciphertext, under the key derived from the password and its salt. -/
def AesAuthentic (X : Extern) (password : Bytes) (method : UInt16) (region : Bytes) : Prop :=
  let salt := region.take (aesSaltLength method)
  let ciphertext := (region.drop (aesSaltLength method + winzipAesPasswordVerifyLength)).take
    (region.length - (aesSaltLength method + winzipAesPasswordVerifyLength + winzipAesHmacLength))
  let tag := region.drop (region.length - winzipAesHmacLength)
  let hmacKey := (deriveAesKeys X method password salt).2.1
  tag.length = winzipAesHmacLength ∧ tag = aesTag X hmacKey ciphertext

end Kzip.Spec
