import Kzip.Impl.Compress
import Kzip.Impl.File

/-!
# A concrete instance of the outside code

The CRC-32 that `crc32fast` computes, and a codec of one stored deflate block, which is what the
encoder emits at level 0 for short inputs. The primitives nothing here runs return constants.
-/

namespace Kzip.Impl

open Lib.LE

/-- The CRC-32 of a byte string. -/
def crc32 (bs : Bytes) : UInt32 := bs.foldl crc32Update 0xFFFFFFFF ^^^ 0xFFFFFFFF

/-- One final stored block. -/
def storedBlock (data : Bytes) : Option Bytes :=
  if data.length ≤ 0xFFFF then
    let len := UInt16.ofNat data.length
    some ([[1], le16 len, le16 (~~~len), data].flatten)
  else none

/-- Reads one final stored block. -/
def readStoredBlock (bs : Bytes) : Decoded :=
  let len := u16 ((bs.drop 1).take 2)
  if bs.take 1 = [1] ∧ u16 ((bs.drop 3).take 2) = ~~~len ∧ len.toNat ≤ (bs.drop 5).length then
    { out := (bs.drop 5).take len.toNat, err := none }
  else { out := [], err := some ⟨.invalidData, "corrupt deflate stream"⟩ }

def reference : Extern where
  overflowChecks := false
  crc32 := crc32
  deflate _ data := storedBlock data
  inflate := readStoredBlock
  bunzip2 _ := { out := [], err := some ⟨.invalidData, "bad bzip2 header"⟩ }
  pbkdf2HmacSha1 _ _ _ n := Vector.replicate n 0
  hmacSha1 _ _ := Vector.replicate 20 0
  encryptBlock _ block := block
  naiveLocal _ := { year := 1980, month := 1, day := 1, hour := 0, minute := 0, second := 0 }
  randomSalt _ n := Vector.replicate n 0

/-- The stored-block codec is inverted by its reader. -/
theorem reference_inflate_deflate {level : UInt32} {data compressed : Bytes}
    (h : reference.deflate level data = some compressed) :
    reference.inflate compressed = { out := data, err := none } := by
  simp only [reference, storedBlock, Option.ite_none_right_eq_some, Option.some.injEq] at h ⊢
  obtain ⟨hlen, rfl⟩ := h
  have hn : (UInt16.ofNat data.length).toNat = data.length := toNat_ofNat_u16 hlen
  simp only [List.flatten_cons, List.flatten_nil, List.append_nil]
  have h1 : ∀ n : UInt16, ([1] ++ (le16 n ++ (le16 (~~~n) ++ data))).drop 1 =
      le16 n ++ (le16 (~~~n) ++ data) := fun _ => rfl
  have h3 : ∀ n : UInt16, ([1] ++ (le16 n ++ (le16 (~~~n) ++ data))).drop 3 = le16 (~~~n) ++ data :=
    fun n => (List.drop_drop (i := 2) (j := 1)).symm.trans (List.drop_left' (length_le16 n))
  have h5 : ∀ n : UInt16, ([1] ++ (le16 n ++ (le16 (~~~n) ++ data))).drop 5 = data :=
    fun n => (List.drop_drop (i := 2) (j := 3)).symm.trans
      ((congrArg _ (h3 n)).trans (List.drop_left' (length_le16 _)))
  simp only [readStoredBlock, h1, h3, h5, List.take_left' (length_le16 _), u16_le16, hn,
    List.take_length]
  exact if_pos ⟨rfl, trivial, Nat.le_refl _⟩

/-- Options that store the files. -/
def storeOptions : CompressOptions := { CompressOptions.default with method := .store }

/-- Two files, `a` and `b`. -/
def sampleFiles : List ArchiveFile :=
  [.new ['a'] ⟨[0x68, 0x69], by decide⟩, .new ['b'] ⟨[0x6A], by decide⟩]

/-- The archive of one stored file `a`. -/
def sampleArchive : Bytes :=
  ((writeArchive reference [.new ['a'] ⟨[0x68, 0x69], by decide⟩] storeOptions).toOption.map
    (·.val)).getD []

/-- The archive of one stored file `a`, encrypted under the password `p`. -/
def encryptedArchive : Bytes :=
  ((writeArchiveFull reference [.new ['a'] ⟨[0x68, 0x69], by decide⟩] storeOptions [0x70]
    [encryption.tradPkware] []).toOption.map (·.val)).getD []

/-- An end record of one entry that is on no disk, in an empty directory. -/
def strayEndRecord : Bytes :=
  [0x50, 0x4B, 0x05, 0x06, 0, 0, 0, 0, 0, 0, 1, 0, 0, 0, 0, 0, 0, 0, 0, 0, 0, 0]

/-- A buffer of one byte. -/
def oneByte (b : UInt8) : Vec := ⟨[b], show 1 < 2 ^ 63 by decide⟩

/-- Reads that ask for 4096 bytes and get one. -/
def bytewise : Schedule := { call := fun _ => ⟨4096, 0⟩, len_pos := fun _ => by decide }

end Kzip.Impl
