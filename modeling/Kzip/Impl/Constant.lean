import Mathlib.Tactic.SplitIfs

/-!
# Format constants
-/

namespace Kzip.Impl

namespace magic
def central : List UInt8 := [0x50, 0x4B, 0x01, 0x02]
def localHeader : List UInt8 := [0x50, 0x4B, 0x03, 0x04]
def eocd : List UInt8 := [0x50, 0x4B, 0x05, 0x06]
def dataDescriptor : List UInt8 := [0x50, 0x4B, 0x07, 0x08]
def eocd64Locator : List UInt8 := [0x50, 0x4B, 0x06, 0x07]
def eocd64 : List UInt8 := [0x50, 0x4B, 0x06, 0x06]
end magic

/-! Sizes of the fixed parts of the on-disk records. -/

namespace size
def central : Nat := 46
def localHeader : Nat := 30
def eocd : Nat := 22
def eocd64Locator : Nat := 20
def eocd64 : Nat := 56
end size

/-- How much of the end of a file is searched for the end-of-central-directory record. -/
def maxCdBuffer : Nat := 65536 + size.eocd + size.eocd64Locator

def zeroCopyFastMaxUncomp : UInt64 := 64 * 1024

/-- The zero-copy decoder produces at most this much. -/
def maxDecompressed : Nat := 32 * 1024 * 1024

/-- The largest central directory that is read. -/
def maxCdSize : UInt64 := 0x40000000

def bufferPoolCapacity : Nat := 8

namespace flag
def encrypted : UInt16 := 0x0001
def dataDescriptor : UInt16 := 0x0008
def strongEncryption : UInt16 := 0x0040
end flag

/-- Compression methods. Only the first three are implemented. -/
inductive CompressionMethod where
  | store
  | deflate
  | bzip2
  | unsupported (v : Int32)
  deriving DecidableEq, Repr

def CompressionMethod.fromU16 (v : UInt16) : CompressionMethod :=
  if v = 0 then .store
  else if v = 8 then .deflate
  else if v = 12 then .bzip2
  else .unsupported v.toUInt32.toInt32

/-- The on-disk value of a method. -/
def methodToU16 : CompressionMethod → UInt16
  | .store => 0
  | .deflate => 8
  | .bzip2 => 12
  | .unsupported v => v.toUInt32.toUInt16

def extraFieldZip64 : UInt16 := 0x0001

/-- A 32-bit field with this value has its true value in the ZIP64 extra field. -/
def zip64Magic32 : UInt32 := 0xFFFFFFFF

/-- `u32::MAX as u64`. -/
def u32Max : UInt64 := 0xFFFFFFFF

namespace encryption
def none : UInt16 := 0
def tradPkware : UInt16 := 1
def aes128 : UInt16 := 0x0101
def aes192 : UInt16 := 0x0102
def aes256 : UInt16 := 0x0103
def unknown : UInt16 := 0xFFFF
end encryption

def zipCmWinzipAes : UInt16 := 99
def efWinzipAes : UInt16 := 0x9901
def efWinzipAesSize : Nat := 7
def winzipAesHmacLength : Nat := 10
def winzipAesPasswordVerifyLength : Nat := 2
def winzipAesPbkdf2Iterations : Nat := 1000

theorem methodToU16_fromU16 (v : UInt16) : methodToU16 (.fromU16 v) = v := by
  simp only [CompressionMethod.fromU16]
  split_ifs with h₀ h₈ h₁₂
  · exact h₀.symm
  · exact h₈.symm
  · exact h₁₂.symm
  · simp [methodToU16]

end Kzip.Impl
