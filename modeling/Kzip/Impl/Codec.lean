import Kzip.Impl.Constant
import Kzip.Impl.Extern

/-!
# Codec dispatch

`Decoder.new` is the streaming decoder over the compressed bytes of an entry, `decodeSliceInto` the
one that decodes a slice into a buffer.
-/

namespace Kzip.Impl

section
variable (X : Extern)

/-- What the codec of a method makes of its compressed bytes; `none` when there is no codec. -/
def decode (method : CompressionMethod) (compressed : Bytes) : Option Decoded :=
  match method with
  | .store => some { out := compressed, err := none }
  | .deflate => some (X.inflate compressed)
  | .bzip2 => some (X.bunzip2 compressed)
  | .unsupported _ => none

/-- A decoder over at most `compSize` of the bytes `src` has left. -/
def Decoder.new (src : Bytes) (method : CompressionMethod) (compSize : UInt64) : Result Decoded :=
  match decode X method (src.take compSize.toNat) with
  | some d => .ok d
  | none => .error (.err .compnotsupp)

/-- `Vec::clear` -/
def Vec.clear (_ : Bytes) : Bytes := []

/-- Decodes at most `compSize` bytes of `data` into the recycled buffer `out`. The output is copied
up to one byte past the limit. -/
def decodeSliceInto (data : Bytes) (method : CompressionMethod) (compSize : UInt64) (out : Bytes) :
    Result Bytes :=
  let out := Vec.clear out
  let bounded := data.take (min compSize.toNat data.length)
  let limit := maxDecompressed + 1
  match decode X method bounded with
  | none => .error (.err .compnotsupp)
  | some d =>
    let copied := d.out.take limit
    -- the error is met only when the copy reaches it
    if d.out.length < limit ∧ d.err.isSome then .error (.err .compressedData)
    else if copied.length > maxDecompressed then .error (.err .decompressionLimit)
    else .ok (out ++ copied)

/-- The bytes a slice decodes to: all of the decoder's output, without an error. -/
theorem decodeSliceInto_ok {data out v : Bytes} {method : CompressionMethod} {compSize : UInt64} :
    decodeSliceInto X data method compSize out = .ok v ↔
      decode X method (data.take compSize.toNat) = some { out := v, err := none } ∧
        v.length ≤ maxDecompressed := by
  have hb : data.take (min compSize.toNat data.length) = data.take compSize.toNat := by
    rw [← List.take_take, List.take_length]
  simp only [decodeSliceInto, Vec.clear, hb, List.nil_append]
  cases decode X method (data.take compSize.toNat) with
  | none => simp
  | some d =>
    obtain ⟨bs, err⟩ := d
    simp only [Option.some.injEq, Decoded.mk.injEq]
    by_cases hlen : bs.length ≤ maxDecompressed
    · have htake : bs.take (maxDecompressed + 1) = bs := List.take_of_length_le (by omega)
      cases err with
      | none => simp [htake, show ¬ maxDecompressed < bs.length by omega]; rintro rfl; exact hlen
      | some e => simp [show bs.length < maxDecompressed + 1 by omega]
    · have hlen' : maxDecompressed < (bs.take (maxDecompressed + 1)).length := by
        rw [List.length_take]; omega
      simp only [show ¬ bs.length < maxDecompressed + 1 by omega, false_and, ↓reduceIte, hlen',
        reduceCtorEq, false_iff]
      rintro ⟨⟨rfl, -⟩, h⟩
      exact hlen h

end

end Kzip.Impl
