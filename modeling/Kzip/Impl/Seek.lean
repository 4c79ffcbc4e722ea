import Kzip.Impl.File

/-!
# Seeking in an entry

A reader over decoded bytes can be set to any position; its checks are given up then. A reader that
decompresses while it reads cannot.
-/

namespace Kzip.Impl

/-- The bytes produced so far. -/
def EntryReader.position (r : EntryReader) : Nat := r.sizeRead

/-- What `seek` does to a reader that it sets to the position `pos`. -/
def EntryReader.seekedTo (r : EntryReader) (inner : Inner) (pos : Nat) : EntryReader :=
  { r with inner, sizeRead := pos, crc := [], finished := false, integrityErr := none, seeked := true }

def EntryReader.seek (pos : UInt64) (r : EntryReader) : Except IoError Unit × EntryReader :=
  match r.inner with
  | .buffered data _ pooled =>
    let p := min pos.toNat data.length
    (.ok (), r.seekedTo (.buffered data p pooled) p)
  | .shared data start stop _ =>
    let p := min pos.toNat (stop - start)
    (.ok (), r.seekedTo (.shared data start stop p) p)
  | .streaming _ => (.error ⟨.unsupported, "seek not supported on streaming reader"⟩, r)

end Kzip.Impl
