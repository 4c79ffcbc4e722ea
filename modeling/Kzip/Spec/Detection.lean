import Kzip.Spec.Comment
import Kzip.Spec.Writer

/-!
# Telling whether an archive is ZIP64

What a reader ought to find in an archive without ZIP64 records (`ReadsPlain`), and the bytes it goes by:
those of the last central record (`lastRecord`).
-/

namespace Kzip.Spec

open Kzip.Impl

/-- The central record of the last file; its local header comes after the other entries. -/
def lastRecord (cfs : List CompressedFile) : Option Bytes :=
  cfs.getLast?.bind fun cf =>
    (writeCentralEntry cf (UInt64.ofNat (cfs.dropLast.map entryLength).sum) []).toOption

/-- The bytes end like a ZIP64 locator. -/
def EndsLikeLocator (bytes : Bytes) : Prop := (locatorBefore bytes bytes.length).isSome

/-- The reader finds the directory where the writer put it, with the entries of the files, and takes the
archive for one without ZIP64 records. -/
def ReadsPlain (kind : SourceKind) (files : List ArchiveFile) (s : WriteState) (out : Vec) : Prop :=
  ∃ cd, readCentralDir { kind, bytes := out.val } = .ok cd ∧ cd.isZip64 = false ∧
    cd.cdirOffset = s.cdirOffset ∧ cd.cdirSize = s.cdirSize ∧ cd.entries.length = files.length

end Kzip.Spec
