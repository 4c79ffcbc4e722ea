import Kzip.Spec.Archive
import Kzip.Impl.Compress

/-!
# What the writer promises

The files that an archive can represent (`Representable`, `Portable`), what an entry says about its
file (`Describes`), where the writer lays out its records (`layout`), and what is assumed of the
encoder outside the repository (`InvertsDeflate`).
-/

namespace Kzip.Spec

open Lib.Utf8 Kzip.Impl

/-- The extra fields of the user: those apart from the ones the writer manages. -/
def userFields (fields : List ExtraField) : List ExtraField :=
  fields.filter fun f => f.1 != efWinzipAes && f.1 != extraFieldZip64

def fieldsLength (fields : List ExtraField) : Nat := (fields.map fun f => 4 + f.2.length).sum

/-- The decoder inverts the encoder, at every level. -/
def InvertsDeflate (X : Extern) : Prop :=
  ∀ level data compressed, X.deflate level data = some compressed →
    X.inflate compressed = { out := data, err := none }

/-- A file that an archive represents and a reader accepts: its name fits its length field and passes
the guard against path traversal, and its comment is text. -/
structure Portable (f : ArchiveFile) : Prop where
  name_fits : (asBytes f.name).length ≤ 0xFFFF
  name_safe : pathTraversal f.name = false
  comment_utf8 : ∃ text : Str, asBytes text = f.comment.getD []

/-- The name, the comment and the extra fields of the file fit their 16-bit length fields. -/
structure Representable (f : ArchiveFile) : Prop where
  name : (asBytes f.name).length ≤ 0xFFFF
  comment : (f.comment.getD []).length ≤ 0xFFFF
  extraFields : fieldsLength (userFields f.extraFields) ≤ 0xFFFF

/-- The entry has the metadata of the file. -/
structure Describes (d : Dirent) (f : ArchiveFile) : Prop where
  filename : d.filename = f.name
  comment : asBytes d.comment = f.comment.getD []
  lastModTime : d.lastModTime = f.lastModTime
  lastModDate : d.lastModDate = f.lastModDate
  opsys : (d.versionMadeby >>> 8).toUInt8 = f.opsys
  extAttrib : d.extAttrib = f.externalAttributes
  extraFields : userFields d.extraFields = userFields f.extraFields

/-! ## The layout -/

/-- The length of the ZIP64 field of a header, if it has one. -/
def zip64Length (cf : CompressedFile) (central : Bool) (offset : UInt64) : Nat :=
  let data := zip64ExtraData cf central offset
  if data = [] then 0 else 4 + data.length

/-- The length of the local header of a plain file and its data. -/
def localLength (cf : CompressedFile) : Nat :=
  size.localHeader + (asBytes cf.name).length + fieldsLength (userFields cf.extraFields) +
    zip64Length cf false 0 + cf.data.val.length

/-- The files with the offsets of their local headers, from `pos` on: each right after the one before
it. -/
def layout : Nat → List CompressedFile → List (CompressedFile × UInt64)
  | _, [] => []
  | pos, cf :: cfs => (cf, UInt64.ofNat pos) :: layout (pos + localLength cf) cfs

/-- The length of the central record of a plain file. -/
def centralLength (cf : CompressedFile) (offset : UInt64) : Nat :=
  size.central + (asBytes cf.name).length + fieldsLength (userFields cf.extraFields) +
    zip64Length cf true offset + (cf.comment.getD []).length

def directoryLength (cfs : List CompressedFile) : Nat :=
  ((layout 0 cfs).map fun p => centralLength p.1 p.2).sum

/-! ## The layout of files that may be encrypted -/

/-- The length of the WinZip AES field of a header, if it has one. -/
def aesLength (cf : CompressedFile) : Nat := if cf.isAes then 4 + efWinzipAesSize else 0

/-- The length of the data descriptor that follows the data, if there is one. -/
def descriptorLength (cf : CompressedFile) : Nat :=
  if cf.isAes then if needsZip64Sizes cf then 24 else 16 else 0

/-- The length of the local header of a file, its data and its data descriptor. -/
def entryLength (cf : CompressedFile) : Nat := localLength cf + aesLength cf + descriptorLength cf

/-- The files with the offsets of their local headers, from `pos` on. -/
def positions : Nat → List CompressedFile → List (CompressedFile × UInt64)
  | _, [] => []
  | pos, cf :: cfs => (cf, UInt64.ofNat pos) :: positions (pos + entryLength cf) cfs

/-- The length of the central record of a file. -/
def recordLength (cf : CompressedFile) (offset : UInt64) : Nat := centralLength cf offset + aesLength cf

def recordsLength (cfs : List CompressedFile) : Nat :=
  ((positions 0 cfs).map fun p => recordLength p.1 p.2).sum

/-! ## Results -/

/-- Whether the writer puts a ZIP64 locator. -/
def writesLocator (X : Extern) (files : List ArchiveFile) (opts : CompressOptions) : Bool :=
  match compressFiles X files opts with
  | .error _ => false
  | .ok cfs =>
    match writeEntries cfs with
    | .error _ => false
    | .ok s => s.needZip64 cfs

/-- The locator directly before the end record of an archive without a comment, if there are bytes
that look like one. -/
def locatorOf (bytes : Bytes) : Option UInt64 := locatorBefore bytes (bytes.length - size.eocd)

/-- The archive written for the files and the archive comment is opened with an entry for each file,
and every length that was recorded is the true one. -/
structure ReadsBack (kind : SourceKind) (files : List ArchiveFile) (comment : Bytes) (out : Vec) :
    Prop where
  opens : ∃ a, Archive.open { kind, bytes := out.val } = .ok a ∧ a.entries.length = files.length
  files : ∀ f ∈ files, Representable f
  comment : comment.length ≤ 0xFFFF

end Kzip.Spec
