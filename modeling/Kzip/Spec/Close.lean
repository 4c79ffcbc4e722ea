import Kzip.Spec.Edit
import Kzip.Spec.Encrypted

/-!
# What a close writes

The entries that the pending edits leave (`present`), the name and the content of each (`nameOf`,
`Contents`), and the file a close makes of it (`entryFor`). `Closes` says that an archive was written
for such a list of files, and `ShowsFile` what is found of a file when the archive is opened again.
-/

namespace Kzip.Spec

open Lib Lib.Utf8 Kzip.Impl

/-- The logical indices of the entries that are written, on an archive of `n` entries, in order. -/
def present (n : Nat) (e : Edits) : List Nat :=
  (List.range n).filter (fun i => !(e.ops i).deleted) ++ (List.range e.adds.length).map (n + ·)

/-- The name of an entry: that of its first pending rename, or its own. -/
def nameOf (a : Archive) (e : Edits) (i : Nat) : Str :=
  if i < a.len then (e.ops i).renames.head?.getD ((a.name i).getD [])
  else (e.adds[i - a.len]?.map (·.name)).getD []

/-- The content of an entry: that of its first pending replacement, or its own. -/
def Contents (X : Extern) (a : Archive) (e : Edits) (i : Nat) (data : Vec) : Prop :=
  if i < a.len then
    match (e.ops i).replaces.head? with
    | some d => data = d
    | none => ∀ sched, (a.readEntry X sched i).1 = .ok data.val
  else ∃ add, e.adds[i - a.len]? = some add ∧ data = add.data

/-- The DOS time and date of an entry: a pending Unix time comes before a pending DOS time. -/
def timeOf (X : Extern) (d : Option Dirent) (o : EntryOps) : UInt16 × UInt16 :=
  match o.mtimes.getLast?, o.dostimes.getLast? with
  | some ut, _ => unixToDos X (max ut 0).toNat
  | none, some t => t
  | none, none => d.elim (0, 0) fun d => (d.lastModTime, d.lastModDate)

/-- The file made of an entry, from its record, if it is an original entry, and its edits. -/
def entryFor (X : Extern) (d : Option Dirent) (o : EntryOps) (name : Str) (data : Vec) :
    ArchiveFile × UInt16 :=
  let time := timeOf X d o
  let attrs := o.extAttrs.getLast?.getD (d.elim (3, 0) fun d =>
    ((d.versionMadeby >>> 8).toUInt8, d.extAttrib))
  let compression := o.compressions.head?.bind fun c =>
    (compressionFromI32 c.1).map fun method => (method, c.2)
  ({ name, data,
     comment := o.comments.getLast?.getD (d.bind fun d =>
       if d.comment = [] then none else some (asBytes d.comment)),
     extraFields := o.extraFieldOps.foldl ExtraFieldOp.apply
       (d.elim [] fun d => withoutManaged d.extraFields),
     lastModTime := time.1, lastModDate := time.2, opsys := attrs.1, externalAttributes := attrs.2,
     method := compression.map (·.1), level := compression.map (·.2) },
    o.encryptions.head?.getD 0)

/-- The file is the one that is made of the entry at `i`. -/
def IsEntry (X : Extern) (a : Archive) (e : Edits) (i : Nat) (f : ArchiveFile × UInt16) : Prop :=
  ∃ data, Contents X a e i data ∧ f = entryFor X (a.dirent i) (e.ops i) (nameOf a e i) data

/-- Closing the handle gives `out`, the archive written for the files of `plan`, each with its
encryption method. -/
structure Closes (X : Extern) (sched : Nat → Schedule) (z : Zip) (plan : List (ArchiveFile × UInt16))
    (out : Vec) : Prop where
  materialize : z.materialize X sched = .ok out
  planned : z.plan X sched = .ok plan
  written : ∃ password, writeArchiveFull X (plan.map (·.1)) .default password (plan.map (·.2))
    (z.pending.archiveComment.getD (asBytes z.archive.comment)) = .ok out

/-! ## The archive that is written -/

/-- The password that a close encrypts with. -/
def closePassword (z : Zip) : Bytes := z.password.getD []

/-- The comment of the archive that a close writes. -/
def closeComment (z : Zip) : Bytes := z.pending.archiveComment.getD (asBytes z.archive.comment)

/-- The region of a file that is to be encrypted with AES is not too large for a reader. -/
def RegionFits (X : Extern) (f : ArchiveFile × UInt16) : Prop :=
  isAesMethod f.2 = true → ∀ cf, compressFile X .default f.1 = .ok cf →
    aesSaltLength f.2 + winzipAesPasswordVerifyLength + cf.data.val.length + winzipAesHmacLength ≤ 2 ^ 30

/-- The entry has the metadata of the file, its comment as a reader decodes it, and its methods. -/
structure ShowsMetadata (d : Dirent) (f : ArchiveFile × UInt16) : Prop where
  filename : d.filename = f.1.name
  comment : d.comment = fromUtf8Lossy (f.1.comment.getD [])
  lastModTime : d.lastModTime = f.1.lastModTime
  lastModDate : d.lastModDate = f.1.lastModDate
  opsys : (d.versionMadeby >>> 8).toUInt8 = f.1.opsys
  extAttrib : d.extAttrib = f.1.externalAttributes
  extraFields : userFields d.extraFields = userFields f.1.extraFields
  compMethod : d.compMethod = f.1.method.getD CompressOptions.default.method
  encryptionMethod : d.encryptionMethod = f.2

/-- The entry at `k` is that of the file: it has its metadata, and its content is read back, with the
password if the file is encrypted, and not without it. -/
structure ShowsFile (X : Extern) (b : Archive) (password : Bytes) (k : Nat) (f : ArchiveFile × UInt16) :
    Prop where
  entry : ∃ d, b.entries[k]? = some d ∧ ShowsMetadata d f
  plain : f.2 = encryption.none → ReadsAs X b k f.1.data.val
  locked : f.2 ≠ encryption.none → LockedOut X b k
  given : ∀ content, ReadsWith X b k password content ↔ content = f.1.data.val ∧ RegionFits X f

/-- The password gives the content of the entry at `k`, and so does no password if it is not encrypted. -/
def GivesBack (X : Extern) (b : Archive) (password : Bytes) (k : Nat) (content : Bytes) : Prop :=
  ReadsWith X b k password content ∧
    ∀ d, b.entries[k]? = some d → d.encryptionMethod = encryption.none → ReadsAs X b k content

/-! ## Adding a file -/

/-- The archive has an entry with this name, and the password gives this content. -/
def Contains (X : Extern) (b : Archive) (password : Bytes) (name : Str) (data : Vec) : Prop :=
  ∃ k d, b.entries[k]? = some d ∧ d.filename = name ∧ GivesBack X b password k data.val

/-- What an accepted add needs of the edits before it: if its name is that of an original entry, then
the entry is not deleted, and no other name or content is pending for it. An entry that has the name
and the content already will do as well. -/
def Lands (X : Extern) (a : Archive) (e : Edits) (name : Str) (data : Vec) : Prop :=
  ∀ i, a.nameLocate name = some i →
    ((e.ops i).deleted = false ∧ (∀ first ∈ (e.ops i).renames.head?, first = name) ∧
      ∀ first ∈ (e.ops i).replaces.head?, first = data) ∨
    ∃ j ∈ present a.len e, j ≠ i ∧ nameOf a e j = name ∧ Contents X a e j data

/-! ## Untouched entries -/

/-- No effect edits the entry. -/
def Untouched (effs : List Effect) (i : Nat) : Prop := ∀ x ∈ effs, x.target ≠ some i

instance (effs : List Effect) (i : Nat) : Decidable (Untouched effs i) :=
  inferInstanceAs (Decidable (∀ x ∈ effs, x.target ≠ some i))

/-- Two entries have the same metadata and encryption method, apart from the extra fields that the writer
manages. -/
structure SameMetadata (d d' : Dirent) : Prop where
  filename : d'.filename = d.filename
  comment : d'.comment = d.comment
  extraFields : userFields d'.extraFields = userFields d.extraFields
  lastModTime : d'.lastModTime = d.lastModTime
  lastModDate : d'.lastModDate = d.lastModDate
  opsys : (d'.versionMadeby >>> 8).toUInt8 = (d.versionMadeby >>> 8).toUInt8
  extAttrib : d'.extAttrib = d.extAttrib
  encryptionMethod : d'.encryptionMethod = d.encryptionMethod

/-- The entry at `k` of the archive that was written is as the entry at `i` of `a`, and has the content that
the handle reads there. -/
def Preserves (X : Extern) (a : Archive) (z : Zip) (b : Archive) (i k : Nat) : Prop :=
  ∃ d d' content, a.entries[i]? = some d ∧ b.entries[k]? = some d' ∧ SameMetadata d d' ∧
    (∀ sched, (z.archive.readEntry X sched i).1 = .ok content) ∧ GivesBack X b (closePassword z) k content

/-- The untouched entries of `a` are among those that are written, in their order, and the archive that was
written preserves each. -/
structure KeepsUntouched (X : Extern) (a : Archive) (z : Zip) (effs : List Effect) (b : Archive) : Prop where
  order : (present a.len (editsOf z.pending)).filter (fun i => i < a.len ∧ Untouched effs i) =
    (List.range a.len).filter (fun i => Untouched effs i)
  entries : ∀ k i, (present a.len (editsOf z.pending))[k]? = some i → i < a.len → Untouched effs i →
    Preserves X a z b i k

end Kzip.Spec
