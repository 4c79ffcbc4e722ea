import Kzip.Impl.Reference
import Kzip.Lib.Indexed
import Kzip.Proof.Layout

/-!
# Writing an archive and reading it back

`writeArchive_roundtrip`: what `writeArchive` writes is opened again, with an entry for each file that
has its metadata and its content. `writeArchiveFull_readsBack_iff` says of any files and any archive
comment when the archive that is written can be opened.
-/

namespace Kzip.Impl

open Lib Lib.Utf8 Kzip.Spec

variable {X : Extern}

/-! ## Compression -/

/-- The file was compressed, and not encrypted. -/
structure Compressed (X : Extern) (f : ArchiveFile) (cf : CompressedFile) : Prop where
  plain : cf.Plain
  name : cf.name = f.name
  comment : cf.comment = f.comment
  extraFields : cf.extraFields = f.extraFields
  lastModTime : cf.lastModTime = f.lastModTime
  lastModDate : cf.lastModDate = f.lastModDate
  opsys : cf.opsys = f.opsys
  externalAttributes : cf.externalAttributes = f.externalAttributes
  crc : cf.crc = X.crc32 f.data.val
  compSize : cf.compSize = UInt64.ofNat cf.data.val.length
  uncompSize : cf.uncompSize = UInt64.ofNat f.data.val.length
  decode : InvertsDeflate X → Impl.decode X (.fromU16 cf.method) cf.data.val =
    some { out := f.data.val, err := none }

theorem compressBytes_ok {data compressed : Vec} {method : CompressionMethod} {level : UInt32}
    (h : compressBytes X data method level = .ok compressed) :
    methodToU16 method ≠ zipCmWinzipAes ∧
      (InvertsDeflate X → decode X (.fromU16 (methodToU16 method)) compressed.val =
        some { out := data.val, err := none }) := by
  unfold compressBytes at h
  split at h
  · cases h
    exact ⟨by decide, fun _ => rfl⟩
  · split at h
    · rename_i c hc
      obtain rfl := Vec.ofBytes_ok.mp h
      exact ⟨by decide, fun hX => congrArg some (hX _ _ _ hc)⟩
    · cases h
  · cases h
  · cases h

theorem compressFile_ok {opts : CompressOptions} {f : ArchiveFile} {cf : CompressedFile}
    (h : compressFile X opts f = .ok cf) : Compressed X f cf := by
  simp only [compressFile] at h
  obtain ⟨data, hdata, h⟩ := bind_ok.mp h
  cases h
  obtain ⟨hmethod, hdecode⟩ := compressBytes_ok hdata
  exact ⟨⟨rfl, hmethod⟩, rfl, rfl, rfl, rfl, rfl, rfl, rfl, rfl, rfl, rfl, hdecode⟩

theorem compressFiles_ok {opts : CompressOptions} {files : List ArchiveFile}
    {cfs : List CompressedFile} (h : compressFiles X files opts = .ok cfs) :
    List.Forall₂ (Compressed X) files cfs :=
  (mapM_ok.mp h).imp fun _ _ => compressFile_ok

theorem exists_compressed {files : List ArchiveFile} {cfs : List CompressedFile}
    (h : List.Forall₂ (Compressed X) files cfs) {cf : CompressedFile} (hcf : cf ∈ cfs) :
    ∃ f ∈ files, Compressed X f cf := by
  obtain ⟨i, hi, rfl⟩ := List.mem_iff_getElem.mp hcf
  have hi' : i < files.length := h.length_eq ▸ hi
  exact ⟨files[i], List.getElem_mem hi', h.get hi' hi⟩

/-! ## The entry of a file -/

theorem opsys_madeBy (opsys : UInt8) {version : UInt16} (h : version = 20 ∨ version = 45) :
    (((opsys.toUInt16 <<< 8) ||| version) >>> 8).toUInt8 = opsys := by
  have hlt := opsys.toNat_lt
  rw [← UInt8.toNat_inj]
  rcases h with rfl | rfl <;>
  · simp [Nat.shiftRight_or_distrib]
    rw [Nat.shiftLeft_eq, Nat.shiftRight_eq_div_pow]
    omega

theorem versionNeeded_plain {cf : CompressedFile} (h : cf.Plain) (z : Bool) :
    cf.versionNeeded z = 20 ∨ cf.versionNeeded z = 45 := by
  rw [CompressedFile.versionNeeded, h.not_aes]
  cases z
  · exact .inl rfl
  · exact .inr rfl

theorem userFields_centralFields (cf : CompressedFile) (offset : UInt64) :
    userFields (cf.centralFields offset) = userFields cf.extraFields := by
  rw [CompressedFile.centralFields, userFields, List.filter_append]
  have hz : (zip64Field (cf.zip64Values offset).overflowData).filter
      (fun f => f.1 != efWinzipAes && f.1 != extraFieldZip64) = [] := by
    unfold zip64Field
    split <;> rfl
  rw [hz, List.append_nil, userFields, List.filter_filter]
  simp only [Bool.and_self]

theorem describes_dirent {f : ArchiveFile} {cf : CompressedFile} (h : Compressed X f cf)
    (hf : Portable f) (offset : UInt64) : Describes (cf.dirent offset) f := by
  obtain ⟨text, htext⟩ := hf.comment_utf8
  refine ⟨h.name, ?_, h.lastModTime, h.lastModDate, ?_, h.externalAttributes, ?_⟩
  · show asBytes (fromUtf8Lossy (cf.comment.getD [])) = _
    rw [h.comment, ← htext, fromUtf8Lossy_asBytes]
  · rw [← h.opsys]
    exact opsys_madeBy cf.opsys (versionNeeded_plain h.plain _)
  · rw [← h.extraFields]
    exact userFields_centralFields cf offset

theorem stores_dirent {f : ArchiveFile} {e : WrittenEntry} {out : Bytes} (hX : InvertsDeflate X)
    (h : Compressed X f e.file) (hw : Written out e) :
    (e.file.dirent e.offset).Stores X out f.data.val where
  plain := by
    show decide ((0 : UInt16) &&& flag.encrypted ≠ 0) = false
    decide
  placed := by
    refine ⟨e.file.data.val, hw.placed, ?_, h.decode hX⟩
    have hlt := e.file.data.property
    show e.file.compSize.toNat = _
    rw [h.compSize]
    exact UInt64.toNat_ofNat_of_lt' (by rw [UInt64.size]; omega)
  size := by
    have hlt := f.data.property
    show _ = e.file.uncompSize.toNat
    rw [h.uncompSize]
    exact (UInt64.toNat_ofNat_of_lt' (by rw [UInt64.size]; omega)).symm
  crc := h.crc.symm

/-- Only the uncompressed size of an entry of a small archive can overflow its field. -/
theorem unambiguous_of_small {v : Zip64Values} (hc : v.compSize < u32Max) (ho : v.offset < u32Max)
    (hd : v.disk = 0) : v.Unambiguous := by
  intro hne
  refine ⟨fun hu => hne (overflowData_eq_nil.mpr ⟨?_, UInt64.le_of_lt hc, UInt64.le_of_lt ho, ?_⟩),
    UInt64.ne_of_lt hc, UInt64.ne_of_lt ho, by rw [hd]; decide⟩
  · rw [hu]
    exact UInt64.le_refl _
  · rw [hd]
    decide

/-! ## The archive -/

/-- What is written for plain files: their entries, the directory of these, the end records. -/
structure Laid (X : Extern) (cfs : List CompressedFile) (comment : Bytes) (out : Vec) (s : WriteState)
    (es : List WrittenEntry) : Prop where
  files : es.map (·.file) = cfs
  written : ∀ e ∈ es, Written s.out e
  layout : es.map (fun e => (e.file, e.offset)) = Spec.layout 0 cfs
  cdir : s.cdir = es.flatMap (·.record)
  isPrefix : s.out ++ s.cdir <+: out.val
  endRecords : writeEndRecords X (s.needZip64 cfs) cfs.length s.cdirSize s.cdirOffset comment
    (s.out ++ s.cdir) = .ok out.val

theorem LaidOut.laid {cfs : List CompressedFile} {comment : Bytes} {out : Vec} {s : WriteState}
    {es : List WrittenEntry} (h : LaidOut X cfs comment out s es) (hp : ∀ cf ∈ cfs, cf.Plain) :
    Laid X cfs comment out s es where
  files := h.files
  written e he := (h.emitted e he).written (hp _ (h.files ▸ List.mem_map.mpr ⟨e, he, rfl⟩))
  layout := h.positions.trans (positions_plain hp 0)
  cdir := h.cdir
  isPrefix := h.isPrefix
  endRecords := h.endRecords

theorem writeCompressed_laid {files : List ArchiveFile} {cfs : List CompressedFile} {comment : Bytes}
    {out : Vec} (hcomp : List.Forall₂ (Compressed X) files cfs)
    (hname : ∀ f ∈ files, (asBytes f.name).length ≤ 0xFFFF) {s : WriteState}
    (hs : writeEntries cfs = .ok s) (h : writeCompressed X cfs comment = .ok out) :
    ∃ es, Laid X cfs comment out s es := by
  have hp : ∀ cf ∈ cfs, cf.Plain := fun cf hcf =>
    (exists_compressed hcomp hcf).elim fun _ hf => hf.2.plain
  have hname : ∀ cf ∈ cfs, (asBytes cf.name).length ≤ 0xFFFF := fun cf hcf =>
    (exists_compressed hcomp hcf).elim fun f hf => hf.2.name ▸ hname f hf.1
  obtain ⟨es, hes⟩ := writeCompressed_laidOut (fun cf hcf => (hp cf hcf).known) hname hs h
  exact ⟨es, hes.laid hp⟩

theorem Laid.written_out {cfs : List CompressedFile} {comment : Bytes} {out : Vec} {s : WriteState}
    {es : List WrittenEntry} (h : Laid X cfs comment out s es) (e : WrittenEntry) (he : e ∈ es) :
    Written out.val e := by
  obtain ⟨more, hmore⟩ := (List.prefix_append _ _).trans h.isPrefix
  rw [← hmore]
  exact (h.written e he).append more

/-- What the reader makes of the archive, when its end record is used. -/
theorem Laid.read_iff {kind : SourceKind} {cfs : List CompressedFile} {comment : Bytes} {out : Vec}
    {s : WriteState} {es : List WrittenEntry} (h : Laid X cfs comment out s es)
    (hsafe : s.TailSafe cfs kind comment) :
    (s.cdir.length ≤ 2 ^ 30 → (∀ e ∈ es, e.file.Accepted e.offset) →
      ∃ z, readCentralDir { kind, bytes := out.val } =
        .ok { entries := es.map fun e => e.file.dirent e.offset, comment := fromUtf8Lossy comment,
              isZip64 := z, cdirSize := s.cdirSize, cdirOffset := s.cdirOffset }) ∧
    ∀ cd, readCentralDir { kind, bytes := out.val } = .ok cd →
      s.cdir.length ≤ 2 ^ 30 ∧ ∀ e ∈ es, e.file.Accepted e.offset := by
  obtain rfl := h.files
  exact readCentralDir_entries h.endRecords h.cdir (fun e he => (h.written e he).describing) hsafe

/-- The written end record of an archive without a comment is used, unless bytes before it look like a
locator that the writer did not put. -/
theorem tailSafe_of_locatorOf {kind : SourceKind} {z : Bool} {n : Nat} {cdirSize cdirOffset : UInt64}
    {body : Bytes} {out : Vec} (h : writeEndRecords X z n cdirSize cdirOffset [] body = .ok out.val)
    (hloc : z = false → locatorOf out.val = none) :
    TailSafe kind z n cdirSize cdirOffset [] body := by
  refine .of_no_comment fun hz => ?_
  subst hz
  have hout : out.val = body ++ endRecordOf false n cdirSize cdirOffset [] := (Except.ok.inj h).symm
  have hpos : out.val.length - size.eocd = body.length := by
    rw [hout, List.length_append, endRecordOf_length]
    exact Nat.add_sub_cancel _ _
  have hnone := hloc rfl
  rwa [locatorOf, hpos, hout, locatorBefore_append] at hnone

/-- The entries of a small archive have sizes and offsets that can be told from the sentinels. -/
theorem accepted_of_small {out : Bytes} {cf : CompressedFile} {offset : UInt64}
    (hplaced : Placed out offset cf.data.val) (hlen : out.length < 2 ^ 30)
    (hname : pathTraversal cf.name = false)
    (hsize : cf.compSize = UInt64.ofNat cf.data.val.length) : cf.Accepted offset := by
  refine ⟨hname, unambiguous_of_small ?_ ?_ rfl⟩ <;>
    obtain ⟨pre, header, rest, hout, -, hoffset⟩ := hplaced <;>
    have hsum : out.length = pre.length + (header.length + (cf.data.val.length + rest.length)) := by
      rw [hout]; simp only [List.length_append]
  · show cf.compSize < u32Max
    rw [hsize, UInt64.lt_iff_toNat_lt, UInt64.toNat_ofNat_of_lt' (by rw [UInt64.size]; omega),
      show u32Max.toNat = 0xFFFFFFFF from rfl]
    omega
  · show offset < u32Max
    rw [hoffset, UInt64.lt_iff_toNat_lt, UInt64.toNat_ofNat_of_lt' (by rw [UInt64.size]; omega),
      show u32Max.toNat = 0xFFFFFFFF from rfl]
    omega

/-- A small archive without a comment is read back. -/
theorem Laid.read {cfs : List CompressedFile} {out : Vec} {s : WriteState}
    {es : List WrittenEntry} (h : Laid X cfs [] out s es) (hlen : out.val.length < 2 ^ 30)
    (hname : ∀ cf ∈ cfs, pathTraversal cf.name = false)
    (hsize : ∀ cf ∈ cfs, cf.compSize = UInt64.ofNat cf.data.val.length)
    (hloc : s.needZip64 cfs = false → locatorOf out.val = none) :
    (∀ e ∈ es, e.file.Accepted e.offset) ∧
    ∀ kind, ∃ z, readCentralDir { kind, bytes := out.val } =
      .ok { entries := es.map fun e => e.file.dirent e.offset, comment := [], isZip64 := z,
            cdirSize := s.cdirSize, cdirOffset := s.cdirOffset } := by
  have hle := h.isPrefix.length_le
  rw [List.length_append] at hle
  obtain rfl := h.files
  have hacc : ∀ e ∈ es, e.file.Accepted e.offset := fun e he =>
    have hmem : e.file ∈ es.map (·.file) := List.mem_map.mpr ⟨e, he, rfl⟩
    accepted_of_small (h.written e he).placed (by omega) (hname _ hmem) (hsize _ hmem)
  exact ⟨hacc, fun kind =>
    (h.read_iff (tailSafe_of_locatorOf h.endRecords hloc)).1 (by omega) hacc⟩

theorem writesLocator_eq {files : List ArchiveFile} {opts : CompressOptions}
    {cfs : List CompressedFile} {s : WriteState} (hc : compressFiles X files opts = .ok cfs)
    (hs : writeEntries cfs = .ok s) : writesLocator X files opts = s.needZip64 cfs := by
  simp only [writesLocator, hc, hs]

/-- What `writeArchive` writes for portable files is read back, with an entry for each file. -/
theorem writeArchive_read {files : List ArchiveFile} {opts : CompressOptions} {out : Vec}
    (h : writeArchive X files opts = .ok out) (hfiles : ∀ f ∈ files, Portable f)
    (hlen : out.val.length < 2 ^ 30)
    (hloc : writesLocator X files opts = false → locatorOf out.val = none) :
    ∃ cfs s es, Laid X cfs [] out s es ∧ List.Forall₂ (Compressed X) files cfs ∧
      (∀ e ∈ es, e.file.Accepted e.offset) ∧
      ∀ kind, ∃ z, readCentralDir { kind, bytes := out.val } =
        .ok { entries := es.map fun e => e.file.dirent e.offset, comment := [], isZip64 := z,
              cdirSize := s.cdirSize, cdirOffset := s.cdirOffset } := by
  obtain ⟨cfs, hc, h⟩ := bind_ok.mp h
  have hcomp := compressFiles_ok hc
  obtain ⟨s, -, hs, -, -⟩ := writeCompressed_ok h
  obtain ⟨es, hlaid⟩ := writeCompressed_laid hcomp (fun f hf => (hfiles f hf).name_fits) hs h
  obtain ⟨hacc, hread⟩ := hlaid.read hlen
    (fun cf hcf => (exists_compressed hcomp hcf).elim fun f hf =>
      hf.2.name ▸ (hfiles f hf.1).name_safe)
    (fun cf hcf => (exists_compressed hcomp hcf).elim fun _ hf => hf.2.compSize)
    (fun hz => hloc (by rw [writesLocator_eq hc hs, hz]))
  exact ⟨cfs, s, es, hlaid, hcomp, hacc, hread⟩

/-- A small archive of files that may be encrypted, without a comment, is read back. -/
theorem LaidOut.read {cfs : List CompressedFile} {out : Vec} {s : WriteState}
    {es : List WrittenEntry} (h : LaidOut X cfs [] out s es) (hlen : out.val.length < 2 ^ 30)
    (hname : ∀ cf ∈ cfs, pathTraversal cf.name = false)
    (hsize : ∀ cf ∈ cfs, cf.compSize = UInt64.ofNat cf.data.val.length)
    (hloc : s.needZip64 cfs = false → locatorOf out.val = none) (kind : SourceKind) :
    ∃ z, readCentralDir { kind, bytes := out.val } =
      .ok { entries := es.map fun e => e.file.entry e.offset, comment := [], isZip64 := z,
            cdirSize := s.cdirSize, cdirOffset := s.cdirOffset } := by
  have hle := h.isPrefix.length_le
  rw [List.length_append] at hle
  obtain rfl := h.files
  refine (h.read_iff (tailSafe_of_locatorOf h.endRecords hloc)).1 (by omega) fun e he => ?_
  have hmem : e.file ∈ es.map (·.file) := List.mem_map.mpr ⟨e, he, rfl⟩
  exact accepted_of_small (h.emitted e he).placed (by omega) (hname _ hmem) (hsize _ hmem)

/-- The entry that was written for a file. -/
theorem Laid.entry {cfs : List CompressedFile} {comment : Bytes} {out : Vec} {s : WriteState}
    {es : List WrittenEntry} (h : Laid X cfs comment out s es) {files : List ArchiveFile}
    (hcomp : List.Forall₂ (Compressed X) files cfs) {i : Nat} {f : ArchiveFile}
    (hf : files[i]? = some f) : ∃ e, es[i]? = some e ∧ e ∈ es ∧ Compressed X f e.file := by
  obtain ⟨cf, hcf, hcompressed⟩ := exists_of_forall₂ hcomp hf
  rw [← h.files, List.getElem?_map, Option.map_eq_some_iff] at hcf
  obtain ⟨e, he, rfl⟩ := hcf
  exact ⟨e, he, List.mem_of_getElem? he, hcompressed⟩

/-- The entries of the archive that is laid out have the metadata and the content of the files. -/
theorem Laid.reopened {cfs : List CompressedFile} {out : Vec} {s : WriteState} {es : List WrittenEntry}
    (h : Laid X cfs [] out s es) {files : List ArchiveFile} (hcomp : List.Forall₂ (Compressed X) files cfs)
    (hX : InvertsDeflate X) (hfiles : ∀ f ∈ files, Portable f) {kind : SourceKind} {z : Bool}
    (hread : readCentralDir { kind, bytes := out.val } =
      .ok { entries := es.map fun e => e.file.dirent e.offset, comment := [], isZip64 := z,
            cdirSize := s.cdirSize, cdirOffset := s.cdirOffset }) :
    ∃ a, Archive.open { kind, bytes := out.val } = .ok a ∧ a.entries.length = files.length ∧
      ∀ i f, files[i]? = some f →
        (∃ d, a.entries[i]? = some d ∧ Describes d f) ∧ ReadsAs X a i f.data.val := by
  have hopen : Archive.open { kind, bytes := out.val } = _ := congrArg (· >>= _) hread
  refine ⟨_, hopen, ?_, fun i f hf => ?_⟩
  · have hlen : es.length = cfs.length := by rw [← h.files, List.length_map]
    show (es.map _).length = _
    rw [List.length_map, hlen, hcomp.length_eq]
  · obtain ⟨e, he, hmem, hcf⟩ := h.entry hcomp hf
    have hentry : (es.map fun e => e.file.dirent e.offset)[i]? = some (e.file.dirent e.offset) := by
      rw [List.getElem?_map, he]; rfl
    exact ⟨⟨_, hentry, describes_dirent hcf (hfiles f (List.mem_of_getElem? hf)) _⟩,
      readsAs_of_stores hopen hentry out.property (stores_dirent hX hcf (h.written_out e hmem))⟩

/-- Writing files and reading the archive back: an entry for each file, in order, with its metadata
and its content. -/
theorem writeArchive_roundtrip {X : Extern} (hX : InvertsDeflate X) {files : List ArchiveFile}
    {opts : CompressOptions} {out : Vec} (h : writeArchive X files opts = .ok out)
    (hfiles : ∀ f ∈ files, Portable f) (hlen : out.val.length < 2 ^ 30)
    (hloc : writesLocator X files opts = false → locatorOf out.val = none) (kind : SourceKind) :
    ∃ a, Archive.open { kind, bytes := out.val } = .ok a ∧ a.entries.length = files.length ∧
      ∀ i f, files[i]? = some f →
        (∃ d, a.entries[i]? = some d ∧ Describes d f) ∧ ReadsAs X a i f.data.val := by
  obtain ⟨cfs, s, es, hlaid, hcomp, -, hread⟩ := writeArchive_read h hfiles hlen hloc
  obtain ⟨z, hread⟩ := hread kind
  exact hlaid.reopened hcomp hX hfiles hread

theorem portable_sampleFiles : ∀ f ∈ sampleFiles, Portable f := by
  intro f hf
  rcases List.mem_pair.mp hf with rfl | rfl <;> exact ⟨by decide, by decide, [], rfl⟩

theorem writeArchive_roundtrip_sample : ∃ out,
    writeArchive reference sampleFiles .default = .ok out ∧
    ∃ a, Archive.open { kind := .mmap, bytes := out.val } = .ok a ∧
      a.entries.length = sampleFiles.length ∧ ∀ i f, sampleFiles[i]? = some f →
        (∃ d, a.entries[i]? = some d ∧ Describes d f) ∧ ReadsAs reference a i f.data.val := by
  obtain ⟨out, hout, hp⟩ := exists_ok (x := writeArchive reference sampleFiles .default)
    (p := fun out => decide (out.val.length < 2 ^ 30) && (locatorOf out.val).isNone)
    (by decide +kernel)
  rw [Bool.and_eq_true, decide_eq_true_eq, Option.isNone_iff_eq_none] at hp
  exact ⟨out, hout, writeArchive_roundtrip (fun _ _ _ => reference_inflate_deflate) hout
    portable_sampleFiles hp.1 (fun _ => hp.2) .mmap⟩

/-! ## Any files -/

/-- Nothing is encrypted when every method is that of no encryption. -/
theorem encryptFiles_none {password : Bytes} {methods : List UInt16}
    (h : ∀ m ∈ methods, m = encryption.none) {cfs : List CompressedFile}
    (hlen : methods = [] ∨ methods.length = cfs.length) :
    encryptFiles X password methods cfs = .ok cfs := by
  rw [encryptFiles]
  split
  · rfl
  · rename_i hne
    have hlen := hlen.resolve_left hne
    have hsame : ∀ c ∈ (cfs.zip methods).zipIdx,
        encryptFile X password c.2 c.1.1 c.1.2 = .ok c.1.1 := by
      intro c hc
      have hm := (List.of_mem_zip (List.fst_mem_of_mem_zipIdx hc)).2
      rw [encryptFile, if_pos (h _ hm)]
    rw [if_neg (not_not.mpr hlen), mapM_of_ok hsame, map_zip_zipIdx hlen]

theorem encryptFiles_length {password : Bytes} {methods : List UInt16} {cfs cfs' : List CompressedFile}
    (h : encryptFiles X password methods cfs = .ok cfs') :
    methods = [] ∨ methods.length = cfs.length := by
  rw [encryptFiles] at h
  split at h
  · exact .inl ‹_›
  · exact .inr (not_not.mp (guard_ok.mp h).1)

/-- What is not to be encrypted is left as it is. -/
theorem encryptFiles_plain {password : Bytes} {methods : List UInt16}
    (h : ∀ m ∈ methods, m = encryption.none) {cfs cfs' : List CompressedFile}
    (he : encryptFiles X password methods cfs = .ok cfs') : cfs' = cfs := by
  cases (encryptFiles_none h (encryptFiles_length he)).symm.trans he
  rfl

/-- The archive written for plain files is read back exactly when every name fits its length field and
passes the guard, the archive comment fits its own, the directory is not too large, and no size or
offset equals a sentinel next to one that overflows: provided that the end record written is the one a
reader uses. -/
theorem writeArchiveFull_readsBack_iff {X : Extern} {files : List ArchiveFile} {opts : CompressOptions}
    {password comment : Bytes} {methods : List UInt16} {out : Vec} {kind : SourceKind}
    {cfs : List CompressedFile} {s : WriteState}
    (h : writeArchiveFull X files opts password methods comment = .ok out)
    (hmethods : ∀ m ∈ methods, m = encryption.none) (hc : compressFiles X files opts = .ok cfs)
    (hs : writeEntries cfs = .ok s)
    (hsafe : comment.length ≤ 0xFFFF → s.TailSafe cfs kind comment) :
    ReadsBack kind files comment out ↔
      (∀ f ∈ files, (asBytes f.name).length ≤ 0xFFFF ∧ pathTraversal f.name = false) ∧
        comment.length ≤ 0xFFFF ∧ directoryLength cfs ≤ 2 ^ 30 ∧
        ∀ p ∈ layout 0 cfs, (p.1.zip64Values p.2).Unambiguous := by
  obtain ⟨cfs', hc', h⟩ := bind_ok.mp h
  cases hc.symm.trans hc'
  obtain ⟨cfs', hnone, hwrite⟩ := bind_ok.mp h
  obtain rfl := encryptFiles_plain hmethods hnone
  have hcomp := compressFiles_ok hc
  constructor
  · intro hback
    obtain ⟨es, hlaid⟩ := writeCompressed_laid hcomp (fun f hf => (hback.files f hf).name) hs hwrite
    obtain ⟨a, hopen, -⟩ := hback.opens
    obtain ⟨cd, hread, -⟩ := bind_ok.mp hopen
    obtain ⟨hdir, hacc⟩ := hlaid.read_iff (hsafe hback.comment) |>.2 cd hread
    refine ⟨fun f hf => ⟨(hback.files f hf).name, ?_⟩, hback.comment, ?_, fun p hp => ?_⟩
    · obtain ⟨i, hi⟩ := List.mem_iff_getElem?.mp hf
      obtain ⟨e, -, he, hcf⟩ := hlaid.entry hcomp hi
      rw [← hcf.name]
      exact (hacc e he).name
    · rwa [← length_directory hlaid.written hlaid.layout, ← hlaid.cdir]
    · rw [← hlaid.layout] at hp
      obtain ⟨e, he, rfl⟩ := List.mem_map.mp hp
      exact (hacc e he).zip64
  · rintro ⟨hnames, hcomment, hdir, hzip64⟩
    obtain ⟨es, hlaid⟩ := writeCompressed_laid hcomp (fun f hf => (hnames f hf).1) hs hwrite
    have hof (e : WrittenEntry) (he : e ∈ es) : ∃ f ∈ files, Compressed X f e.file :=
      exists_compressed hcomp (hlaid.files ▸ List.mem_map.mpr ⟨e, he, rfl⟩)
    have hacc : ∀ e ∈ es, e.file.Accepted e.offset := by
      intro e he
      obtain ⟨f, hf, hcf⟩ := hof e he
      refine ⟨hcf.name ▸ (hnames f hf).2, ?_⟩
      exact hzip64 (e.file, e.offset) (hlaid.layout ▸ List.mem_map.mpr ⟨e, he, rfl⟩)
    rw [← length_directory hlaid.written hlaid.layout, ← hlaid.cdir] at hdir
    obtain ⟨z, hread⟩ := hlaid.read_iff (hsafe hcomment) |>.1 hdir hacc
    refine ⟨⟨_, congrArg (· >>= _) hread, ?_⟩, fun f hf => ?_, hcomment⟩
    · show (es.map _).length = _
      rw [List.length_map, hcomp.length_eq, ← hlaid.files, List.length_map]
    · obtain ⟨i, hi⟩ := List.mem_iff_getElem?.mp hf
      obtain ⟨e, -, he, hcf⟩ := hlaid.entry hcomp hi
      have hw := hlaid.written e he
      exact ⟨(hnames f hf).1, hcf.comment ▸ hw.comment_fits, hcf.extraFields ▸ hw.extra_fits⟩

/-- The archive of the sample files, without a comment. -/
theorem writeArchiveFull_readsBack_sample : ∃ out cfs s,
    writeArchiveFull reference sampleFiles .default [] [0, 0] [] = .ok out ∧
    compressFiles reference sampleFiles .default = .ok cfs ∧ writeEntries cfs = .ok s ∧
    (ReadsBack .vec sampleFiles [] out ↔
      (∀ f ∈ sampleFiles, (asBytes f.name).length ≤ 0xFFFF ∧ pathTraversal f.name = false) ∧
      ([] : Bytes).length ≤ 0xFFFF ∧ directoryLength cfs ≤ 2 ^ 30 ∧
      ∀ p ∈ layout 0 cfs, (p.1.zip64Values p.2).Unambiguous) := by
  obtain ⟨out, hout, -⟩ := exists_ok
    (x := writeArchiveFull reference sampleFiles .default [] [0, 0] []) (p := fun _ => true)
    (by decide +kernel)
  obtain ⟨cfs, hc, hp⟩ := exists_ok (x := compressFiles reference sampleFiles .default)
    (p := fun cfs => (writeEntries cfs).toOption.any fun s =>
      (locatorBefore (s.out ++ s.cdir) (s.out ++ s.cdir).length).isNone) (by decide +kernel)
  obtain ⟨s, hs, hloc⟩ := exists_ok hp
  refine ⟨out, cfs, s, hout, hc, hs, writeArchiveFull_readsBack_iff hout ?_ hc hs fun _ => ?_⟩
  · intro m hm
    rcases List.mem_pair.mp hm with rfl | rfl <;> rfl
  · exact .of_no_comment fun _ => Option.isNone_iff_eq_none.mp hloc

/-- A file named `../x` is written, but the archive is refused. -/
theorem writeArchiveFull_unreadable : ∃ out,
    writeArchiveFull reference [.new ['.', '.', '/', 'x'] ⟨[0x68, 0x69], by decide⟩] .default [] [] [] =
      .ok out ∧
    ¬ ReadsBack .vec [.new ['.', '.', '/', 'x'] ⟨[0x68, 0x69], by decide⟩] [] out := by
  obtain ⟨out, hout, hp⟩ := exists_ok (x := writeArchiveFull reference
      [.new ['.', '.', '/', 'x'] ⟨[0x68, 0x69], by decide⟩] .default [] [] [])
    (p := fun out => (Archive.open { kind := .vec, bytes := out.val }).toOption.isNone)
    (by decide +kernel)
  refine ⟨out, hout, fun hback => ?_⟩
  obtain ⟨a, hopen, -⟩ := hback.opens
  rw [hopen] at hp
  cases hp

end Kzip.Impl
