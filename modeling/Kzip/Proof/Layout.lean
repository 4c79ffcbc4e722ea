import Kzip.Proof.Placed
import Kzip.Proof.Writer

/-!
# The archive the writer lays out

`writeEntries_emitted` says what the loop of the writer leaves: for each entry a local header with its
data, and a central record that points there (`Emitted`, and `Written` for a plain entry).
`readCentralDir_entries` says what the reader makes of the whole archive.
-/

namespace Kzip.Impl

open Lib Lib.LE Lib.Utf8 Kzip.Spec

/-! ## One entry -/

theorem isLocalHeader_header {f : LocalFixed} {filename extra : Bytes}
    (hname : filename.length = f.filenameLen.toNat) (hextra : extra.length = f.extraLen.toNat) :
    IsLocalHeader (f.header filename extra) := by
  obtain ⟨head, hhead, hparts⟩ : ∃ head : Bytes, head.length = 26 ∧ f.header filename extra =
      head ++ (le16 f.filenameLen ++ (le16 f.extraLen ++ (filename ++ extra))) := by
    refine ⟨[magic.localHeader, le16 f.versionNeeded, le16 f.bitflags, le16 f.compMethodRaw,
      le16 f.lastModTime, le16 f.lastModDate, le32 f.crc, le32 f.compSize32,
      le32 f.uncompSize32].flatten, rfl, ?_⟩
    simp only [LocalFixed.header, LocalFixed.bytes, List.flatten_cons, List.flatten_nil,
      List.append_nil, List.append_assoc]
  have h26 : le16At (f.header filename extra) 26 = f.filenameLen := by
    rw [hparts, ← hhead]
    exact le16At_append head f.filenameLen _
  have h28 : le16At (f.header filename extra) 28 = f.extraLen := by
    have hnext : (head ++ le16 f.filenameLen).length = 28 := by
      rw [List.length_append, hhead, length_le16]
    rw [hparts, ← List.append_assoc, ← hnext]
    exact le16At_append (head ++ le16 f.filenameLen) f.extraLen _
  refine ⟨rfl, ?_⟩
  rw [h26, h28, f.length_header, hname, hextra, show size.localHeader = 30 from rfl]

theorem writeLocalHeader_ok {cf : CompressedFile} {out r : Bytes}
    (hname : (asBytes cf.name).length ≤ 0xFFFF)
    (h : writeLocalHeader cf out (needsZip64Sizes cf) = .ok r) :
    ∃ header, r = out ++ header ∧ IsLocalHeader header ∧
      header.length + cf.data.val.length = localLength cf + aesLength cf := by
  obtain ⟨extraLen, -, hextraLen, rfl⟩ := writeLocalHeader_eq h
  have hnameLen : (cf.localFixed extraLen).filenameLen.toNat = (asBytes cf.name).length := toNat_ofNat_u16 hname
  have hlen : (rawFields cf.localFields).length =
      fieldsLength (userFields cf.extraFields) + aesLength cf + zip64Length cf false 0 := by
    rw [CompressedFile.localFields, rawFields_append, rawFields_append, List.length_append,
      List.length_append, length_rawFields, length_rawFields, length_zip64Field, fieldsLength_aesFields]
  refine ⟨_, rfl, isLocalHeader_header hnameLen.symm hextraLen.symm, ?_⟩
  rw [LocalFixed.length_header, hlen, localLength, show size.localHeader = 30 from rfl]
  omega

/-- An entry of the archive: the file, the offset of its local header, its central record and what
parsing the record gives. -/
structure WrittenEntry where
  file : CompressedFile
  offset : UInt64
  record : Bytes
  outcome : Result Dirent

/-- The entry is in `out`, and its record describes it, if the reader accepts it. -/
structure Written (out : Bytes) (e : WrittenEntry) : Prop where
  placed : Placed out e.offset e.file.data.val
  length : e.record.length = centralLength e.file e.offset
  comment_fits : (e.file.comment.getD []).length ≤ 0xFFFF
  extra_fits : fieldsLength (userFields e.file.extraFields) ≤ 0xFFFF
  isRecord : IsRecord e.record e.outcome
  accepted : e.file.Accepted e.offset → e.outcome = .ok (e.file.dirent e.offset)
  refused : ∀ d, e.outcome = .ok d → e.file.Accepted e.offset

theorem Written.append {out : Bytes} {e : WrittenEntry} (h : Written out e) (more : Bytes) :
    Written (out ++ more) e :=
  ⟨h.placed.append more, h.length, h.comment_fits, h.extra_fits, h.isRecord, h.accepted, h.refused⟩

/-- The record of an entry is parsed as `d`, exactly when the reader accepts it. -/
structure Describing (e : WrittenEntry) (d : Dirent) : Prop where
  isRecord : IsRecord e.record e.outcome
  accepted : e.file.Accepted e.offset → e.outcome = .ok d
  refused : ∀ d, e.outcome = .ok d → e.file.Accepted e.offset

theorem Written.describing {out : Bytes} {e : WrittenEntry} (h : Written out e) :
    Describing e (e.file.dirent e.offset) := ⟨h.isRecord, h.accepted, h.refused⟩

/-- An entry that may be encrypted is in `out`, and its record describes it. -/
structure Emitted (out : Bytes) (e : WrittenEntry) : Prop where
  placed : Placed out e.offset e.file.data.val
  length : e.record.length = recordLength e.file e.offset
  comment_fits : (e.file.comment.getD []).length ≤ 0xFFFF
  extra_fits : fieldsLength (userFields e.file.extraFields) ≤ 0xFFFF
  describing : Describing e (e.file.entry e.offset)

theorem Emitted.append {out : Bytes} {e : WrittenEntry} (h : Emitted out e) (more : Bytes) :
    Emitted (out ++ more) e :=
  ⟨h.placed.append more, h.length, h.comment_fits, h.extra_fits, h.describing⟩

theorem Emitted.written {out : Bytes} {e : WrittenEntry} (h : Emitted out e) (hp : e.file.Plain) :
    Written out e := by
  obtain ⟨hrec, hacc, href⟩ := h.describing
  refine ⟨h.placed, ?_, h.comment_fits, h.extra_fits, hrec, ?_, href⟩
  · rw [h.length, recordLength, aesLength, hp.not_aes]
    rfl
  · rw [← hp.entry]
    exact hacc

theorem length_writeDataDescriptor (cf : CompressedFile) (out : Bytes) :
    ∃ more, (if cf.isAes then writeDataDescriptor cf (needsZip64Sizes cf) out else out) = out ++ more ∧
      more.length = descriptorLength cf := by
  rw [descriptorLength]
  cases cf.isAes with
  | false => exact ⟨[], (List.append_nil _).symm, rfl⟩
  | true =>
    refine ⟨_, rfl, ?_⟩
    cases needsZip64Sizes cf <;> rfl

/-- One step of the loop appends an entry. -/
theorem writeEntry_ok {s t : WriteState} {cf : CompressedFile} (hk : cf.Known)
    (hname : (asBytes cf.name).length ≤ 0xFFFF) (h : writeEntry s cf = .ok t) :
    ∃ e, e.file = cf ∧ e.offset = UInt64.ofNat s.out.length ∧ s.out <+: t.out ∧ Emitted t.out e ∧
      t.out.length = s.out.length + entryLength cf ∧ t.cdir = s.cdir ++ e.record ∧
      t.localOffsets = s.localOffsets ++ [e.offset] := by
  simp only [writeEntry] at h
  obtain ⟨out, hout, h⟩ := bind_ok.mp h
  obtain ⟨cdir, hcdir, h⟩ := bind_ok.mp h
  obtain ⟨header, rfl, hheader, hlen⟩ := writeLocalHeader_ok hname hout
  obtain ⟨more, hmore, hmorelen⟩ := length_writeDataDescriptor cf (s.out ++ header ++ cf.data.val)
  rw [hmore] at h
  cases h
  obtain ⟨record, o, rfl, hlength, hcomment, hextra, hrec, hacc, href⟩ := isRecord_centralEntry hk hname hcdir
  refine ⟨⟨cf, UInt64.ofNat s.out.length, record, o⟩, rfl, rfl, ?_,
    ⟨?_, hlength, hcomment, hextra, ⟨hrec, hacc, href⟩⟩, ?_, rfl, rfl⟩
  · rw [List.append_assoc, List.append_assoc]
    exact List.prefix_append _ _
  · exact ⟨s.out, header, more, by simp only [List.append_assoc], hheader, rfl⟩
  · show (s.out ++ header ++ cf.data.val ++ more).length = _
    rw [entryLength, ← hlen, ← hmorelen]
    simp only [List.length_append]
    omega

/-- The loop of the writer, by induction on the files: the entries written so far stay where they
are. -/
theorem foldlM_writeEntry_ok {cfs : List CompressedFile} (hk : ∀ cf ∈ cfs, cf.Known)
    (hname : ∀ cf ∈ cfs, (asBytes cf.name).length ≤ 0xFFFF) {s t : WriteState}
    (h : cfs.foldlM writeEntry s = .ok t) :
    ∃ es : List WrittenEntry, es.map (·.file) = cfs ∧ s.out <+: t.out ∧
      (∀ e ∈ es, Emitted t.out e) ∧
      es.map (fun e => (e.file, e.offset)) = positions s.out.length cfs ∧
      t.cdir = s.cdir ++ es.flatMap (·.record) ∧
      t.localOffsets = s.localOffsets ++ es.map (·.offset) := by
  induction cfs generalizing s with
  | nil =>
    cases h
    exact ⟨[], rfl, List.prefix_rfl, fun e he => absurd he List.not_mem_nil, rfl,
      (List.append_nil _).symm, (List.append_nil _).symm⟩
  | cons cf cfs ih =>
    rw [List.foldlM_cons] at h
    obtain ⟨u, hu, hrest⟩ := bind_ok.mp h
    obtain ⟨hk₀, hks⟩ := List.forall_mem_cons.mp hk
    obtain ⟨hname₀, hnames⟩ := List.forall_mem_cons.mp hname
    obtain ⟨e, rfl, hoffset, hout, hw, hlen, hcdir, hoff⟩ := writeEntry_ok hk₀ hname₀ hu
    obtain ⟨es, rfl, hout', hws, hpositions, hcdir', hoff'⟩ := ih hks hnames hrest
    refine ⟨e :: es, rfl, hout.trans hout', List.forall_mem_cons.mpr ⟨?_, hws⟩, ?_, ?_, ?_⟩
    · obtain ⟨more, hmore⟩ := hout'
      rw [← hmore]
      exact hw.append more
    · rw [List.map_cons, hpositions, hlen, positions, hoffset]
    · rw [hcdir', hcdir, List.flatMap_cons, List.append_assoc]
    · rw [hoff', hoff, List.map_cons, List.append_assoc]
      rfl

/-- The entries that the writer put, in the order of the files. -/
theorem writeEntries_emitted {cfs : List CompressedFile} (hk : ∀ cf ∈ cfs, cf.Known)
    (hname : ∀ cf ∈ cfs, (asBytes cf.name).length ≤ 0xFFFF) {s : WriteState}
    (h : writeEntries cfs = .ok s) :
    ∃ es : List WrittenEntry, es.map (·.file) = cfs ∧ (∀ e ∈ es, Emitted s.out e) ∧
      es.map (fun e => (e.file, e.offset)) = positions 0 cfs ∧ s.cdir = es.flatMap (·.record) := by
  obtain ⟨es, hes, -, hw, hpositions, hcdir, -⟩ := foldlM_writeEntry_ok hk hname h
  exact ⟨es, hes, hw, hpositions, hcdir⟩

theorem CompressedFile.Plain.entryLength {cf : CompressedFile} (h : cf.Plain) :
    Spec.entryLength cf = localLength cf := by
  rw [Spec.entryLength, aesLength, descriptorLength, h.not_aes]
  rfl

theorem positions_plain {cfs : List CompressedFile} (hp : ∀ cf ∈ cfs, cf.Plain) (pos : Nat) :
    positions pos cfs = layout pos cfs := by
  induction cfs generalizing pos with
  | nil => rfl
  | cons cf cfs ih =>
    obtain ⟨hp₀, hps⟩ := List.forall_mem_cons.mp hp
    rw [positions, layout, hp₀.entryLength, ih hps]

theorem length_directory {es : List WrittenEntry} {cfs : List CompressedFile} {out : Bytes}
    (hw : ∀ e ∈ es, Written out e) (hlayout : es.map (fun e => (e.file, e.offset)) = layout 0 cfs) :
    (es.flatMap (·.record)).length = directoryLength cfs := by
  rw [directoryLength, ← hlayout, List.map_map, List.length_flatMap]
  exact congrArg List.sum (List.map_congr_left fun e he => (hw e he).length)

theorem length_records {es : List WrittenEntry} {cfs : List CompressedFile} {out : Bytes}
    (hw : ∀ e ∈ es, Emitted out e)
    (hpositions : es.map (fun e => (e.file, e.offset)) = positions 0 cfs) :
    (es.flatMap (·.record)).length = recordsLength cfs := by
  rw [recordsLength, ← hpositions, List.map_map, List.length_flatMap]
  exact congrArg List.sum (List.map_congr_left fun e he => (hw e he).length)

/-! ## The whole archive -/

theorem WriteState.not_needZip64 {s : WriteState} {cfs : List CompressedFile}
    (h : s.needZip64 cfs = false) :
    cfs.length ≤ 0xFFFF ∧ s.cdirSize ≤ u32Max ∧ s.cdirOffset ≤ u32Max := by
  simp only [needZip64, Bool.or_eq_false_iff, decide_eq_false_iff_not, gt_iff_lt, Nat.not_lt,
    UInt64.not_lt] at h
  exact ⟨h.1.1.1, h.1.1.2, h.1.2⟩

/-- What the writer puts together: the entries, their directory, the end records. -/
theorem writeCompressed_ok {X : Extern} {cfs : List CompressedFile} {comment : Bytes} {out : Vec}
    (h : writeCompressed X cfs comment = .ok out) :
    ∃ s e, writeEntries cfs = .ok s ∧ out.val = s.out ++ (s.cdir ++ e) ∧
      writeEndRecords X (s.needZip64 cfs) cfs.length s.cdirSize s.cdirOffset comment
        (s.out ++ s.cdir) = .ok out.val := by
  obtain ⟨s, hs, h⟩ := bind_ok.mp h
  obtain ⟨bs, hbs, h⟩ := bind_ok.mp h
  obtain rfl := Vec.ofBytes_ok.mp h
  obtain ⟨e, he, -⟩ := writeEndRecords_ok hbs
  exact ⟨s, e, hs, by rw [he, List.append_assoc], hbs⟩

/-- The end record the writer puts is the one a reader uses. -/
def WriteState.TailSafe (s : WriteState) (cfs : List CompressedFile) (kind : SourceKind)
    (comment : Bytes) : Prop :=
  Impl.TailSafe kind (s.needZip64 cfs) cfs.length s.cdirSize s.cdirOffset comment (s.out ++ s.cdir)

/-- What the reader makes of the archive: all the entries, exactly when the directory is not too large
and the reader accepts every one of them. -/
theorem readCentralDir_entries {X : Extern} {kind : SourceKind} {comment : Bytes} {out : Vec}
    {s : WriteState} {es : List WrittenEntry} {entry : WrittenEntry → Dirent}
    (hend : writeEndRecords X (s.needZip64 (es.map (·.file))) (es.map (·.file)).length s.cdirSize
      s.cdirOffset comment (s.out ++ s.cdir) = .ok out.val)
    (hcdir : s.cdir = es.flatMap (·.record)) (hw : ∀ e ∈ es, Describing e (entry e))
    (hsafe : s.TailSafe (es.map (·.file)) kind comment) :
    (s.cdir.length ≤ 2 ^ 30 → (∀ e ∈ es, e.file.Accepted e.offset) →
      ∃ z, readCentralDir { kind, bytes := out.val } =
        .ok { entries := es.map entry, comment := fromUtf8Lossy comment,
              isZip64 := z, cdirSize := s.cdirSize, cdirOffset := s.cdirOffset }) ∧
    ∀ cd, readCentralDir { kind, bytes := out.val } = .ok cd →
      s.cdir.length ≤ 2 ^ 30 ∧ ∀ e ∈ es, e.file.Accepted e.offset := by
  have hflat : (es.map fun e => (e.record, e.outcome)).flatMap (·.1) = s.cdir := by
    rw [List.flatMap_map, hcdir]
  have hmap : (es.map fun e => (e.record, e.outcome)).map (·.2) = es.map (·.outcome) := by
    rw [List.map_map]; rfl
  have hrecs : ∀ p ∈ es.map fun e => (e.record, e.outcome), IsRecord p.1 p.2 := by
    intro p hp
    obtain ⟨e, he, rfl⟩ := List.mem_map.mp hp
    exact (hw e he).isRecord
  have hnum : (es.map fun e => (e.record, e.outcome)).length = (es.map (·.file)).length := by
    rw [List.length_map, List.length_map]
  obtain ⟨z, hread⟩ := readCentralDir_records (X := X) { kind, bytes := out.val }
    (z := s.needZip64 (es.map (·.file))) _ hflat hrecs out.property
    (by rw [hnum]; exact hend) (by rw [hnum]; exact s.not_needZip64) (by rw [hnum]; exact hsafe)
  rw [hmap, List.length_map] at hread
  rw [hread]
  refine ⟨fun hmax hacc => ⟨z, ?_⟩, fun cd h => ?_⟩
  · have hok : es.map (·.outcome) = (es.map entry).map .ok := by
      rw [List.map_map]
      exact List.map_congr_left fun e he => (hw e he).accepted (hacc e he)
    rw [hok, okPrefix_map_ok, if_pos hmax, if_pos (List.length_map _)]
    rfl
  · split at h
    · rename_i hmax
      split at h
      · rename_i hl
        refine ⟨hmax, fun e he => ?_⟩
        have hfull := okPrefix_full (es.map (·.outcome)) (by rw [hl, List.length_map])
        have hmem : e.outcome ∈ (okPrefix (es.map (·.outcome))).map (.ok : Dirent → Result Dirent) :=
          hfull ▸ List.mem_map.mpr ⟨e, he, rfl⟩
        obtain ⟨d, -, hd⟩ := List.mem_map.mp hmem
        exact (hw e he).refused d hd.symm
      · cases h
    · cases h

/-- What is written for files: their entries, the directory of these, the end records. -/
structure LaidOut (X : Extern) (cfs : List CompressedFile) (comment : Bytes) (out : Vec)
    (s : WriteState) (es : List WrittenEntry) : Prop where
  files : es.map (·.file) = cfs
  emitted : ∀ e ∈ es, Emitted s.out e
  positions : es.map (fun e => (e.file, e.offset)) = Spec.positions 0 cfs
  cdir : s.cdir = es.flatMap (·.record)
  isPrefix : s.out ++ s.cdir <+: out.val
  endRecords : writeEndRecords X (s.needZip64 cfs) cfs.length s.cdirSize s.cdirOffset comment
    (s.out ++ s.cdir) = .ok out.val

section
variable {X : Extern} {cfs : List CompressedFile} {comment : Bytes} {out : Vec} {s : WriteState}
  {es : List WrittenEntry}

theorem writeCompressed_laidOut (hk : ∀ cf ∈ cfs, cf.Known)
    (hname : ∀ cf ∈ cfs, (asBytes cf.name).length ≤ 0xFFFF) (hs : writeEntries cfs = .ok s)
    (h : writeCompressed X cfs comment = .ok out) : ∃ es, LaidOut X cfs comment out s es := by
  obtain ⟨s', e, hs', hout, hend⟩ := writeCompressed_ok h
  cases hs.symm.trans hs'
  obtain ⟨es, hfiles, hw, hpositions, hcdir⟩ := writeEntries_emitted hk hname hs
  refine ⟨es, hfiles, hw, hpositions, hcdir, ?_, hend⟩
  rw [hout, ← List.append_assoc]
  exact List.prefix_append _ _

theorem LaidOut.emitted_out (h : LaidOut X cfs comment out s es) (e : WrittenEntry) (he : e ∈ es) :
    Emitted out.val e := by
  obtain ⟨more, hmore⟩ := (List.prefix_append _ _).trans h.isPrefix
  rw [← hmore]
  exact (h.emitted e he).append more

/-- What the reader makes of the archive, when its end record is used. -/
theorem LaidOut.read_iff {kind : SourceKind} (h : LaidOut X cfs comment out s es)
    (hsafe : s.TailSafe cfs kind comment) :
    (s.cdir.length ≤ 2 ^ 30 → (∀ e ∈ es, e.file.Accepted e.offset) →
      ∃ z, readCentralDir { kind, bytes := out.val } =
        .ok { entries := es.map fun e => e.file.entry e.offset, comment := fromUtf8Lossy comment,
              isZip64 := z, cdirSize := s.cdirSize, cdirOffset := s.cdirOffset }) ∧
    ∀ cd, readCentralDir { kind, bytes := out.val } = .ok cd →
      s.cdir.length ≤ 2 ^ 30 ∧ ∀ e ∈ es, e.file.Accepted e.offset := by
  obtain rfl := h.files
  exact readCentralDir_entries h.endRecords h.cdir (fun e he => (h.emitted e he).describing) hsafe

end

end Kzip.Impl
