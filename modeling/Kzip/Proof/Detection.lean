import Kzip.Proof.Encrypted
import Kzip.Spec.Detection

/-!
# ZIP64 detection

Without a ZIP64 locator, the bytes before the end record are those of the last central record
(`locatorBefore_directory`). So the reader takes an archive without ZIP64 records for what it is exactly
when that record does not end like a locator (`readsPlain_iff`).
-/

namespace Kzip.Impl

open Lib Lib.Utf8 Kzip.Spec

variable {X : Extern}

/-! ## The last record -/

/-- What the writer appends to a directory for an entry does not depend on the directory. -/
theorem writeCentralEntry_append {cf : CompressedFile} {offset : UInt64} {cdir r : Bytes}
    (h : writeCentralEntry cf offset cdir = .ok r) :
    ∃ record, writeCentralEntry cf offset [] = .ok record ∧ r = cdir ++ record ∧
      size.central ≤ record.length := by
  simp only [writeCentralEntry] at h
  obtain ⟨extra, hextra, h⟩ := bind_ok.mp h
  obtain ⟨l₂, hl₂, h⟩ := bind_ok.mp h
  obtain ⟨l₃, hl₃, h⟩ := bind_ok.mp h
  cases h
  refine ⟨_, bind_ok.mpr ⟨extra, hextra, bind_ok.mpr ⟨l₂, hl₂, bind_ok.mpr ⟨l₃, hl₃, rfl⟩⟩⟩, ?_, ?_⟩
  · rw [List.nil_append]
  · rw [List.nil_append, CentralFixed.length_record, show size.central = 46 from rfl]
    omega

/-- The entries written so far end where those of the next ones begin. -/
theorem length_foldlM_writeEntry {cfs : List CompressedFile} (hk : ∀ cf ∈ cfs, cf.Known)
    (hname : ∀ cf ∈ cfs, (asBytes cf.name).length ≤ 0xFFFF) {s t : WriteState}
    (h : cfs.foldlM writeEntry s = .ok t) :
    t.out.length = s.out.length + (cfs.map entryLength).sum := by
  induction cfs generalizing s with
  | nil =>
    cases h
    rfl
  | cons cf cfs ih =>
    rw [List.foldlM_cons] at h
    obtain ⟨u, hu, hrest⟩ := bind_ok.mp h
    obtain ⟨hk₀, hks⟩ := List.forall_mem_cons.mp hk
    obtain ⟨hname₀, hnames⟩ := List.forall_mem_cons.mp hname
    obtain ⟨e, -, -, -, -, hlen, -, -⟩ := writeEntry_ok hk₀ hname₀ hu
    rw [ih hks hnames hrest, hlen, List.map_cons, List.sum_cons, Nat.add_assoc]

/-- The directory ends with the last record. -/
theorem writeEntries_last {cfs : List CompressedFile} (hk : ∀ cf ∈ cfs, cf.Known)
    (hname : ∀ cf ∈ cfs, (asBytes cf.name).length ≤ 0xFFFF) {s : WriteState}
    (h : writeEntries cfs = .ok s) :
    (cfs = [] ∧ s.out = [] ∧ s.cdir = []) ∨
      ∃ record pre, lastRecord cfs = some record ∧ s.cdir = pre ++ record ∧
        size.central ≤ record.length := by
  rcases List.eq_nil_or_concat cfs with rfl | ⟨cfs, cf, rfl⟩
  · cases h
    exact .inl ⟨rfl, rfl, rfl⟩
  · right
    rw [List.concat_eq_append] at h hk hname ⊢
    rw [writeEntries, List.foldlM_append] at h
    obtain ⟨u, hu, h⟩ := bind_ok.mp h
    rw [List.foldlM_cons] at h
    obtain ⟨t, ht, h⟩ := bind_ok.mp h
    cases h
    have hlen := length_foldlM_writeEntry (fun cf hcf => hk cf (List.mem_append_left _ hcf))
      (fun cf hcf => hname cf (List.mem_append_left _ hcf)) hu
    obtain ⟨out, hout, ht⟩ := bind_ok.mp ht
    obtain ⟨cdir, hcdir, ht⟩ := bind_ok.mp ht
    cases ht
    obtain ⟨record, hrecord, rfl, hsize⟩ := writeCentralEntry_append hcdir
    refine ⟨record, u.cdir, ?_, rfl, hsize⟩
    rw [hlen] at hrecord
    rw [lastRecord, List.getLast?_concat, Option.bind_some, List.dropLast_concat]
    rw [List.length_nil, Nat.zero_add] at hrecord
    rw [hrecord]
    rfl

/-- What looks like a locator at the end of some bytes lies in their last twenty. -/
theorem locatorBefore_suffix {pre record : Bytes} (h : size.eocd64Locator ≤ record.length) :
    locatorBefore (pre ++ record) (pre ++ record).length = locatorBefore record record.length := by
  have hl : size.eocd64Locator = 20 := rfl
  have hdrop : (pre ++ record).drop ((pre ++ record).length - size.eocd64Locator) =
      record.drop (record.length - size.eocd64Locator) := by
    rw [List.length_append, show pre.length + record.length - size.eocd64Locator =
      pre.length + (record.length - size.eocd64Locator) by omega, List.drop_length_add_append]
  have hle : size.eocd64Locator ≤ (pre ++ record).length := by
    rw [List.length_append]
    omega
  simp only [locatorBefore, hdrop, hle, h]

theorem locatorBefore_directory {cfs : List CompressedFile} (hk : ∀ cf ∈ cfs, cf.Known)
    (hname : ∀ cf ∈ cfs, (asBytes cf.name).length ≤ 0xFFFF) {s : WriteState}
    (h : writeEntries cfs = .ok s) :
    (locatorBefore (s.out ++ s.cdir) (s.out ++ s.cdir).length).isSome ↔
      ∃ record, lastRecord cfs = some record ∧ EndsLikeLocator record := by
  rcases writeEntries_last hk hname h with ⟨rfl, hout, hcdir⟩ | ⟨record, pre, hlast, hcdir, hsize⟩
  · rw [hout, hcdir]
    simp [lastRecord, locatorBefore, size.eocd64Locator]
  · have hle : size.eocd64Locator ≤ record.length := by
      rw [show size.central = 46 from rfl] at hsize
      rw [show size.eocd64Locator = 20 from rfl]
      omega
    rw [hcdir, ← List.append_assoc, locatorBefore_suffix hle]
    simp only [hlast, Option.some.injEq, exists_eq_left', EndsLikeLocator]

/-! ## What the reader reports -/

theorem finishCdir_isZip64 {src : Source} {comment : Str} {n : UInt16} {z : Bool}
    {cdirSize cdirOffset : UInt64} {cd : CentralDir}
    (h : finishCdir src comment n z cdirSize cdirOffset = .ok cd) : cd.isZip64 = z := by
  rw [finishCdir_eq] at h
  obtain ⟨entries, -, h⟩ := bind_ok.mp h
  cases h
  rfl

/-- An archive is taken for ZIP64 exactly when there are bytes that look like a locator. -/
theorem cdirOf_isZip64 {src : Source} {comment : Str} {n : UInt16} {cdirSize cdirOffset : UInt64}
    {locator : Option UInt64} {cd : CentralDir}
    (h : cdirOf src comment n cdirSize cdirOffset locator = .ok cd) : cd.isZip64 = locator.isSome := by
  cases locator with
  | none => exact finishCdir_isZip64 h
  | some o =>
    simp only [cdirOf] at h
    split at h
    · split at h
      · obtain ⟨entries, -, h⟩ := bind_ok.mp h
        cases h
        rfl
      · exact finishCdir_isZip64 h
    · exact finishCdir_isZip64 h

/-- The end record of an archive without a comment is the last one. -/
theorem readCentralDir_isZip64 {kind : SourceKind} {n : Nat} {cdirSize cdirOffset : UInt64}
    {body : Bytes} {out : Vec} {cd : CentralDir}
    (hend : writeEndRecords X false n cdirSize cdirOffset [] body = .ok out.val)
    (h : readCentralDir { kind, bytes := out.val } = .ok cd) :
    cd.isZip64 = (locatorBefore body body.length).isSome := by
  have hout : out.val =
      body ++ endRecord (UInt16.ofNat n) cdirSize.toUInt32 cdirOffset.toUInt32 [] :=
    (Except.ok.inj hend).symm
  have hlast : LastSignature out.val body.length := by
    intro q hq hlen
    rw [hout, List.length_append, length_endRecord, List.length_nil, show size.eocd = 22 from rfl] at hlen
    omega
  rw [@readCentralDir_endRecord { kind, bytes := out.val } _ _ _ _ _ hout (Nat.zero_le _) hlast] at h
  exact cdirOf_isZip64 h

/-- An archive without ZIP64 records is read as such exactly when the last central record does not end
like a ZIP64 locator. -/
theorem readsPlain_iff {files : List ArchiveFile} {opts : CompressOptions} {password : Bytes}
    {methods : List UInt16} {out : Vec} {cfs : List CompressedFile} {s : WriteState}
    (h : writeArchiveFull X files opts password methods [] = .ok out)
    (hcfs : sealedFiles X files opts password methods = .ok cfs) (hs : writeEntries cfs = .ok s)
    (hz : s.needZip64 cfs = false) (hlen : out.val.length < 2 ^ 30)
    (hnames : ∀ f ∈ files, (asBytes f.name).length ≤ 0xFFFF ∧ pathTraversal f.name = false)
    (kind : SourceKind) :
    ReadsPlain kind files s out ↔ ∀ record, lastRecord cfs = some record → ¬ EndsLikeLocator record := by
  obtain ⟨cfs₀, hc, he⟩ := bind_ok.mp hcfs
  obtain ⟨cfs₀', hc', h⟩ := bind_ok.mp h
  cases hc.symm.trans hc'
  obtain ⟨cfs', he', hw⟩ := bind_ok.mp h
  cases he.symm.trans he'
  have hstored := stored_files hc he
  obtain ⟨es, hlaid⟩ := writeCompressed_stored hstored (fun f hf => (hnames f hf).1) hs hw
  have hkept (cf : CompressedFile) (hcf : cf ∈ cfs) : ∃ f ∈ files, Kept f cf := exists_stored hstored hcf
  have hlocator := locatorBefore_directory (fun cf hcf => (hkept cf hcf).elim fun _ h => h.2.known)
    (fun cf hcf => by
      obtain ⟨f, hf, hk⟩ := hkept cf hcf
      rw [hk.name]
      exact (hnames f hf).1) hs
  have hend := hlaid.endRecords
  rw [hz] at hend
  have hpos : (locatorBefore (s.out ++ s.cdir) (s.out ++ s.cdir).length).isSome = false ↔
      ∀ record, lastRecord cfs = some record → ¬ EndsLikeLocator record := by
    rw [← Bool.not_eq_true, hlocator]
    simp only [not_exists, not_and]
  rw [← hpos]
  constructor
  · rintro ⟨cd, hread, hplain, -⟩
    rw [← readCentralDir_isZip64 hend hread, hplain]
  · intro hnone
    have hloc : locatorOf out.val = none := by
      have hout : out.val = s.out ++ s.cdir ++ endRecordOf false cfs.length s.cdirSize s.cdirOffset [] :=
        (Except.ok.inj hend).symm
      have hlength : out.val.length - size.eocd = (s.out ++ s.cdir).length := by
        rw [hout, List.length_append, endRecordOf_length]
        exact Nat.add_sub_cancel _ _
      rw [locatorOf, hlength, hout, locatorBefore_append]
      exact Option.isNone_iff_eq_none.mp (Option.isSome_eq_false_iff.mp hnone)
    obtain ⟨z, hread⟩ := hlaid.read hlen (fun cf hcf => by
      obtain ⟨f, hf, hk⟩ := hkept cf hcf
      rw [hk.name]
      exact (hnames f hf).2) (fun cf hcf => (hkept cf hcf).elim fun _ h => h.2.compSize)
      (fun _ => hloc) kind
    refine ⟨_, hread, ?_, rfl, rfl, ?_⟩
    · rw [readCentralDir_isZip64 hend hread, hnone]
    · show (es.map _).length = _
      rw [List.length_map, hstored.length_eq, ← hlaid.files, List.length_map]

/-- The archive of the sample files. -/
theorem readsPlain_sample : ∃ out cfs s,
    writeArchiveFull reference sampleFiles .default [] [] [] = .ok out ∧
    sealedFiles reference sampleFiles .default [] [] = .ok cfs ∧ writeEntries cfs = .ok s ∧
    (ReadsPlain .mmap sampleFiles s out ↔
      ∀ record, lastRecord cfs = some record → ¬ EndsLikeLocator record) := by
  obtain ⟨out, hout, hlen⟩ := exists_ok
    (x := writeArchiveFull reference sampleFiles .default [] [] [])
    (p := fun out => decide (out.val.length < 2 ^ 30)) (by decide +kernel)
  obtain ⟨cfs, hcfs, hp⟩ := exists_ok (x := sealedFiles reference sampleFiles .default [] [])
    (p := fun cfs => (writeEntries cfs).toOption.any fun s => !s.needZip64 cfs) (by decide +kernel)
  obtain ⟨s, hs, hz⟩ := exists_ok hp
  refine ⟨out, cfs, s, hout, hcfs, hs, readsPlain_iff hout hcfs hs (by simpa using hz)
    (of_decide_eq_true hlen) (fun f hf => ?_) .mmap⟩
  have hport := portable_sampleFiles f hf
  exact ⟨hport.name_fits, hport.name_safe⟩

/-- A file whose comment is a ZIP64 locator. -/
def locatorFile : ArchiveFile :=
  { ArchiveFile.new ['a'] ⟨[0x6F, 0x6B], by decide⟩ with
    comment := some ([0x50, 0x4B, 0x06, 0x07] ++ List.replicate 16 0) }

/-- Its archive is taken for a ZIP64 one. -/
theorem locatorFile_not_plain : ∃ out cfs s,
    writeArchiveFull reference [locatorFile] .default [] [] [] = .ok out ∧
    sealedFiles reference [locatorFile] .default [] [] = .ok cfs ∧ writeEntries cfs = .ok s ∧
    s.needZip64 cfs = false ∧ out.val.length < 2 ^ 30 ∧
    (asBytes locatorFile.name).length ≤ 0xFFFF ∧ pathTraversal locatorFile.name = false ∧
    ¬ ReadsPlain .vec [locatorFile] s out := by
  obtain ⟨out, hout, hp⟩ := exists_ok
    (x := writeArchiveFull reference [locatorFile] .default [] [] [])
    (p := fun out => decide (out.val.length < 2 ^ 30) &&
      (readCentralDir { kind := .vec, bytes := out.val }).toOption.all fun cd => cd.isZip64)
    (by decide +kernel)
  rw [Bool.and_eq_true, decide_eq_true_eq] at hp
  obtain ⟨cfs, hcfs, hq⟩ := exists_ok (x := sealedFiles reference [locatorFile] .default [] [])
    (p := fun cfs => (writeEntries cfs).toOption.any fun s => !s.needZip64 cfs) (by decide +kernel)
  obtain ⟨s, hs, hz⟩ := exists_ok hq
  refine ⟨out, cfs, s, hout, hcfs, hs, by simpa using hz, hp.1, by decide, by decide, ?_⟩
  rintro ⟨cd, hread, hplain, -⟩
  rw [hread] at hp
  exact Bool.false_ne_true (hplain.symm.trans hp.2)

end Kzip.Impl
