import Kzip.Proof.Modify
import Kzip.Proof.RoundTrip

/-!
# Modifying an archive of the writer

`modifyArchive_roundtrip`: renaming and deleting entries of an archive that `writeArchive` wrote gives
an archive that opens with the survivors and their contents. Every survivor still describes its file
(`Survives`), and what was written before the directory stays where it is.
-/

namespace Kzip.Impl

open Lib Lib.Utf8 Kzip.Spec

variable {X : Extern}

/-- The entry of a file, perhaps under a new name. -/
structure Survives (X : Extern) (es : List WrittenEntry) (f : ArchiveFile) (d : Dirent) : Prop where
  entry : ∃ e ∈ es, Compressed X f e.file ∧ e.file.Accepted e.offset ∧
    d = { e.file.dirent e.offset with filename := d.filename }
  name : pathTraversal d.filename = false

theorem needsZip64_dirent (cf : CompressedFile) (offset : UInt64) :
    (cf.dirent offset).needsZip64 = true ↔ (cf.zip64Values offset).overflowData ≠ [] := by
  rw [needsZip64_iff, ne_eq, overflowData_eq_nil]
  simp only [CompressedFile.zip64Values, CompressedFile.dirent, ← UInt64.not_lt, ← UInt32.not_lt]
  tauto

/-- The entry of a file is serialized with the extra fields it was written with. -/
theorem writtenFields_dirent (cf : CompressedFile) (offset : UInt64) :
    (cf.dirent offset).writtenFields = cf.centralFields offset := by
  unfold Dirent.writtenFields
  split
  · rename_i h
    have hne := (needsZip64_dirent cf offset).mp h
    have huser : (userFields cf.extraFields).filter (fun f => f.1 != extraFieldZip64) =
        userFields cf.extraFields := by
      refine List.filter_eq_self.mpr fun f hf => ?_
      have hkeep := (List.mem_filter.mp hf).2
      rw [Bool.and_eq_true] at hkeep
      exact hkeep.2
    have hz : [(extraFieldZip64, (cf.zip64Values offset).overflowData)].filter
        (fun f => f.1 != extraFieldZip64) = [] := rfl
    show (cf.centralFields offset).filter (fun f => f.1 != extraFieldZip64) ++
      [(extraFieldZip64, (cf.zip64Values offset).overflowData)] = _
    rw [CompressedFile.centralFields, zip64Field, if_pos hne, List.filter_append, huser, hz,
      List.append_nil]
  · rfl

theorem zip64Stable_dirent {cf : CompressedFile} {offset : UInt64}
    (h : (cf.zip64Values offset).Unambiguous) : (cf.dirent offset).Zip64Stable := by
  intro data hdata
  rw [writtenFields_dirent, zip64Data_centralFields] at hdata
  split at hdata
  · rename_i hne
    cases hdata
    show (cf.zip64Values offset).sentinelData <+: _
    exact sentinelData_eq h hne ▸ List.prefix_rfl
  · cases hdata

theorem Survives.readable {es : List WrittenEntry} {f : ArchiveFile} {d : Dirent}
    (h : Survives X es f d) : d.Readable ∧ d.reread = d := by
  obtain ⟨⟨e, -, -, hacc, hd⟩, hname⟩ := h
  refine ⟨⟨hname, ?_⟩, ?_⟩
  · rw [hd]
    exact zip64Stable_dirent hacc.zip64
  · rw [hd]
    have hw := writtenFields_dirent e.file e.offset
    show { e.file.dirent e.offset with
      filename := d.filename, extraFields := (e.file.dirent e.offset).writtenFields,
      dataOffset := none } = _
    rw [hw]
    rfl

theorem Survives.stores {es : List WrittenEntry} {out : Bytes} (hX : InvertsDeflate X)
    (hw : ∀ e ∈ es, Written out e) {f : ArchiveFile} {d : Dirent} (h : Survives X es f d) :
    d.Stores X out f.data.val := by
  obtain ⟨⟨e, he, hcf, -, hd⟩, -⟩ := h
  have hs := stores_dirent hX hcf (hw e he)
  rw [hd]
  exact ⟨hs.plain, hs.placed, hs.size, hs.crc⟩

/-- The survivors are the entries of the surviving files, in order. -/
theorem survivors_survive {cfs : List CompressedFile} {comment : Bytes} {out : Vec} {s : WriteState}
    {es : List WrittenEntry} (h : Laid X cfs comment out s es) {files : List ArchiveFile}
    (hcomp : List.Forall₂ (Compressed X) files cfs) (hacc : ∀ e ∈ es, e.file.Accepted e.offset)
    {renames : List (UInt64 × Str)} (hrenames : ∀ r ∈ renames, pathTraversal r.2 = false)
    (deletes : List UInt64) :
    List.Forall₂ (Survives X es) (keepIdx (deletes.map UInt64.toNat) files)
      (survivors renames deletes (es.map fun e => e.file.dirent e.offset)) := by
  refine keepIdx_forall₂ (List.forall₂_iff_get.mpr ⟨?_, fun i h₁ h₂ => ?_⟩) _
  · rw [List.length_mapIdx, List.length_map, hcomp.length_eq, ← h.files, List.length_map]
  · obtain ⟨e, he, hmem, hcf⟩ := h.entry hcomp (List.getElem?_eq_getElem h₁)
    obtain ⟨hi, rfl⟩ := List.getElem?_eq_some_iff.mp he
    simp only [List.get_eq_getElem, List.getElem_mapIdx, List.getElem_map, renamed]
    cases hlast : lastAt (renames.map fun r => (r.1.toNat, r.2)) i with
    | none => exact ⟨⟨es[i], hmem, hcf, hacc _ hmem, rfl⟩, (hacc _ hmem).name⟩
    | some name =>
      obtain ⟨r, hr, hrname⟩ := List.mem_map.mp (mem_of_lastAt hlast)
      refine ⟨⟨es[i], hmem, hcf, hacc _ hmem, rfl⟩, ?_⟩
      rw [Prod.mk.injEq] at hrname
      exact hrname.2 ▸ hrenames r hr

/-- Modifying an archive of the writer: the result opens with the surviving entries, each with its
last new name and otherwise unchanged, and with their contents; the bytes before the directory are
kept. -/
theorem modifyArchive_roundtrip {X : Extern} (hX : InvertsDeflate X) {files : List ArchiveFile}
    {opts : CompressOptions} {b : Vec} (hb : writeArchive X files opts = .ok b)
    (hfiles : ∀ f ∈ files, Portable f) (hlen : b.val.length < 2 ^ 30)
    (hloc : writesLocator X files opts = false → locatorOf b.val = none)
    {renames : List (UInt64 × Str)} {deletes : List UInt64}
    (hrenames : ∀ r ∈ renames, (asBytes r.2).length ≤ 0xFFFF ∧ pathTraversal r.2 = false) {out : Vec}
    (hout : modifyArchive X b.val renames deletes = .ok out) (hlen' : out.val.length < 2 ^ 30)
    (hloc' : ∀ cd, readCentralDir { kind := .vec, bytes := b.val } = .ok cd →
      rewritesLocator renames deletes cd = false → locatorOf out.val = none) (kind : SourceKind) :
    ∃ cd a a', readCentralDir { kind := .vec, bytes := b.val } = .ok cd ∧
      Archive.open { kind, bytes := b.val } = .ok a ∧
      Archive.open { kind, bytes := out.val } = .ok a' ∧
      a'.entries = survivors renames deletes a.entries ∧
      (∀ i f, files[i]? = some f → ReadsAs X a i f.data.val) ∧
      (∀ j f, (keepIdx (deletes.map UInt64.toNat) files)[j]? = some f → ReadsAs X a' j f.data.val) ∧
      b.val.take cd.cdirOffset.toNat <+: out.val := by
  obtain ⟨cfs, s, es, hlaid, hcomp, hacc, hread⟩ := writeArchive_read hb hfiles hlen hloc
  obtain ⟨z, hcd⟩ := hread .vec
  obtain ⟨z', hcdk⟩ := hread kind
  obtain ⟨-, s', hs', hval⟩ := modifyArchive_ok hcd hout
  have hprefix : s.out <+: b.val := (List.prefix_append _ _).trans hlaid.isPrefix
  have hoff : s.cdirOffset.toNat = s.out.length :=
    UInt64.toNat_ofNat_of_lt' (by have := hprefix.length_le; rw [UInt64.size]; omega)
  -- the bytes before the directory are the local headers with their data
  have htake : b.val.take s.cdirOffset.toNat = s.out := by
    rw [hoff, ← List.prefix_iff_eq_take.mp hprefix]
  rw [show (CentralDir.cdirOffset _) = s.cdirOffset from rfl, htake] at hval
  have hsurv := survivors_survive hlaid hcomp hacc (fun r hr => (hrenames r hr).2) deletes
  have hsurvives : ∀ d ∈ survivors renames deletes (es.map fun e => e.file.dirent e.offset),
      d.Readable ∧ d.reread = d := by
    intro d hd
    obtain ⟨j, hj, rfl⟩ := List.mem_iff_getElem.mp hd
    exact (hsurv.get (hsurv.length_eq ▸ hj) hj).readable
  obtain ⟨-, hdir, hend⟩ := serialize_ok hs'
  have hend := hend s.out
  rw [← hval] at hend
  obtain ⟨cd', hcd', hentries⟩ := readCentralDir_readable kind hs' hoff.symm
    (hval ▸ out.property) (survivors_parsed (readCentralDir_parsed hcd))
    (tailSafe_of_locatorOf hend (hloc' _ hcd))
    (by have := hdir.length_le; rw [hval, List.length_append] at hlen'; omega)
    fun d hd => (hsurvives d hd).1
  rw [← hval] at hcd'
  have hsame : cd'.entries = survivors renames deletes (es.map fun e => e.file.dirent e.offset) :=
    hentries.trans ((List.map_congr_left fun d hd => (hsurvives d hd).2).trans (List.map_id _))
  have hopen : Archive.open { kind, bytes := b.val } = _ := congrArg (· >>= _) hcdk
  have hopen' : Archive.open { kind, bytes := out.val } = _ := congrArg (· >>= _) hcd'
  have hw : ∀ e ∈ es, Written out.val e := fun e he => hval ▸ (hlaid.written e he).append s'
  refine ⟨_, _, _, hcd, hopen, hopen', hsame, fun i f hf => ?_, fun j f hf => ?_, ?_⟩
  · obtain ⟨e, he, hmem, hcf⟩ := hlaid.entry hcomp hf
    have hentry : (es.map fun e => e.file.dirent e.offset)[i]? = some (e.file.dirent e.offset) := by
      rw [List.getElem?_map, he]; rfl
    exact readsAs_of_stores hopen hentry b.property (stores_dirent hX hcf (hlaid.written_out e hmem))
  · obtain ⟨d, hd, hsurvives⟩ := exists_of_forall₂ hsurv hf
    exact readsAs_of_stores hopen' (by rw [← hsame] at hd; exact hd) out.property
      (hsurvives.stores hX hw)
  · rw [show (CentralDir.cdirOffset _) = s.cdirOffset from rfl, htake, hval]
    exact List.prefix_append _ _

/-- Renaming and deleting entries of the archive of the sample files. -/
theorem modifyArchive_roundtrip_sample : ∃ b out,
    writeArchive reference sampleFiles .default = .ok b ∧
    modifyArchive reference b.val [(1, ['c']), (7, ['d'])] [0, 9, 0] = .ok out ∧
    ∃ cd a a', readCentralDir { kind := .vec, bytes := b.val } = .ok cd ∧
      Archive.open { kind := .arc, bytes := b.val } = .ok a ∧
      Archive.open { kind := .arc, bytes := out.val } = .ok a' ∧
      a'.entries = survivors [(1, ['c']), (7, ['d'])] [0, 9, 0] a.entries ∧
      (∀ i f, sampleFiles[i]? = some f → ReadsAs reference a i f.data.val) ∧
      (∀ j f, (keepIdx ([(0 : UInt64), 9, 0].map UInt64.toNat) sampleFiles)[j]? = some f →
        ReadsAs reference a' j f.data.val) ∧
      b.val.take cd.cdirOffset.toNat <+: out.val := by
  obtain ⟨b, hb, hp⟩ := exists_ok (x := writeArchive reference sampleFiles .default)
    (p := fun b => decide (b.val.length < 2 ^ 30) && (locatorOf b.val).isNone &&
      (modifyArchive reference b.val [(1, ['c']), (7, ['d'])] [0, 9, 0]).toOption.any fun out : Vec =>
        decide (out.val.length < 2 ^ 30) && (locatorOf out.val).isNone) (by decide +kernel)
  simp only [Bool.and_eq_true, decide_eq_true_eq, Option.isNone_iff_eq_none] at hp
  obtain ⟨⟨hlen, hloc⟩, hmod⟩ := hp
  obtain ⟨out, hout, hp⟩ := exists_ok hmod
  simp only [Bool.and_eq_true, decide_eq_true_eq, Option.isNone_iff_eq_none] at hp
  refine ⟨b, out, hb, hout, modifyArchive_roundtrip (fun _ _ _ => reference_inflate_deflate) hb
    portable_sampleFiles hlen (fun _ => hloc) ?_ hout hp.1 (fun _ _ _ => hp.2) .arc⟩
  intro r hr
  rcases List.mem_pair.mp hr with rfl | rfl <;> exact ⟨by decide, by decide⟩

end Kzip.Impl
