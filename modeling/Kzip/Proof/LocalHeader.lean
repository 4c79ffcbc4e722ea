import Kzip.Impl.LocalHeader
import Kzip.Proof.EndRecords
import Kzip.Proof.Writer
import Mathlib.Data.UInt

/-!
# Local headers and central records read back

The values of both headers of an entry, whatever file it is of. `parseLocal_written_iff`: a local header
gives back what was written exactly when both sizes overflow their fields or neither does, the method and
the encryption can be told from it, and an AES encrypted file has the CRC 0. `parseCentral_written_iff`: a
central record gives back sizes and offset exactly when no value equals its sentinel next to one that
overflows.
-/

namespace Kzip.Impl

open Lib Lib.LE Lib.Utf8 Lib.Cursor Kzip.Spec

/-! ## Parsing -/

theorem LocalFixed.reads (f : LocalFixed) : Reads LocalFixed.read f.bytes f := by
  simp only [LocalFixed.read, LocalFixed.bytes, List.flatten_cons, List.flatten_nil]
  refine (Reads.u16 _ _).bind ((Reads.u16 _ _).bind ((Reads.u16 _ _).bind ((Reads.u16 _ _).bind
    ((Reads.u16 _ _).bind ((Reads.u32 _ _).bind ((Reads.u32 _ _).bind ((Reads.u32 _ _).bind
    ((Reads.u16 _ _).bind ((Reads.u16 _ _).bind ?_)))))))))
  exact Reads.pure _

/-- Parsing a local header consumes it, and succeeds when its parts make an entry. -/
theorem parseLocal_header {f : LocalFixed} {filename extra : Bytes}
    (hname : filename.length = f.filenameLen.toNat) (hextra : extra.length = f.extraLen.toNat)
    (rest : Bytes) :
    Dirent.parseLocal (f.header filename extra ++ rest) =
      (Dirent.ofLocal f (fromUtf8Lossy filename) extra).map
        fun d => ((d, (f.header filename extra).length), rest) := by
  have hhead : (magic.localHeader ++ f.bytes).length = size.localHeader := by
    rw [List.length_append, f.length_bytes]; rfl
  have hsplit : f.header filename extra ++ rest =
      (magic.localHeader ++ f.bytes) ++ (filename ++ (extra ++ rest)) := by
    simp only [LocalFixed.header, List.flatten_cons, List.flatten_nil, List.append_nil,
      List.append_assoc]
  have hfixed : Reads (Cursor.within ((magic.localHeader ++ f.bytes).drop 4) LocalFixed.read) [] f := by
    rw [show (magic.localHeader ++ f.bytes).drop 4 = f.bytes from List.drop_left' rfl]
    simpa only [List.append_nil] using f.reads.within []
  have htake : (magic.localHeader ++ f.bytes).take 4 = magic.localHeader := List.take_left' rfl
  have hlen : size.localHeader + f.filenameLen.toNat + f.extraLen.toNat =
      (f.header filename extra).length := by
    rw [f.length_header, hname, hextra, show size.localHeader = 30 from rfl]
    omega
  rw [hsplit, Dirent.parseLocal, (Reads.take hhead).run]
  simp only [htake, ne_eq, not_true_eq_false, ↓reduceIte]
  rw [← List.nil_append (filename ++ (extra ++ rest)), hfixed.run,
    (readBytes_reads hname).run, readRaw, (Reads.take hextra).run, hlen]
  simp only [Cursor.lift, Bind.bind, StateT.bind]
  cases Dirent.ofLocal f (fromUtf8Lossy filename) extra with
  | error e => rfl
  | ok d => rfl

/-! ## The sizes of a local header -/

theorem needsZip64Sizes_iff {cf : CompressedFile} :
    needsZip64Sizes cf = true ↔ u32Max < cf.compSize ∨ u32Max < cf.uncompSize := by
  simp only [needsZip64Sizes, Bool.or_eq_true, decide_eq_true_eq, gt_iff_lt]

/-- Two values are read from ZIP64 data only if the data hold both. -/
theorem LocalFixed.sizes_some {f : LocalFixed} (hu : f.uncompSize32 = zip64Magic32)
    (hc : f.compSize32 = zip64Magic32) {data : Bytes} {u c : UInt64} :
    f.sizes (some data) = .ok (u, c) ↔ ∃ rest, data = le64 u ++ (le64 c ++ rest) := by
  simp only [LocalFixed.sizes, map_ok, hu, hc, beq_self_eq_true, readIf, ↓reduceIte]
  constructor
  · rintro ⟨⟨p, rest⟩, h, rfl⟩
    obtain ⟨u', s, hu', h⟩ := Cursor.bind_ok.mp h
    obtain ⟨c', s', hc', h⟩ := Cursor.bind_ok.mp h
    obtain ⟨heq, rfl⟩ := pure_ok.mp h
    cases heq
    rw [u64_ok] at hu' hc'
    exact ⟨s', by rw [hu', hc']⟩
  · rintro ⟨rest, rfl⟩
    exact ⟨((u, c), rest), Cursor.bind_ok.mpr ⟨u, _, u64_ok.mpr rfl,
      Cursor.bind_ok.mpr ⟨c, _, u64_ok.mpr rfl, rfl⟩⟩, rfl⟩

/-- The sizes are read back exactly when both overflow their fields or neither does. -/
theorem sizes_localFields (cf : CompressedFile) (extraLen : UInt16) :
    (cf.localFixed extraLen).sizes (zip64Data cf.localFields) = .ok (cf.uncompSize, cf.compSize) ↔
      (u32Max < cf.compSize ↔ u32Max < cf.uncompSize) := by
  have hdata : zip64Data cf.localFields = _ := zip64Data_fields cf (zip64ExtraData cf false 0)
  have hoffset : ¬ (false = true ∧ (0 : UInt64) > u32Max) := fun h => Bool.noConfusion h.1
  by_cases hz : needsZip64Sizes cf = true
  · have hu : (cf.localFixed extraLen).uncompSize32 = zip64Magic32 := by
      simp only [CompressedFile.localFixed, hz, ↓reduceIte]
      rfl
    have hc : (cf.localFixed extraLen).compSize32 = zip64Magic32 := by
      simp only [CompressedFile.localFixed, hz, ↓reduceIte]
      rfl
    have hextra : zip64ExtraData cf false 0 = (if u32Max < cf.uncompSize then le64 cf.uncompSize else []) ++
        if u32Max < cf.compSize then le64 cf.compSize else [] := by
      simp only [zip64ExtraData, hoffset, ↓reduceIte, List.flatten_cons, List.flatten_nil,
        List.append_nil, gt_iff_lt]
    have hlen (v : UInt64) : (le64 v).length ≠ 0 := by
      rw [length_le64]
      decide
    have hne : zip64ExtraData cf false 0 ≠ [] := by
      rw [hextra]
      rcases needsZip64Sizes_iff.mp hz with h | h
      · rw [if_pos h]
        exact fun he => hlen _ (congrArg List.length (List.append_eq_nil_iff.mp he).2)
      · rw [if_pos h]
        exact fun he => hlen _ (congrArg List.length (List.append_eq_nil_iff.mp he).1)
    rw [hdata, if_pos hne, LocalFixed.sizes_some hu hc, hextra]
    constructor
    · rintro ⟨rest, hrest⟩
      -- with one value missing the data are too short
      have hlength := congrArg List.length hrest
      simp only [List.length_append, length_le64] at hlength
      by_cases h₁ : u32Max < cf.compSize
      · by_cases h₂ : u32Max < cf.uncompSize
        · exact iff_of_true h₁ h₂
        · rw [if_pos h₁, if_neg h₂, length_le64, List.length_nil] at hlength
          omega
      · by_cases h₂ : u32Max < cf.uncompSize
        · rw [if_neg h₁, if_pos h₂, length_le64, List.length_nil] at hlength
          omega
        · exact iff_of_false h₁ h₂
    · intro hboth
      have h₁ : u32Max < cf.compSize := (needsZip64Sizes_iff.mp hz).elim id hboth.mpr
      rw [if_pos h₁, if_pos (hboth.mp h₁)]
      exact ⟨[], by rw [List.append_nil]⟩
  · have hfalse : needsZip64Sizes cf = false := Bool.eq_false_of_not_eq_true hz
    have hnil : zip64ExtraData cf false 0 = [] :=
      zip64ExtraData_of_not hfalse fun h => Bool.noConfusion h
    have hnot := mt needsZip64Sizes_iff.mpr hz
    rw [not_or, UInt64.not_lt, UInt64.not_lt] at hnot
    rw [hdata, hnil, if_neg (fun h => h rfl)]
    simp only [LocalFixed.sizes, CompressedFile.localFixed, hfalse, Bool.false_eq_true, ↓reduceIte,
      toUInt32_toUInt64 hnot.1, toUInt32_toUInt64 hnot.2, true_iff]
    exact iff_of_false (UInt64.not_lt.mpr hnot.1) (UInt64.not_lt.mpr hnot.2)

/-! ## Method and encryption -/

/-- The encryption can be told from a local header: it is one of WinZip AES, or a method other than 99
goes with none or the traditional one, or method 99 goes with an unknown one. -/
def CompressedFile.EncryptionTold (cf : CompressedFile) : Prop :=
  cf.isAes = true ∨
    cf.method ≠ zipCmWinzipAes ∧
      (cf.encryptionMethod = encryption.none ∨ cf.encryptionMethod = encryption.tradPkware) ∨
    cf.method = zipCmWinzipAes ∧ cf.encryptionMethod = encryption.unknown

theorem resolveLocalMethod_localFields (cf : CompressedFile) :
    (resolveLocalMethod (onDiskMethod cf) cf.flags cf.localFields).1 = .fromU16 cf.method ∧
      ((resolveLocalMethod (onDiskMethod cf) cf.flags cf.localFields).2.1 = cf.encryptionMethod ↔
        cf.EncryptionTold) := by
  by_cases haes : cf.isAes = true
  · rw [resolveLocalMethod, onDiskMethod, if_pos haes, if_pos rfl, CompressedFile.localFields,
      parseAesExtra_fields haes]
    exact ⟨rfl, iff_of_true rfl (.inl haes)⟩
  · have hnot : cf.isAes = false := Bool.eq_false_of_not_eq_true haes
    rw [resolveLocalMethod, onDiskMethod, hnot, if_neg Bool.false_ne_true]
    by_cases hmethod : cf.method = zipCmWinzipAes
    · have hnone : parseAesExtra cf.localFields = none := by
        have hfind : cf.localFields.find? (fun f => f.1 == efWinzipAes) = none := by
          rw [CompressedFile.localFields, CompressedFile.aesFields, hnot, if_neg Bool.false_ne_true,
            List.append_nil, List.find?_append, userFields_find? (.inl rfl), Option.none_or, zip64Field]
          split <;> rfl
        rw [parseAesExtra, hfind]
      rw [if_pos hmethod, hnone, hmethod]
      refine ⟨rfl, ?_⟩
      simp only [CompressedFile.EncryptionTold, haes, hmethod, ne_eq, not_true_eq_false, false_and,
        true_and, false_or, Bool.false_eq_true]
      exact eq_comm
    · rw [if_neg hmethod, CompressedFile.flags, hnot]
      refine ⟨rfl, ?_⟩
      simp only [CompressedFile.EncryptionTold, haes, hmethod, ne_eq, not_false_eq_true, false_and,
        true_and, or_false, false_or, Bool.false_eq_true, ↓reduceIte]
      by_cases hzero : cf.encryptionMethod = 0
      · rw [hzero]
        exact iff_of_true rfl (.inl rfl)
      · have hnone : cf.encryptionMethod ≠ encryption.none := hzero
        have htrad : (if ¬ (flag.encrypted &&& flag.encrypted = 0) then encryption.tradPkware
            else encryption.none) = encryption.tradPkware := rfl
        rw [if_pos hzero, htrad]
        simp only [hnone, false_or]
        exact eq_comm

/-! ## Both headers -/

/-- The entry parsed from a local header has what its file has. -/
structure CompressedFile.Recorded (cf : CompressedFile) (d : Dirent) : Prop where
  filename : d.filename = cf.name
  bitflags : d.bitflags = cf.flags
  compMethod : d.compMethod = .fromU16 cf.method
  encryptionMethod : d.encryptionMethod = cf.encryptionMethod
  crc : d.crc = cf.crc
  compSize : d.compSize = cf.compSize
  uncompSize : d.uncompSize = cf.uncompSize

/-- The CRC is in the header unless the file is AES encrypted, in which case a zero is. -/
theorem CompressedFile.storedCrc_eq_crc (cf : CompressedFile) :
    cf.storedCrc = cf.crc ↔ (cf.isAes = true → cf.crc = 0) := by
  by_cases haes : cf.isAes = true
  · rw [CompressedFile.storedCrc, if_pos haes]
    exact ⟨fun h _ => h.symm, fun h => (h haes).symm⟩
  · rw [CompressedFile.storedCrc, if_neg haes]
    exact iff_of_true rfl fun h => absurd h haes

/-- A local header is read back exactly when both sizes overflow their fields or neither does, the
encryption can be told from it, and an AES encrypted file has no CRC. -/
theorem parseLocal_written_iff {cf : CompressedFile} {out r : Bytes}
    (hname : (asBytes cf.name).length ≤ 0xFFFF)
    (h : writeLocalHeader cf out (needsZip64Sizes cf) = .ok r) :
    (∃ d, Dirent.parseLocal (r.drop out.length) = .ok ((d, (r.drop out.length).length), []) ∧
      cf.Recorded d) ↔
    (u32Max < cf.compSize ↔ u32Max < cf.uncompSize) ∧ cf.EncryptionTold ∧
      (cf.isAes = true → cf.crc = 0) := by
  obtain ⟨extraLen, hfit, hextra, rfl⟩ := writeLocalHeader_eq h
  have hnameLen : (asBytes cf.name).length = (cf.localFixed extraLen).filenameLen.toNat := (toNat_ofNat_u16 hname).symm
  have hparse := parseLocal_header hnameLen hextra.symm []
  obtain ⟨hmethod, htold⟩ := resolveLocalMethod_localFields cf
  rw [List.append_nil, fromUtf8Lossy_asBytes] at hparse
  rw [List.drop_left, hparse, ← sizes_localFields cf extraLen, ← htold,
    ← cf.storedCrc_eq_crc]
  simp only [map_ok, Dirent.ofLocal, parse_rawFields hfit, ok_bind]
  constructor
  · rintro ⟨d, ⟨d', hd, heq⟩, hrec⟩
    cases heq
    obtain ⟨⟨u, c⟩, hsizes, hd⟩ := bind_ok.mp hd
    cases hd
    have hu : u = cf.uncompSize := hrec.uncompSize
    have hc : c = cf.compSize := hrec.compSize
    rw [hsizes, hu, hc]
    exact ⟨rfl, hrec.encryptionMethod, hrec.crc⟩
  · rintro ⟨hsizes, henc, hcrc⟩
    exact ⟨_, ⟨_, bind_ok.mpr ⟨_, hsizes, rfl⟩, rfl⟩, rfl, rfl, hmethod, henc, hcrc, rfl, rfl⟩

/-- Sizes and offset are read back from a central record exactly when no value equals its sentinel next
to one that overflows. -/
theorem parseCentral_written_iff {cf : CompressedFile} {offset : UInt64} {cdir r : Bytes}
    (hname : (asBytes cf.name).length ≤ 0xFFFF) (hsafe : pathTraversal cf.name = false)
    (h : writeCentralEntry cf offset cdir = .ok r) :
    (∃ d, Dirent.parseCentral (r.drop cdir.length) = .ok (d, []) ∧ d.compSize = cf.compSize ∧
      d.uncompSize = cf.uncompSize ∧ d.offset = offset) ↔ (cf.zip64Values offset).Unambiguous := by
  obtain ⟨l₂, l₃, hfit, hl₂, hl₃, rfl⟩ := writeCentralEntry_ok h
  obtain ⟨hback, hunamb⟩ := zip64Overrides_central cf offset l₂ l₃
  have hparse := (isRecord_centralFixed offset hname hl₂ hl₃).parse []
  rw [List.append_nil] at hparse
  rw [List.drop_left, hparse]
  simp only [map_ok, ofCentral_ok, parse_rawFields hfit, Except.ok.injEq]
  constructor
  · rintro ⟨d, ⟨d', ⟨fields, v, rfl, hv, -⟩, -⟩, -⟩
    exact hunamb v hv
  · intro hun
    exact ⟨_, ⟨_, ⟨_, _, rfl, hback hun, hsafe, rfl⟩, rfl⟩, rfl, rfl, rfl⟩

/-! ## Examples -/

/-- A file of these sizes, with no data. -/
def sizedFile (compSize uncompSize : UInt64) : CompressedFile :=
  { name := ['a'], method := 0, crc := 0, compSize, uncompSize, data := ⟨[], by decide⟩,
    encryptionMethod := encryption.none, comment := none, extraFields := [], lastModTime := 0,
    lastModDate := 0, opsys := 3, externalAttributes := 0 }

/-- Both sizes overflow. -/
theorem parseLocal_written_sample : ∃ r,
    writeLocalHeader (sizedFile (2 ^ 32) (2 ^ 32 + 1)) [] true = .ok r ∧
    ((∃ d, Dirent.parseLocal (r.drop ([] : Bytes).length) =
        .ok ((d, (r.drop ([] : Bytes).length).length), []) ∧
        (sizedFile (2 ^ 32) (2 ^ 32 + 1)).Recorded d) ↔
      (u32Max < (sizedFile (2 ^ 32) (2 ^ 32 + 1)).compSize ↔
        u32Max < (sizedFile (2 ^ 32) (2 ^ 32 + 1)).uncompSize) ∧
        (sizedFile (2 ^ 32) (2 ^ 32 + 1)).EncryptionTold ∧
        ((sizedFile (2 ^ 32) (2 ^ 32 + 1)).isAes = true → (sizedFile (2 ^ 32) (2 ^ 32 + 1)).crc = 0)) := by
  obtain ⟨r, hr, -⟩ := exists_ok (x := writeLocalHeader (sizedFile (2 ^ 32) (2 ^ 32 + 1)) [] true)
    (p := fun _ => true) (by decide +kernel)
  exact ⟨r, hr, parseLocal_written_iff (by decide) hr⟩

/-- Only the uncompressed size overflows: the local header cannot be parsed. -/
theorem localHeader_unparsable : ∃ r,
    writeLocalHeader (sizedFile 5 (2 ^ 32)) [] (needsZip64Sizes (sizedFile 5 (2 ^ 32))) = .ok r ∧
    (asBytes (sizedFile 5 (2 ^ 32)).name).length ≤ 0xFFFF ∧
    ∀ d n rest, Dirent.parseLocal r ≠ .ok ((d, n), rest) := by
  obtain ⟨r, hr, hp⟩ := exists_ok
    (x := writeLocalHeader (sizedFile 5 (2 ^ 32)) [] (needsZip64Sizes (sizedFile 5 (2 ^ 32))))
    (p := fun r => (Dirent.parseLocal r).toOption.isNone) (by decide +kernel)
  refine ⟨r, hr, by decide, fun d n rest h => ?_⟩
  rw [h] at hp
  cases hp

/-- The sizes fit, and the offset overflows. -/
theorem parseCentral_written_sample : ∃ r,
    writeCentralEntry (sizedFile 5 6) (2 ^ 32) [] = .ok r ∧
    ((∃ d, Dirent.parseCentral (r.drop ([] : Bytes).length) = .ok (d, []) ∧
        d.compSize = (sizedFile 5 6).compSize ∧ d.uncompSize = (sizedFile 5 6).uncompSize ∧
        d.offset = 2 ^ 32) ↔ ((sizedFile 5 6).zip64Values (2 ^ 32)).Unambiguous) := by
  obtain ⟨r, hr, -⟩ := exists_ok (x := writeCentralEntry (sizedFile 5 6) (2 ^ 32) [])
    (p := fun _ => true) (by decide +kernel)
  exact ⟨r, hr, parseCentral_written_iff (by decide) (by decide) hr⟩

/-- A size equals the sentinel next to an offset that overflows: the central record cannot be parsed. -/
theorem centralRecord_unparsable : ∃ r,
    writeCentralEntry (sizedFile u32Max u32Max) (2 ^ 32) [] = .ok r ∧
    (asBytes (sizedFile u32Max u32Max).name).length ≤ 0xFFFF ∧
    pathTraversal (sizedFile u32Max u32Max).name = false ∧
    ∀ d rest, Dirent.parseCentral r ≠ .ok (d, rest) := by
  obtain ⟨r, hr, hp⟩ := exists_ok (x := writeCentralEntry (sizedFile u32Max u32Max) (2 ^ 32) [])
    (p := fun r => (Dirent.parseCentral r).toOption.isNone) (by decide +kernel)
  refine ⟨r, hr, by decide, by decide, fun d rest h => ?_⟩
  rw [h] at hp
  cases hp

end Kzip.Impl
