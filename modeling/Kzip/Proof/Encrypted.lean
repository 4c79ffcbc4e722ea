import Kzip.Proof.RoundTrip
import Kzip.Spec.Encrypted

/-!
# Encrypting an archive and reading it back

`encryptFile` replaces the compressed bytes of a file by a header and ciphertext, or by a frame of salt,
verification value, ciphertext and tag; from the entry written for it the password gives back the
compressed bytes (`compressed_entry`). `writeArchiveEncryptedMethods_roundtrip`: the password gives back
every file of the archive, whatever method was chosen for it.
-/

namespace Kzip.Impl

open Lib Lib.Utf8 Kzip.Spec

variable {X : Extern}

/-! ## Encryption of one file -/

/-- What encrypting a compressed file leaves as it is, and what it stores. -/
inductive Sealed (X : Extern) (password : Bytes) (cf₀ : CompressedFile) : CompressedFile → Prop
  | plain : Sealed X password cf₀ cf₀
  | tradPkware {data : Vec} (h : data.val = encryptData password cf₀.crc cf₀.data.val) :
      Sealed X password cf₀ { cf₀ with
        data, compSize := UInt64.ofNat data.val.length, encryptionMethod := encryption.tradPkware }
  | aes {data : Vec} {em : UInt16} {salt : Bytes} (hem : isAesMethod em = true)
      (hsalt : salt.length = aesSaltLength em)
      (h : data.val = aesEncryptData X password em cf₀.data.val salt) :
      Sealed X password cf₀ { cf₀ with
        data, compSize := UInt64.ofNat data.val.length, encryptionMethod := em }

theorem encryptFile_sealed {password : Bytes} {index : Nat} {em : UInt16} {cf₀ cf : CompressedFile}
    (h : encryptFile X password index cf₀ em = .ok cf) : Sealed X password cf₀ cf := by
  simp only [encryptFile] at h
  split at h
  · cases h
    exact .plain
  · split at h
    · obtain ⟨data, hdata, h⟩ := bind_ok.mp h
      cases h
      exact .tradPkware (Vec.ofBytes_ok.mp hdata)
    · split at h
      · rename_i haes
        obtain ⟨data, hdata, h⟩ := bind_ok.mp h
        cases h
        exact .aes haes (Vector.length_toList ..) (Vec.ofBytes_ok.mp hdata)
      · cases h

theorem encryptFiles_sealed {password : Bytes} {methods : List UInt16}
    {cfs₀ cfs : List CompressedFile} (h : encryptFiles X password methods cfs₀ = .ok cfs) :
    List.Forall₂ (Sealed X password) cfs₀ cfs := by
  simp only [encryptFiles] at h
  split at h
  · cases h
    exact List.forall₂_same.mpr fun cf _ => .plain
  · obtain ⟨hlen, h⟩ := guard_ok.mp h
    rw [← map_zip_zipIdx (Classical.not_not.mp hlen), List.forall₂_map_left_iff]
    exact (mapM_ok.mp h).imp fun _ _ => encryptFile_sealed

/-- With a method for each file, that is how the two writers encrypt. -/
theorem encryptedFiles_ok {files : List ArchiveFile} {opts : CompressOptions} {password : Bytes}
    {methods : List UInt16} {cfs : List CompressedFile}
    (h : encryptedFiles X files opts password methods = .ok cfs) :
    ∃ cfs₀, compressFiles X files opts = .ok cfs₀ ∧ encryptFiles X password methods cfs₀ = .ok cfs := by
  obtain ⟨cfs₀, hcfs₀, h⟩ := bind_ok.mp h
  obtain ⟨hlen, h⟩ := guard_ok.mp h
  refine ⟨cfs₀, hcfs₀, ?_⟩
  rw [encryptFiles]
  split
  · rename_i hnil
    rw [hnil, List.length_nil, ne_eq, Classical.not_not, eq_comm, List.length_eq_zero_iff] at hlen
    rw [hlen] at h ⊢
    exact h
  · exact h

/-! ## The entry of an encrypted file -/

theorem encrypted_entry (cf : CompressedFile) (offset : UInt64) :
    (cf.entry offset).encrypted = decide (cf.encryptionMethod ≠ encryption.none) := by
  show decide (cf.flags &&& flag.encrypted ≠ 0) = decide (cf.encryptionMethod ≠ 0)
  rw [CompressedFile.flags]
  by_cases h : cf.encryptionMethod = 0
  · simp only [h, ne_eq, not_true_eq_false, ↓reduceIte]
    rfl
  · simp only [h, ne_eq, not_false_eq_true, ↓reduceIte]
    cases cf.isAes <;> rfl

theorem aes_ne_none {em : UInt16} (h : isAesMethod em = true) : em ≠ encryption.none := by
  rintro rfl
  cases h

/-- The decrypted bytes of an entry decode to the content of the file. -/
theorem decodesTo_entry (hX : InvertsDeflate X) {f : ArchiveFile} {password : Bytes}
    {cf₀ cf : CompressedFile} (h : Compressed X f cf₀) (hs : Sealed X password cf₀ cf)
    (offset : UInt64) : DecodesTo X (cf.entry offset) cf₀.data.val f.data.val := by
  obtain ⟨hmethod, huncomp, hcrc⟩ :
      cf.method = cf₀.method ∧ cf.uncompSize = cf₀.uncompSize ∧ cf.crc = cf₀.crc := by
    cases hs <;> exact ⟨rfl, rfl, rfl⟩
  refine ⟨?_, ?_, fun hnot => ?_⟩
  · show Impl.decode X (.fromU16 cf.method) cf₀.data.val = _
    rw [hmethod]
    exact h.decode hX
  · have hlt := f.data.property
    show _ = cf.uncompSize.toNat
    rw [huncomp, h.uncompSize]
    exact (UInt64.toNat_ofNat_of_lt' (by rw [UInt64.size]; omega)).symm
  · show _ = cf.storedCrc
    -- only an AES entry records no CRC, and that is opened as one
    have haes : cf.isAes = false := by
      refine Bool.eq_false_of_not_eq_true fun haes => ?_
      rw [opensAes, encrypted_entry, decide_eq_true (aes_ne_none haes), Bool.true_and] at hnot
      exact absurd (haes.symm.trans hnot) Bool.noConfusion
    rw [CompressedFile.storedCrc, haes, if_neg Bool.false_ne_true, hcrc, h.crc]

/-- The header and the data are encrypted one after the other, and decrypted in that order. -/
theorem zipCryptoCompressed_encrypt {bytes : Bytes} {d : Dirent} {off : Nat} {password data : Bytes}
    {crc : UInt32} (hdata : encryptData password crc data <+: bytes.drop off)
    (hsize : d.compSize.toNat = (encryptData password crc data).length) (hcrc : d.crc = crc) :
    zipCryptoCompressed bytes d off password = some data := by
  obtain ⟨first, hfirst⟩ :
      ∃ first, (ZipCrypto.new password).encrypt (encryptionHeader password crc) = first := ⟨_, rfl⟩
  have hsplit : encryptData password crc data = first.1 ++ (first.2.encrypt data).1 := by
    rw [encryptData_eq, hfirst]
  have hlen : first.1.length = encryptionHeaderLen := by
    rw [← hfirst, ZipCrypto.length_encrypt, length_encryptionHeader]
  have hheader : (ZipCrypto.new password).decrypt first.1 =
      (encryptionHeader password crc, first.2) := by
    rw [← hfirst, ZipCrypto.decrypt_encrypt]
  obtain ⟨rest, hrest⟩ := hdata
  rw [hsplit, List.append_assoc] at hrest
  have htake : (bytes.drop off).take encryptionHeaderLen = first.1 := by
    rw [← hrest, List.take_left' hlen]
  have hdrop : bytes.drop (off + encryptionHeaderLen) = (first.2.encrypt data).1 ++ rest := by
    rw [← List.drop_drop, ← hrest, List.drop_left' hlen]
  have hcheck : (encryptionHeader password crc).getD (encryptionHeaderLen - 1) 0 =
      (d.crc >>> 24).toUInt8 := by
    rw [List.getD_eq_getElem?_getD, encryptionHeader_check, hcrc]
    rfl
  rw [hsplit, List.length_append, hlen, ZipCrypto.length_encrypt] at hsize
  have hcut : d.compSize.toNat - encryptionHeaderLen = (first.2.encrypt data).1.length := by
    rw [ZipCrypto.length_encrypt]
    omega
  simp only [zipCryptoCompressed, htake, hdrop, hheader]
  rw [if_pos ⟨hlen, by omega, hcheck⟩, ← ZipCrypto.decrypt_take, hcut, List.take_left' rfl,
    ZipCrypto.decrypt_encrypt]

/-- The frame is taken apart again, if it is not too large. -/
theorem aesCompressed_entry {password plain salt : Bytes} (cf : CompressedFile)
    (hval : cf.data.val = aesEncryptData X password cf.encryptionMethod plain salt)
    (hsalt : salt.length = aesSaltLength cf.encryptionMethod) {bytes : Bytes} {off : Nat}
    {offset : UInt64} (hcomp : (cf.entry offset).compSize.toNat = cf.data.val.length)
    (htake : (bytes.drop off).take (cf.entry offset).compSize.toNat = cf.data.val) :
    aesCompressed X bytes (cf.entry offset) off password =
      if cf.compSize ≤ maxCdSize then some plain else none := by
  have hdec : aesDecryptData X password (cf.entry offset).encryptionMethod cf.data.val = .ok plain := by
    rw [hval]
    exact aesDecryptData_encrypt password cf.encryptionMethod plain hsalt
  simp only [aesCompressed, htake, hdec, ← hcomp, and_true]
  rfl

/-- The compressed bytes of the entry of a file, in the clear or under the password. Only the region of
an AES entry must not be too large. -/
theorem compressed_entry {password : Bytes} {cf₀ cf : CompressedFile} (hp : cf₀.Plain)
    (hsize : cf.compSize = UInt64.ofNat cf.data.val.length) (hs : Sealed X password cf₀ cf)
    {bytes : Bytes} {off : Nat} (hdata : cf.data.val <+: bytes.drop off) (offset : UInt64) :
    compressed X bytes (cf.entry offset) off (some password) =
      if cf.isAes = true ∧ ¬ cf.compSize ≤ maxCdSize then none else some cf₀.data.val := by
  have hlt := cf.data.property
  have hcomp : (cf.entry offset).compSize.toNat = cf.data.val.length := by
    show cf.compSize.toNat = _
    rw [hsize]
    exact UInt64.toNat_ofNat_of_lt' (by rw [UInt64.size]; omega)
  have htake : (bytes.drop off).take (cf.entry offset).compSize.toNat = cf.data.val := by
    rw [hcomp]
    exact (List.prefix_iff_eq_take.mp hdata).symm
  have henc := encrypted_entry cf offset
  cases hs with
  | plain =>
    rw [compressed, henc, hp.encryption, hp.not_aes, htake]
    rfl
  | @tradPkware data hval =>
    have hdec := zipCryptoCompressed_encrypt (hval ▸ hdata) (hcomp.trans (congrArg List.length hval)) rfl
    rw [compressed, henc]
    exact hdec
  | @aes data em salt hem hsalt hval =>
    have hregion := aesCompressed_entry _ hval hsalt hcomp htake
    rw [compressed, henc, decide_eq_true (aes_ne_none hem), if_pos rfl]
    refine (if_pos hem).trans (hregion.trans ?_)
    by_cases hmax : UInt64.ofNat data.val.length ≤ maxCdSize
    · rw [if_pos hmax, if_neg fun h => h.2 hmax]
    · rw [if_neg hmax, if_pos ⟨hem, hmax⟩]

/-- Without a password only plain entries can be read. -/
theorem compressed_entry_none {password : Bytes} {cf₀ cf : CompressedFile} (hp : cf₀.Plain)
    (hsize : cf.compSize = UInt64.ofNat cf.data.val.length) (hs : Sealed X password cf₀ cf)
    {bytes : Bytes} {off : Nat} {offset : UInt64} (hdata : cf.data.val <+: bytes.drop off) :
    compressed X bytes (cf.entry offset) off none =
      if cf.encryptionMethod = encryption.none then some cf₀.data.val else none := by
  by_cases hplain : cf.encryptionMethod = encryption.none
  · have hnot : cf.isAes = false := by
      rw [CompressedFile.isAes, hplain]
      rfl
    have henc : (cf.entry offset).encrypted = false := by
      rw [encrypted_entry, hplain]
      rfl
    have hsome := compressed_entry hp hsize hs hdata offset
    rw [hnot, if_neg (fun h => Bool.noConfusion h.1), compressed, henc] at hsome
    rw [if_pos hplain, compressed, henc]
    exact hsome
  · have henc : (cf.entry offset).encrypted = true := by
      rw [encrypted_entry, decide_eq_true hplain]
    rw [if_neg hplain, compressed, henc, if_pos rfl, Option.bind_none, Option.bind_none]
    split <;> [rfl; split <;> rfl]

/-! ## The archive -/

/-- The file was compressed, then perhaps encrypted. -/
def Stored (X : Extern) (password : Bytes) (f : ArchiveFile) (cf : CompressedFile) : Prop :=
  ∃ cf₀, Compressed X f cf₀ ∧ Sealed X password cf₀ cf

/-- What the layout depends on. -/
structure Kept (f : ArchiveFile) (cf : CompressedFile) : Prop where
  known : cf.Known
  name : cf.name = f.name
  compSize : cf.compSize = UInt64.ofNat cf.data.val.length

theorem Stored.kept {password : Bytes} {f : ArchiveFile} {cf : CompressedFile}
    (h : Stored X password f cf) : Kept f cf := by
  obtain ⟨cf₀, hcomp, hs⟩ := h
  cases hs with
  | plain => exact ⟨hcomp.plain.known, hcomp.name, hcomp.compSize⟩
  | tradPkware _ => exact ⟨⟨hcomp.plain.method, .inr (.inl rfl)⟩, hcomp.name, rfl⟩
  | aes hem _ _ => exact ⟨⟨hcomp.plain.method, .inr (.inr hem)⟩, hcomp.name, rfl⟩

theorem stored_files {files : List ArchiveFile} {opts : CompressOptions} {password : Bytes}
    {methods : List UInt16} {cfs₀ cfs : List CompressedFile} (hc : compressFiles X files opts = .ok cfs₀)
    (he : encryptFiles X password methods cfs₀ = .ok cfs) :
    List.Forall₂ (Stored X password) files cfs := by
  have hcomp := compressFiles_ok hc
  have hsealed := encryptFiles_sealed he
  rw [List.forall₂_iff_get] at hcomp hsealed ⊢
  refine ⟨hcomp.1.trans hsealed.1, fun i h₁ h₂ => ?_⟩
  have h₀ : i < cfs₀.length := hcomp.1 ▸ h₁
  exact ⟨cfs₀.get ⟨i, h₀⟩, hcomp.2 i h₁ h₀, hsealed.2 i h₀ h₂⟩

section
variable {password : Bytes} {files : List ArchiveFile} {cfs : List CompressedFile}

theorem exists_stored (h : List.Forall₂ (Stored X password) files cfs) {cf : CompressedFile}
    (hcf : cf ∈ cfs) : ∃ f ∈ files, Kept f cf := by
  obtain ⟨i, hi⟩ := List.mem_iff_getElem?.mp hcf
  obtain ⟨f, hf, hst⟩ := exists_of_forall₂ h.flip hi
  exact ⟨f, List.mem_of_getElem? hf, Stored.kept hst⟩

theorem writeCompressed_stored (h : List.Forall₂ (Stored X password) files cfs)
    (hname : ∀ f ∈ files, (asBytes f.name).length ≤ 0xFFFF) {Y : Extern} {comment : Bytes} {out : Vec}
    {s : WriteState} (hs : writeEntries cfs = .ok s) (hw : writeCompressed Y cfs comment = .ok out) :
    ∃ es, LaidOut Y cfs comment out s es := by
  refine writeCompressed_laidOut (fun cf hcf => ?_) (fun cf hcf => ?_) hs hw
  · obtain ⟨f, -, hk⟩ := exists_stored h hcf
    exact hk.known
  · obtain ⟨f, hf, hk⟩ := exists_stored h hcf
    rw [hk.name]
    exact hname f hf

end

/-! ## Reading an entry back -/

section
variable {kind : SourceKind} {out : Vec} {a : Archive} {i : Nat} {e : WrittenEntry} {f : ArchiveFile}
  {password : Bytes}

theorem Kept.toNat_compSize {cf : CompressedFile} (h : Kept f cf) (offset : UInt64) :
    (cf.entry offset).compSize.toNat = cf.data.val.length := by
  have hlt := cf.data.property
  show cf.compSize.toNat = _
  rw [h.compSize]
  exact UInt64.toNat_ofNat_of_lt' (by rw [UInt64.size]; omega)

/-- Where the data of an entry that was written are found. -/
theorem Emitted.located (he : Emitted out.val e) (hopen : Archive.open { kind, bytes := out.val } = .ok a) :
    ∃ off, localHeaderLen a.src e.offset.toNat = .ok off ∧
      off + e.file.data.val.length ≤ a.src.bytes.length ∧ e.file.data.val <+: a.src.bytes.drop off := by
  obtain ⟨hsrc, -, -⟩ := open_parts hopen
  have hsrc : a.src.bytes = out.val := hsrc
  exact localHeaderLen_placed (hsrc ▸ out.property) (hsrc ▸ he.placed)

/-- The content read from the entry of a file, in an archive that was just opened. -/
theorem readEntry_emitted (hopen : Archive.open { kind, bytes := out.val } = .ok a)
    (hentry : a.entries[i]? = some (e.file.entry e.offset)) (he : Emitted out.val e) (hk : Kept f e.file) :
    ∃ off, e.file.data.val <+: out.val.drop off ∧ ∀ sched pw v,
      (a.readEntryWithPassword X sched i pw).1 = .ok v ↔
        Holds X out.val (e.file.entry e.offset) off pw v := by
  obtain ⟨hsrc, -, hnone⟩ := open_parts hopen
  have hsrc : a.src.bytes = out.val := hsrc
  have hlen : a.src.bytes.length < 2 ^ 63 := hsrc ▸ out.property
  obtain ⟨off, hoff, hin, hprefix⟩ := he.located hopen
  have hcomp := hk.toNat_compSize e.offset
  refine ⟨off, hsrc ▸ hprefix, fun sched pw v => ?_⟩
  have hread := readEntry_iff (X := X) hlen hentry
    ((findDataOffset_eq (open_cacheOk hopen) (List.mem_of_getElem? hentry)).trans hoff)
    (by omega) sched pw (v := v)
  rwa [hnone, Option.or_none, hsrc] at hread

/-- The password gives back the content of a file from its entry, and nothing else, if the region of an
AES entry is not too large. -/
theorem readsWith_emitted_iff (hX : InvertsDeflate X) (hopen : Archive.open { kind, bytes := out.val } = .ok a)
    (hentry : a.entries[i]? = some (e.file.entry e.offset)) (he : Emitted out.val e)
    (hst : Stored X password f e.file) {content : Bytes} :
    ReadsWith X a i password content ↔
      content = f.data.val ∧ (e.file.isAes = true → e.file.compSize ≤ maxCdSize) := by
  have hk := hst.kept
  obtain ⟨cf₀, hcomp, hs⟩ := hst
  have hdecodes := decodesTo_entry hX hcomp hs e.offset
  constructor
  · intro h
    obtain ⟨off, hprefix, hread⟩ := readEntry_emitted (X := X) hopen hentry he hk
    obtain ⟨c, hc, hdec⟩ := (hread bytewise (some password) content).mp (h [] bytewise)
    rw [compressed_entry hcomp.plain hk.compSize hs hprefix e.offset] at hc
    split at hc
    · cases hc
    · rename_i hfits
      cases hc
      have hsame := hdec.decode.symm.trans hdecodes.decode
      simp only [Option.some.injEq, Decoded.mk.injEq, and_true] at hsame
      exact ⟨hsame, fun haes => Classical.not_not.mp fun hnot => hfits ⟨haes, hnot⟩⟩
  · rintro ⟨rfl, hfits⟩ calls sched
    have hsrc : a.src.bytes = out.val := (open_parts hopen).1
    have hlen := out.property
    obtain ⟨off, hoff, hin, hprefix⟩ := he.located hopen
    have hcompressed := compressed_entry hcomp.plain hk.compSize hs hprefix e.offset
    rw [if_neg (fun h => h.2 (hfits h.1))] at hcompressed
    have hsize := hk.toNat_compSize e.offset
    exact readEntry_after (open_cacheOk hopen) hentry (hsrc ▸ hlen) hoff (by rw [hsrc] at hin; omega)
      (fun default => ⟨_, hcompressed, hdecodes⟩) calls sched

/-- The password gives back the content of a file from its entry. -/
theorem readsWith_of_emitted (hX : InvertsDeflate X) (hopen : Archive.open { kind, bytes := out.val } = .ok a)
    (hentry : a.entries[i]? = some (e.file.entry e.offset)) (he : Emitted out.val e)
    (hst : Stored X password f e.file) (hsmall : out.val.length < 2 ^ 30) :
    ReadsWith X a i password f.data.val := by
  have hsrc : a.src.bytes = out.val := (open_parts hopen).1
  refine (readsWith_emitted_iff hX hopen hentry he hst).mpr ⟨rfl, fun _ => ?_⟩
  obtain ⟨off, -, hin, -⟩ := he.located hopen
  have hsize := hst.kept.toNat_compSize e.offset
  rw [UInt64.le_iff_toNat_le]
  show (e.file.entry e.offset).compSize.toNat ≤ 2 ^ 30
  rw [hsrc] at hin
  omega

/-- A file that was not encrypted needs no password. -/
theorem readsAs_of_emitted (hX : InvertsDeflate X) (hopen : Archive.open { kind, bytes := out.val } = .ok a)
    (hentry : a.entries[i]? = some (e.file.entry e.offset)) (he : Emitted out.val e)
    (hst : Stored X password f e.file) (hmethod : e.file.encryptionMethod = encryption.none) :
    ReadsAs X a i f.data.val := by
  have hsrc : a.src.bytes = out.val := (open_parts hopen).1
  have hlen := out.property
  obtain ⟨off, hoff, hin, hprefix⟩ := he.located hopen
  have hk := hst.kept
  have hsize := hk.toNat_compSize e.offset
  obtain ⟨cf₀, hcomp, hs⟩ := hst
  have hplain : (e.file.entry e.offset).encrypted = false := by
    rw [encrypted_entry, hmethod]
    rfl
  have hcompressed : compressed X a.src.bytes (e.file.entry e.offset) off none = _ :=
    compressed_entry_none hcomp.plain hk.compSize hs hprefix
  rw [if_pos hmethod] at hcompressed
  have hholds : Holds X a.src.bytes (e.file.entry e.offset) off none f.data.val :=
    ⟨_, hcompressed, decodesTo_entry hX hcomp hs e.offset⟩
  intro calls sched
  exact readEntry_after (open_cacheOk hopen) hentry (hsrc ▸ hlen) hoff (by rw [hsrc] at hin; omega)
    (fun default => (holds_plain hplain).mpr ((holds_plain hplain).mp hholds)) calls sched

end

/-- Encrypting files and reading the archive back: the password gives back every file. -/
theorem writeArchiveEncryptedMethods_roundtrip {X : Extern} (hX : InvertsDeflate X)
    {files : List ArchiveFile} {opts : CompressOptions} {password : Bytes} {methods : List UInt16}
    {out : Vec} (h : writeArchiveEncryptedMethods X files opts password methods = .ok out)
    (hfiles : ∀ f ∈ files, Portable f) (hlen : out.val.length < 2 ^ 30)
    (hloc : encryptedLocator X files opts password methods = false → locatorOf out.val = none)
    (kind : SourceKind) :
    ∃ a, Archive.open { kind, bytes := out.val } = .ok a ∧ a.entries.length = files.length ∧
      ∀ i f, files[i]? = some f → ReadsWith X a i password f.data.val := by
  obtain ⟨cfs, hcfs, hwrite⟩ := bind_ok.mp h
  obtain ⟨cfs₀, hc, he⟩ := encryptedFiles_ok hcfs
  have hstored := stored_files hc he
  obtain ⟨s, -, hs, -, -⟩ := writeCompressed_ok hwrite
  obtain ⟨es, hlaid⟩ := writeCompressed_stored hstored (fun f hf => (hfiles f hf).name_fits) hs hwrite
  have hsafe (cf : CompressedFile) (hcf : cf ∈ cfs) : pathTraversal cf.name = false := by
    obtain ⟨f, hf, hk⟩ := exists_stored hstored hcf
    rw [hk.name]
    exact (hfiles f hf).name_safe
  have hsize (cf : CompressedFile) (hcf : cf ∈ cfs) :
      cf.compSize = UInt64.ofNat cf.data.val.length := by
    obtain ⟨f, -, hk⟩ := exists_stored hstored hcf
    exact hk.compSize
  have hlocator (hz : s.needZip64 cfs = false) : locatorOf out.val = none :=
    hloc (by simp only [encryptedLocator, hcfs, hs, hz])
  obtain ⟨z, hread⟩ := hlaid.read hlen hsafe hsize hlocator kind
  have hopen : Archive.open { kind, bytes := out.val } = _ := congrArg (· >>= _) hread
  refine ⟨_, hopen, ?_, fun i f hf => ?_⟩
  · show (es.map _).length = _
    rw [List.length_map, hstored.length_eq, ← hlaid.files, List.length_map]
  · obtain ⟨cf, hcf, hst⟩ := exists_of_forall₂ hstored hf
    rw [← hlaid.files, List.getElem?_map, Option.map_eq_some_iff] at hcf
    obtain ⟨e, he, rfl⟩ := hcf
    have hentry : (es.map fun e => e.file.entry e.offset)[i]? = some (e.file.entry e.offset) := by
      rw [List.getElem?_map, he]
      rfl
    exact readsWith_of_emitted hX hopen hentry (hlaid.emitted_out e (List.mem_of_getElem? he)) hst hlen

/-- Two files, one encrypted in each way. -/
theorem writeArchiveEncryptedMethods_sample : ∃ out,
    writeArchiveEncryptedMethods reference sampleFiles .default [0x70]
      [encryption.tradPkware, encryption.aes256] = .ok out ∧
    ∃ a, Archive.open { kind := .mmap, bytes := out.val } = .ok a ∧
      a.entries.length = sampleFiles.length ∧
      ∀ i f, sampleFiles[i]? = some f → ReadsWith reference a i [0x70] f.data.val := by
  obtain ⟨out, hout, hp⟩ := exists_ok (x := writeArchiveEncryptedMethods reference sampleFiles .default
      [0x70] [encryption.tradPkware, encryption.aes256])
    (p := fun out => decide (out.val.length < 2 ^ 30) && (locatorOf out.val).isNone)
    (by decide +kernel)
  rw [Bool.and_eq_true, decide_eq_true_eq, Option.isNone_iff_eq_none] at hp
  exact ⟨out, hout, writeArchiveEncryptedMethods_roundtrip (fun _ _ _ => reference_inflate_deflate) hout
    portable_sampleFiles hp.1 (fun _ => hp.2) .mmap⟩

end Kzip.Impl
