import Kzip.Proof.Close
import Kzip.Proof.Comment

/-!
# Opening what a close wrote

A close encrypts the files of its plan with the password of the handle, each with its own method. When a
reader uses the end record that is written (`Findable`), it opens the archive exactly if it accepts the entries,
and finds each file of the plan there (`closes_opened`).
-/

namespace Kzip.Impl

open Lib Lib.Utf8 Kzip.Spec

variable {X : Extern}

/-! ## The entry of a file -/

theorem opsys_version (opsys : UInt8) {version : UInt16} (h : version.toNat < 256) :
    (((opsys.toUInt16 <<< 8) ||| version) >>> 8).toUInt8 = opsys := by
  have hlt := opsys.toNat_lt
  rw [← UInt8.toNat_inj]
  simp [Nat.shiftRight_or_distrib]
  have hv : version.toNat >>> 8 = 0 := by
    rw [Nat.shiftRight_eq_div_pow]
    exact Nat.div_eq_of_lt h
  rw [hv, Nat.or_zero, Nat.shiftLeft_eq, Nat.shiftRight_eq_div_pow]
  omega

theorem versionNeeded_lt (cf : CompressedFile) (z : Bool) : (cf.versionNeeded z).toNat < 256 := by
  unfold CompressedFile.versionNeeded
  split
  · decide
  · split <;> decide

theorem userFields_entryFields (cf : CompressedFile) (offset : UInt64) :
    userFields (cf.entryFields offset) = userFields cf.extraFields := by
  have haes : userFields cf.aesFields = [] := by
    rw [CompressedFile.aesFields]
    split <;> rfl
  have hz : userFields (zip64Field (cf.zip64Values offset).overflowData) = [] := by
    unfold zip64Field
    split <;> rfl
  have hself : userFields (userFields cf.extraFields) = userFields cf.extraFields := by
    rw [userFields, userFields, List.filter_filter]
    simp only [Bool.and_self]
  have happend (a b : List ExtraField) : userFields (a ++ b) = userFields a ++ userFields b := List.filter_append ..
  rw [CompressedFile.entryFields, happend, happend, haes, hz, hself, List.append_nil, List.append_nil]

/-- Encryption leaves the metadata of a file as they are. -/
theorem shows_entry {f : ArchiveFile × UInt16} {cf₀ cf : CompressedFile} {password : Bytes}
    (h₀ : compressFile X .default f.1 = .ok cf₀) (hs : Sealed X password cf₀ cf)
    (hmethod : cf.encryptionMethod = f.2) (offset : UInt64) : ShowsMetadata (cf.entry offset) f := by
  obtain ⟨data, hdata, h₀⟩ := bind_ok.mp h₀
  have hkept : cf.name = cf₀.name ∧ cf.comment = cf₀.comment ∧ cf.extraFields = cf₀.extraFields ∧
      cf.lastModTime = cf₀.lastModTime ∧ cf.lastModDate = cf₀.lastModDate ∧ cf.opsys = cf₀.opsys ∧
      cf.externalAttributes = cf₀.externalAttributes ∧ cf.method = cf₀.method := by
    cases hs <;> exact ⟨rfl, rfl, rfl, rfl, rfl, rfl, rfl, rfl⟩
  cases h₀
  obtain ⟨hname, hcomment, hfields, htime, hdate, hopsys, hattributes, hcomp⟩ := hkept
  refine ⟨hname, ?_, htime, hdate, ?_, hattributes, ?_, ?_, hmethod⟩
  · exact congrArg (fun c => fromUtf8Lossy (c.getD [])) hcomment
  · exact (opsys_version cf.opsys (versionNeeded_lt cf _)).trans hopsys
  · exact (userFields_entryFields cf offset).trans (congrArg userFields hfields)
  · show CompressionMethod.fromU16 cf.method = _
    rw [hcomp]
    -- the other methods are refused when the data are compressed
    cases hm : f.1.method.getD CompressOptions.default.method with
    | store => rfl
    | deflate => rfl
    | bzip2 =>
      rw [hm] at hdata
      cases hdata
    | unsupported m =>
      rw [hm] at hdata
      cases hdata

/-- The region of a file that is encrypted with AES, as the reader measures it. -/
theorem regionFits_iff {f : ArchiveFile × UInt16} {cf₀ cf : CompressedFile} {password : Bytes}
    (h₀ : compressFile X .default f.1 = .ok cf₀) (hs : Sealed X password cf₀ cf)
    (hmethod : cf.encryptionMethod = f.2) :
    RegionFits X f ↔ (cf.isAes = true → cf.compSize ≤ maxCdSize) := by
  have hk := Stored.kept ⟨cf₀, compressFile_ok h₀, hs⟩
  have hplain := (compressFile_ok h₀).plain.not_aes
  have hsize : cf.compSize.toNat = cf.data.val.length := hk.toNat_compSize 0
  have haes : cf.isAes = isAesMethod f.2 := by rw [CompressedFile.isAes, hmethod]
  have hmax : cf.compSize ≤ maxCdSize ↔ cf.data.val.length ≤ 2 ^ 30 := by
    rw [UInt64.le_iff_toNat_le, hsize]
    exact Iff.rfl
  rw [hmax, haes]
  refine forall_congr' fun htrue => ?_
  have hlength : cf.data.val.length =
      aesSaltLength f.2 + winzipAesPasswordVerifyLength + cf₀.data.val.length + winzipAesHmacLength := by
    rw [← haes] at htrue
    cases hs with
    | plain =>
      rw [hplain] at htrue
      cases htrue
    | tradPkware _ => cases htrue
    | aes _ hsalt hval => rw [hval, length_aesEncryptData, hsalt, ← hmethod]
  rw [hlength]
  constructor
  · intro h
    exact h cf₀ h₀
  · intro h cf' hcf'
    cases h₀.symm.trans hcf'
    exact h

/-- An encrypted entry whose method is known asks for a password when it is opened. -/
theorem locked_entry {a : Archive} (hcache : a.CacheOk) {index : Nat} {d : Dirent}
    (hd : a.entries[index]? = some d) {off : Nat} (hoff : localHeaderLen a.src d.offset.toNat = .ok off)
    (henc : d.encrypted = true)
    (hmethod : isAesMethod d.encryptionMethod = true ∨ d.encryptionMethod = encryption.tradPkware) :
    LockedOut X a index := by
  intro calls sched hnone
  have hgrown := grown_after X calls a
  obtain ⟨d', hd', hu⟩ : ∃ d', (after X calls a).entries[index]? = some d' ∧ uncached d' = uncached d := by
    have hentry : ((after X calls a).entries.map uncached)[index]? = some (uncached d) := by
      rw [hgrown.entries, List.getElem?_map, hd]
      rfl
    rwa [List.getElem?_map, Option.map_eq_some_iff] at hentry
  have hoffset : d'.offset = d.offset := (congrArg Dirent.offset hu :)
  have hflags : d'.bitflags = d.bitflags := (congrArg Dirent.bitflags hu :)
  have henc' : d'.encrypted = true := by
    rw [Dirent.encrypted, hflags]
    exact henc
  have hmethod' : d'.encryptionMethod = d.encryptionMethod := (congrArg Dirent.encryptionMethod hu :)
  have hfind : d'.findDataOffset (after X calls a).src = .ok off := by
    rw [findDataOffset_eq (hgrown.cache hcache) (List.mem_of_getElem? hd'), hgrown.src, hoffset, hoff]
  have hresolve : ((after X calls a).cacheOffset index off).resolvePassword none = .error (.err .nopasswd) := by
    have hpassword : ((after X calls a).cacheOffset index off).password = none := hnone
    rw [Archive.resolvePassword, hpassword]
    rfl
  have hstream : ((after X calls a).cacheOffset index off).openStreaming X d' off none =
      .error (.err .nopasswd) := by
    rw [Archive.openStreaming, if_pos henc', hmethod']
    rcases hmethod with haes | htrad
    · rw [if_pos haes, Archive.openAes, hresolve]
      rfl
    · rw [htrad, if_neg (by decide), if_neg (by simp), Archive.openZipCrypto, hresolve]
      rfl
  rw [Archive.readEntry, readEntry_eq hd', Archive.openDirent, hfind]
  dsimp only
  rw [openZeroCopy_encrypted henc', hstream]
  rfl

/-! ## What a close writes -/

/-- A close writes with the password of the handle: where that is not known nothing is to be encrypted, and any
will do. -/
theorem closes_with_password {sched : Nat → Schedule} {z : Zip} {plan : List (ArchiveFile × UInt16)} {out : Vec}
    (h : Closes X sched z plan out) :
    writeArchiveFull X (plan.map (·.1)) .default (closePassword z) (plan.map (·.2)) (closeComment z) = .ok out := by
  have hmaterialize := h.materialize
  rw [Zip.materialize, h.planned, ok_bind] at hmaterialize
  dsimp only at hmaterialize
  split at hmaterialize
  · split at hmaterialize
    · rename_i hpassword
      rw [closePassword, hpassword]
      exact hmaterialize
    · cases hmaterialize
  · rename_i hplain
    have hnone : ∀ m ∈ plan.map (·.2), m = encryption.none := by
      intro m hm
      obtain ⟨f, hf, rfl⟩ := List.mem_map.mp hm
      by_contra hne
      exact hplain (List.any_eq_true.mpr ⟨f, hf, bne_iff_ne.mpr hne⟩)
    rw [ok_bind, writeArchiveFull] at hmaterialize
    obtain ⟨cfs, hcfs, hwrite⟩ := bind_ok.mp hmaterialize
    obtain ⟨cfs', he, hwrite⟩ := bind_ok.mp hwrite
    have hlen := encryptFiles_length he
    rw [encryptFiles_none hnone hlen] at he
    cases he
    exact bind_ok.mpr ⟨cfs, hcfs, bind_ok.mpr ⟨cfs, encryptFiles_none hnone hlen, hwrite⟩⟩

/-- The file of a plan was compressed, then perhaps encrypted, with its own method. -/
def StoredAs (X : Extern) (password : Bytes) (f : ArchiveFile × UInt16) (cf : CompressedFile) : Prop :=
  ∃ cf₀, compressFile X .default f.1 = .ok cf₀ ∧ Sealed X password cf₀ cf ∧ cf.encryptionMethod = f.2

theorem StoredAs.stored {password : Bytes} {f : ArchiveFile × UInt16} {cf : CompressedFile}
    (h : StoredAs X password f cf) : Stored X password f.1 cf := by
  obtain ⟨cf₀, h₀, hs, -⟩ := h
  exact ⟨cf₀, compressFile_ok h₀, hs⟩

section
variable {password : Bytes} {plan : List (ArchiveFile × UInt16)} {cfs₀ cfs : List CompressedFile}

/-- With a method for each file, no list of methods is taken for none. -/
theorem encryptFiles_zip {methods : List UInt16} (hlen : methods.length = cfs₀.length)
    (he : encryptFiles X password methods cfs₀ = .ok cfs) :
    (cfs₀.zip methods).zipIdx.mapM (fun c => encryptFile X password c.2 c.1.1 c.1.2) = .ok cfs := by
  rw [encryptFiles] at he
  split at he
  · rename_i hnil
    cases he
    rw [hnil, List.length_nil, eq_comm, List.length_eq_zero_iff] at hlen
    rw [hlen, hnil]
    rfl
  · exact (guard_ok.mp he).2

theorem storedAs_files (hc : compressFiles X (plan.map (·.1)) .default = .ok cfs₀)
    (he : encryptFiles X password (plan.map (·.2)) cfs₀ = .ok cfs) :
    List.Forall₂ (StoredAs X password) plan cfs := by
  have hcomp := mapM_ok.mp hc
  have hlen : plan.length = cfs₀.length := by rw [← hcomp.length_eq, List.length_map]
  have hfile := mapM_ok.mp (encryptFiles_zip (by rw [List.length_map, hlen]) he)
  have hlen' : plan.length = cfs.length := by
    rw [← hfile.length_eq, List.length_zipIdx, List.length_zip, List.length_map, hlen, Nat.min_self]
  refine List.forall₂_iff_get.mpr ⟨hlen', fun i h₁ h₂ => ?_⟩
  have h₀ : i < cfs₀.length := hlen ▸ h₁
  have hcompress := hcomp.get (by rwa [List.length_map]) h₀
  have hencrypt := hfile.get (by simpa [← hlen] using h₁) h₂
  simp only [List.get_eq_getElem, List.getElem_zipIdx, List.getElem_zip, List.getElem_map] at hcompress hencrypt
  exact ⟨_, hcompress, encryptFile_sealed hencrypt,
    encryptFile_method (compressFile_ok hcompress).plain hencrypt⟩

end

/-! ## What a reader finds -/

section
variable {kind : SourceKind} {out : Vec} {b : Archive} {k : Nat} {e : WrittenEntry}
  {password : Bytes}

/-- A file that was encrypted is refused without a password. -/
theorem lockedOut_of_emitted (hopen : Archive.open { kind, bytes := out.val } = .ok b)
    (hentry : b.entries[k]? = some (e.file.entry e.offset)) (he : Emitted out.val e)
    {f : ArchiveFile} (hst : Stored X password f e.file) (hmethod : e.file.encryptionMethod ≠ encryption.none) :
    LockedOut X b k := by
  obtain ⟨off, hoff, -, -⟩ := he.located hopen
  refine locked_entry (open_cacheOk hopen) hentry hoff ?_ ?_
  · rw [encrypted_entry, decide_eq_true hmethod]
  · rcases hst.kept.known.encryption with hnone | htrad | haes
    · exact absurd hnone hmethod
    · exact .inr htrad
    · exact .inl haes

/-- The entry that was written for a file of a plan. -/
theorem showsFile_of_emitted (hX : InvertsDeflate X) (hopen : Archive.open { kind, bytes := out.val } = .ok b)
    (hentry : b.entries[k]? = some (e.file.entry e.offset)) (he : Emitted out.val e)
    {f : ArchiveFile × UInt16} (hst : StoredAs X password f e.file) : ShowsFile X b password k f := by
  have hstored := hst.stored
  obtain ⟨cf₀, h₀, hs, hmethod⟩ := hst
  refine ⟨⟨_, hentry, shows_entry h₀ hs hmethod e.offset⟩, fun hnone => ?_, fun hsome => ?_, fun content => ?_⟩
  · exact readsAs_of_emitted hX hopen hentry he hstored (hmethod.trans hnone)
  · exact lockedOut_of_emitted hopen hentry he hstored (hmethod.trans_ne hsome)
  · rw [readsWith_emitted_iff hX hopen hentry he hstored, regionFits_iff h₀ hs hmethod]

/-- An archive that was written for a plan, and opened with all its entries. -/
theorem LaidOut.showsFile (hX : InvertsDeflate X) {Y : Extern} {cfs : List CompressedFile} {comment : Bytes}
    {s : WriteState} {es : List WrittenEntry} {plan : List (ArchiveFile × UInt16)}
    (h : LaidOut Y cfs comment out s es) (hst : List.Forall₂ (StoredAs X password) plan cfs)
    (hopen : Archive.open { kind, bytes := out.val } = .ok b)
    (hentries : b.entries = es.map fun e => e.file.entry e.offset) :
    b.entries.length = plan.length ∧ ∀ k f, plan[k]? = some f → ShowsFile X b password k f := by
  refine ⟨?_, fun k f hf => ?_⟩
  · rw [hentries, hst.length_eq, ← h.files, List.length_map, List.length_map]
  · obtain ⟨cf, hcf, hst⟩ := exists_of_forall₂ hst hf
    rw [← h.files, List.getElem?_map, Option.map_eq_some_iff] at hcf
    obtain ⟨e, he, rfl⟩ := hcf
    have hentry : b.entries[k]? = some (e.file.entry e.offset) := by
      rw [hentries, List.getElem?_map, he]
      rfl
    exact showsFile_of_emitted hX hopen hentry (h.emitted_out e (List.mem_of_getElem? he)) hst

end

/-- A reader can find what is written: the names fit their length fields, and the end record is the one that
it uses. -/
structure Findable (X : Extern) (kind : SourceKind) (z : Zip) (plan : List (ArchiveFile × UInt16)) : Prop where
  names : ∀ f ∈ plan, (asBytes f.1.name).length ≤ 0xFFFF
  endRecord : EndRecordUsed X kind (plan.map (·.1)) .default (closePassword z) (plan.map (·.2)) (closeComment z)

/-- The comment is too short for an end record, and there is no locator before the one that is written. -/
def shortTail (X : Extern) (z : Zip) (plan : List (ArchiveFile × UInt16)) : Bool :=
  decide ((closeComment z).length < 4) &&
    ((sealedFiles X (plan.map (·.1)) .default (closePassword z) (plan.map (·.2))).toOption.bind fun cfs =>
      (writeEntries cfs).toOption).all fun s =>
        (locatorBefore (s.out ++ s.cdir) (s.out ++ s.cdir).length).isNone

theorem findable_of_shortTail {kind : SourceKind} {z : Zip} {plan : List (ArchiveFile × UInt16)}
    (hnames : ∀ f ∈ plan, (asBytes f.1.name).length ≤ 0xFFFF) (h : shortTail X z plan = true) :
    Findable X kind z plan := by
  obtain ⟨hlen, htail⟩ := Bool.and_eq_true_iff.mp h
  exact ⟨hnames, endRecordUsed_of_short (of_decide_eq_true hlen) htail⟩

/-- A reader accepts the entries that are written. -/
def AcceptsPlan (X : Extern) (z : Zip) (plan : List (ArchiveFile × UInt16)) : Prop :=
  EntriesAccepted X (plan.map (·.1)) .default (closePassword z) (plan.map (·.2))

/-- What a close writes is opened exactly when its entries are accepted, and shows each file of the plan. -/
theorem closes_opened (hX : InvertsDeflate X) {sched : Nat → Schedule} {z : Zip}
    {plan : List (ArchiveFile × UInt16)} {out : Vec} (h : Closes X sched z plan out) {kind : SourceKind}
    (hfind : Findable X kind z plan) :
    ((∃ b, Archive.open { kind, bytes := out.val } = .ok b) ↔ AcceptsPlan X z plan) ∧
    ∀ b, Archive.open { kind, bytes := out.val } = .ok b → b.entries.length = plan.length ∧
      ∀ k f, plan[k]? = some f → ShowsFile X b (closePassword z) k f := by
  obtain ⟨cfs₀, hc, hw⟩ := bind_ok.mp (closes_with_password h)
  obtain ⟨cfs, he, hw⟩ := bind_ok.mp hw
  have hsealed : sealedFiles X (plan.map (·.1)) .default (closePassword z) (plan.map (·.2)) = .ok cfs :=
    bind_ok.mpr ⟨cfs₀, hc, he⟩
  have hstored := stored_files hc he
  obtain ⟨s, -, hs, -, -⟩ := writeCompressed_ok hw
  obtain ⟨es, hlaid⟩ := writeCompressed_stored hstored (List.forall_mem_map.mpr hfind.names) hs hw
  have hsafe := hfind.endRecord cfs s hsealed hs
  have haccepts : AcceptsPlan X z plan ↔ s.cdir.length ≤ 2 ^ 30 ∧ ∀ e ∈ es, e.file.Accepted e.offset := by
    rw [hlaid.accepted_iff hstored]
    refine and_congr_right fun _ => ⟨fun h => h cfs hsealed, fun h cfs' hcfs' => ?_⟩
    cases hsealed.symm.trans hcfs'
    exact h
  rw [haccepts]
  refine ⟨⟨fun ⟨b, hopen⟩ => hlaid.of_open hsafe hopen, fun hacc => ?_⟩, fun b hopen => ?_⟩
  · obtain ⟨b, hopen, -⟩ := hlaid.opens hsafe hacc
    exact ⟨b, hopen⟩
  · obtain ⟨b', hopen', hentries⟩ := hlaid.opens hsafe (hlaid.of_open hsafe hopen)
    cases hopen.symm.trans hopen'
    exact hlaid.showsFile hX (storedAs_files hc he) hopen hentries

end Kzip.Impl
