import Kzip.Proof.Encrypted
import Kzip.Spec.Comment

/-!
# What an archive comment can change

Two runs of the writer on the same files give entries that differ in their ciphertext at most
(`Twins`), at the same offsets. So the two archives are read alike when a reader uses the end record of
each (`sameArchive_iff`); a comment that a reader takes for an end record breaks this
(`comment_spoils_archive`).
-/

namespace Kzip.Impl

open Lib Lib.Utf8 Kzip.Spec

variable {X : Extern}

/-! ## Another salt -/

theorem aesEncryptData_withSalt (salt : Nat → (n : Nat) → Vector UInt8 n) (password : Bytes)
    (method : UInt16) (data saltBytes : Bytes) :
    aesEncryptData (withSalt X salt) password method data saltBytes =
      aesEncryptData X password method data saltBytes := by
  have hloop := aesCtrLoop_congr (show (withSalt X salt).encryptBlock = X.encryptBlock from rfl)
  simp only [aesEncryptData, aesCtrApply, hloop]
  rfl

theorem Sealed.of_withSalt {salt : Nat → (n : Nat) → Vector UInt8 n} {password : Bytes}
    {cf₀ cf : CompressedFile} (h : Sealed (withSalt X salt) password cf₀ cf) :
    Sealed X password cf₀ cf := by
  cases h with
  | plain => exact .plain
  | tradPkware h => exact .tradPkware h
  | aes hem hsalt h => exact .aes hem hsalt (h.trans (aesEncryptData_withSalt ..))

/-- An encrypted file records the method that was asked for. -/
theorem encryptFile_method {password : Bytes} {index : Nat} {em : UInt16} {cf₀ cf : CompressedFile}
    (hp : cf₀.Plain) (h : encryptFile X password index cf₀ em = .ok cf) : cf.encryptionMethod = em := by
  simp only [encryptFile] at h
  split at h
  · rename_i hnone
    cases h
    exact hp.encryption.trans hnone.symm
  · split at h
    · rename_i htrad
      obtain ⟨data, -, h⟩ := bind_ok.mp h
      cases h
      exact htrad.symm
    · split at h
      · obtain ⟨data, -, h⟩ := bind_ok.mp h
        cases h
        rfl
      · cases h

/-! ## Twins -/

/-- The same file, compressed and then encrypted by the same method in two runs. -/
structure Twins (X : Extern) (password : Bytes) (cf₁ cf₂ : CompressedFile) : Prop where
  origin : ∃ f cf₀, Compressed X f cf₀ ∧ Sealed X password cf₀ cf₁ ∧ Sealed X password cf₀ cf₂
  method : cf₁.encryptionMethod = cf₂.encryptionMethod

/-- They differ in their data at most, which have one length. -/
theorem Twins.same {password : Bytes} {cf₁ cf₂ : CompressedFile} (h : Twins X password cf₁ cf₂) :
    ∃ data, cf₂ = { cf₁ with data } ∧ data.val.length = cf₁.data.val.length := by
  obtain ⟨⟨f, cf₀, hcomp, hs₁, hs₂⟩, hm⟩ := h
  have hnone : cf₀.encryptionMethod = encryption.none := hcomp.plain.encryption
  have htrad : encryption.tradPkware ≠ encryption.none := by decide
  cases hs₁ with
  | plain =>
    cases hs₂ with
    | plain => exact ⟨_, rfl, rfl⟩
    | tradPkware _ => exact absurd (hm.symm.trans hnone) htrad
    | aes hem _ _ => exact absurd (hm.symm.trans hnone) (aes_ne_none hem)
  | @tradPkware data₁ hval₁ =>
    cases hs₂ with
    | plain => exact absurd (hm.trans hnone) htrad
    | @tradPkware data₂ hval₂ =>
      obtain rfl : data₁ = data₂ := Subtype.ext (hval₁.trans hval₂.symm)
      exact ⟨data₁, rfl, rfl⟩
    | aes hem _ _ =>
      cases hm
      cases hem
  | @aes data₁ em salt₁ hem hsalt₁ hval₁ =>
    cases hs₂ with
    | plain => exact absurd (hm.trans hnone) (aes_ne_none hem)
    | tradPkware _ =>
      cases hm
      cases hem
    | @aes data₂ em' salt₂ hem' hsalt₂ hval₂ =>
      obtain rfl : em = em' := hm
      have hlen : data₂.val.length = data₁.val.length := by
        rw [hval₁, hval₂, length_aesEncryptData, length_aesEncryptData, hsalt₁, hsalt₂]
      exact ⟨data₂, by rw [hlen], hlen⟩

/-- Their entries hold the same compressed bytes. -/
theorem Twins.compressed {password : Bytes} {cf₁ cf₂ : CompressedFile} (h : Twins X password cf₁ cf₂)
    {bytes₁ bytes₂ : Bytes} {off₁ off₂ : Nat} (hdata₁ : cf₁.data.val <+: bytes₁.drop off₁)
    (hdata₂ : cf₂.data.val <+: bytes₂.drop off₂) (offset : UInt64) {pw : Option Bytes}
    (hpw : pw = none ∨ pw = some password) :
    Spec.compressed X bytes₁ (cf₁.entry offset) off₁ pw =
      Spec.compressed X bytes₂ (cf₂.entry offset) off₂ pw := by
  obtain ⟨data, hsame, -⟩ := h.same
  have haes : cf₁.isAes = cf₂.isAes := by rw [hsame]; rfl
  have hsize : cf₁.compSize = cf₂.compSize := by rw [hsame]
  obtain ⟨f, cf₀, hcomp, hs₁, hs₂⟩ := h.origin
  have hkept₁ := (Stored.kept ⟨cf₀, hcomp, hs₁⟩).compSize
  have hkept₂ := (Stored.kept ⟨cf₀, hcomp, hs₂⟩).compSize
  rcases hpw with rfl | rfl
  · rw [compressed_entry_none hcomp.plain hkept₁ hs₁ hdata₁,
      compressed_entry_none hcomp.plain hkept₂ hs₂ hdata₂, h.method]
  · rw [compressed_entry hcomp.plain hkept₁ hs₁ hdata₁, compressed_entry hcomp.plain hkept₂ hs₂ hdata₂]
    simp only [haes, hsize]

/-- Two runs on the same files. -/
theorem twins_files {salt : Nat → (n : Nat) → Vector UInt8 n} {files : List ArchiveFile}
    {opts : CompressOptions} {password : Bytes} {methods : List UInt16}
    {cfs₀ cfs₁ cfs₂ : List CompressedFile} (hc : compressFiles X files opts = .ok cfs₀)
    (he₁ : encryptFiles X password methods cfs₀ = .ok cfs₁)
    (he₂ : encryptFiles (withSalt X salt) password methods cfs₀ = .ok cfs₂) :
    List.Forall₂ (Twins X password) cfs₁ cfs₂ := by
  have hcomp := compressFiles_ok hc
  simp only [encryptFiles] at he₁ he₂
  by_cases hnil : methods = []
  · rw [if_pos hnil] at he₁ he₂
    cases he₁
    cases he₂
    refine List.forall₂_same.mpr fun cf hcf => ?_
    obtain ⟨f, -, hf⟩ := exists_compressed hcomp hcf
    exact ⟨⟨f, cf, hf, .plain, .plain⟩, rfl⟩
  · rw [if_neg hnil] at he₁ he₂
    obtain ⟨hlen, he₁⟩ := guard_ok.mp he₁
    obtain ⟨-, he₂⟩ := guard_ok.mp he₂
    refine (forall₂_common (mapM_ok.mp he₁) (mapM_ok.mp he₂)).imp fun cf₁ cf₂ h => ?_
    obtain ⟨c, hc, h₁, h₂⟩ := h
    have hmem : c.1.1 ∈ cfs₀ :=
      map_zip_zipIdx (Classical.not_not.mp hlen) ▸ List.mem_map.mpr ⟨c, hc, rfl⟩
    obtain ⟨f, -, hf⟩ := exists_compressed hcomp hmem
    exact ⟨⟨f, c.1.1, hf, encryptFile_sealed h₁, (encryptFile_sealed h₂).of_withSalt⟩,
      (encryptFile_method hf.plain h₁).trans (encryptFile_method hf.plain h₂).symm⟩

/-- What depends neither on the data nor on the salt is the same for all of the entries. -/
theorem positions_twins {β : Type} {password : Bytes} {g : CompressedFile → UInt64 → β}
    (hg : ∀ cf data offset, data.val.length = cf.data.val.length →
      g { cf with data } offset = g cf offset)
    {cfs₁ cfs₂ : List CompressedFile} (h : List.Forall₂ (Twins X password) cfs₁ cfs₂) (pos : Nat) :
    (positions pos cfs₁).map (fun p => g p.1 p.2) = (positions pos cfs₂).map (fun p => g p.1 p.2) := by
  induction h generalizing pos with
  | nil => rfl
  | cons hcf _ ih =>
    obtain ⟨data, rfl, hlen⟩ := hcf.same
    have hlocal (cf : CompressedFile) (data : Vec) (hlen : data.val.length = cf.data.val.length) :
        entryLength { cf with data } = entryLength cf := by
      show _ + _ + _ + _ + data.val.length + _ + _ = _ + _ + _ + _ + cf.data.val.length + _ + _
      rw [hlen]
      rfl
    simp only [positions, List.map_cons, hlocal _ data hlen, hg _ data _ hlen, ih]

/-! ## Reading -/

/-- The end record that is written with the comment is the one a reader uses. -/
def EndRecordUsed (X : Extern) (kind : SourceKind) (files : List ArchiveFile) (opts : CompressOptions)
    (password : Bytes) (methods : List UInt16) (comment : Bytes) : Prop :=
  ∀ cfs s, sealedFiles X files opts password methods = .ok cfs → writeEntries cfs = .ok s →
    s.TailSafe cfs kind comment

/-- A reader accepts the entries: every name passes the guard, the directory is not too large, and no
size or offset equals a sentinel next to one that overflows. -/
def EntriesAccepted (X : Extern) (files : List ArchiveFile) (opts : CompressOptions) (password : Bytes)
    (methods : List UInt16) : Prop :=
  (∀ f ∈ files, pathTraversal f.name = false) ∧
    ∀ cfs, sealedFiles X files opts password methods = .ok cfs →
      recordsLength cfs ≤ 2 ^ 30 ∧ ∀ p ∈ positions 0 cfs, (p.1.zip64Values p.2).Unambiguous

/-- The entries are accepted when their names, the directory and their sizes are. -/
theorem LaidOut.accepted_iff {files : List ArchiveFile} {password comment : Bytes}
    {cfs : List CompressedFile} {out : Vec} {s : WriteState} {es : List WrittenEntry} {Y : Extern}
    (h : LaidOut Y cfs comment out s es) (hst : List.Forall₂ (Stored X password) files cfs) :
    (s.cdir.length ≤ 2 ^ 30 ∧ ∀ e ∈ es, e.file.Accepted e.offset) ↔
      (∀ f ∈ files, pathTraversal f.name = false) ∧ recordsLength cfs ≤ 2 ^ 30 ∧
        ∀ p ∈ Spec.positions 0 cfs, (p.1.zip64Values p.2).Unambiguous := by
  have hlen : s.cdir.length = recordsLength cfs := by
    rw [h.cdir, length_records h.emitted h.positions]
  rw [hlen]
  constructor
  · rintro ⟨hmax, hacc⟩
    refine ⟨fun f hf => ?_, hmax, fun p hp => ?_⟩
    · obtain ⟨i, hi⟩ := List.mem_iff_getElem?.mp hf
      obtain ⟨cf, hcf, hst⟩ := exists_of_forall₂ hst hi
      rw [← h.files, List.getElem?_map, Option.map_eq_some_iff] at hcf
      obtain ⟨e, he, rfl⟩ := hcf
      rw [← hst.kept.name]
      exact (hacc e (List.mem_of_getElem? he)).name
    · rw [← h.positions] at hp
      obtain ⟨e, he, rfl⟩ := List.mem_map.mp hp
      exact (hacc e he).zip64
  · rintro ⟨hnames, hmax, hzip64⟩
    refine ⟨hmax, fun e he => ⟨?_, ?_⟩⟩
    · obtain ⟨f, hf, hk⟩ := exists_stored hst (h.files ▸ List.mem_map.mpr ⟨e, he, rfl⟩)
      rw [hk.name]
      exact hnames f hf
    · exact hzip64 (e.file, e.offset) (h.positions ▸ List.mem_map.mpr ⟨e, he, rfl⟩)

section
variable {Y₁ Y₂ : Extern} {cfs₁ cfs₂ : List CompressedFile} {comment₁ comment₂ : Bytes} {out₁ out₂ : Vec}
  {s₁ s₂ : WriteState} {es₁ es₂ : List WrittenEntry} {kind : SourceKind} {password : Bytes}

theorem LaidOut.opens (h : LaidOut Y₁ cfs₁ comment₁ out₁ s₁ es₁) (hsafe : s₁.TailSafe cfs₁ kind comment₁)
    (hacc : s₁.cdir.length ≤ 2 ^ 30 ∧ ∀ e ∈ es₁, e.file.Accepted e.offset) :
    ∃ a, Archive.open { kind, bytes := out₁.val } = .ok a ∧
      a.entries = es₁.map fun e => e.file.entry e.offset := by
  obtain ⟨z, hread⟩ := (h.read_iff hsafe).1 hacc.1 hacc.2
  exact ⟨_, congrArg (· >>= _) hread, rfl⟩

theorem LaidOut.of_open (h : LaidOut Y₁ cfs₁ comment₁ out₁ s₁ es₁)
    (hsafe : s₁.TailSafe cfs₁ kind comment₁) {a : Archive}
    (hopen : Archive.open { kind, bytes := out₁.val } = .ok a) :
    s₁.cdir.length ≤ 2 ^ 30 ∧ ∀ e ∈ es₁, e.file.Accepted e.offset := by
  obtain ⟨cd, hread, -⟩ := bind_ok.mp hopen
  exact (h.read_iff hsafe).2 cd hread

theorem LaidOut.map_entry (h : LaidOut Y₁ cfs₁ comment₁ out₁ s₁ es₁) :
    es₁.map (fun e => e.file.entry e.offset) =
      (Spec.positions 0 cfs₁).map fun p => p.1.entry p.2 := by
  rw [← h.positions, List.map_map]
  rfl

/-- The entries at one index of two archives hold the same content. -/
theorem readEntry_twins {a₁ a₂ : Archive}
    (hopen₁ : Archive.open { kind, bytes := out₁.val } = .ok a₁)
    (hopen₂ : Archive.open { kind, bytes := out₂.val } = .ok a₂) {i : Nat} {e₁ e₂ : WrittenEntry}
    (hentry₁ : a₁.entries[i]? = some (e₁.file.entry e₁.offset))
    (hentry₂ : a₂.entries[i]? = some (e₂.file.entry e₂.offset)) (he₁ : Emitted out₁.val e₁)
    (he₂ : Emitted out₂.val e₂) (htwins : Twins X password e₁.file e₂.file)
    (hentry : e₁.file.entry e₁.offset = e₂.file.entry e₂.offset) (hoffset : e₁.offset = e₂.offset)
    (sched : Schedule) {pw : Option Bytes} (hpw : pw = none ∨ pw = some password) :
    (a₁.readEntryWithPassword X sched i pw).1.toOption =
      (a₂.readEntryWithPassword X sched i pw).1.toOption := by
  obtain ⟨f, cf₀, hcomp, hs₁, hs₂⟩ := htwins.origin
  obtain ⟨off₁, hdata₁, hread₁⟩ := readEntry_emitted (X := X) hopen₁ hentry₁ he₁
    (Stored.kept ⟨cf₀, hcomp, hs₁⟩)
  obtain ⟨off₂, hdata₂, hread₂⟩ := readEntry_emitted (X := X) hopen₂ hentry₂ he₂
    (Stored.kept ⟨cf₀, hcomp, hs₂⟩)
  have hcompressed := htwins.compressed hdata₁ hdata₂ e₁.offset hpw
  refine Option.ext fun v => ?_
  rw [toOption_eq_some, toOption_eq_some, hread₁, hread₂, Holds, Holds, hcompressed, hentry, hoffset]

/-- Two archives of twins are read alike. -/
theorem LaidOut.sameArchive (h₁ : LaidOut Y₁ cfs₁ comment₁ out₁ s₁ es₁)
    (h₂ : LaidOut Y₂ cfs₂ comment₂ out₂ s₂ es₂) (htwins : List.Forall₂ (Twins X password) cfs₁ cfs₂)
    {a₁ a₂ : Archive} (hopen₁ : Archive.open { kind, bytes := out₁.val } = .ok a₁)
    (hopen₂ : Archive.open { kind, bytes := out₂.val } = .ok a₂)
    (hentries₁ : a₁.entries = es₁.map fun e => e.file.entry e.offset)
    (hentries₂ : a₂.entries = es₂.map fun e => e.file.entry e.offset) :
    SameArchive X kind password out₁ out₂ := by
  have hoffsets : es₁.map (·.offset) = es₂.map (·.offset) := by
    have h := positions_twins (g := fun _ offset => offset) (fun _ _ _ _ => rfl) htwins 0
    rw [← h₁.positions, ← h₂.positions, List.map_map, List.map_map] at h
    exact h
  have heq : a₁.entries = a₂.entries := by
    rw [hentries₁, hentries₂, h₁.map_entry, h₂.map_entry]
    exact positions_twins (g := CompressedFile.entry) (fun _ _ _ _ => rfl) htwins 0
  refine ⟨a₁, a₂, hopen₁, hopen₂, heq, fun sched index pw hpw => ?_⟩
  cases hi₁ : es₁[index]? with
  | none =>
    have hnone : a₁.entries[index]? = none := by rw [hentries₁, List.getElem?_map, hi₁]; rfl
    rw [readEntry_missing hnone, readEntry_missing (heq ▸ hnone)]
  | some e₁ =>
    have hcf : cfs₁[index]? = some e₁.file := by rw [← h₁.files, List.getElem?_map, hi₁]; rfl
    obtain ⟨cf₂, hcf₂, htwin⟩ := exists_of_forall₂ htwins hcf
    rw [← h₂.files, List.getElem?_map, Option.map_eq_some_iff] at hcf₂
    obtain ⟨e₂, hi₂, rfl⟩ := hcf₂
    have hentry₁ : a₁.entries[index]? = some (e₁.file.entry e₁.offset) := by
      rw [hentries₁, List.getElem?_map, hi₁]
      rfl
    have hentry₂ : a₂.entries[index]? = some (e₂.file.entry e₂.offset) := by
      rw [hentries₂, List.getElem?_map, hi₂]
      rfl
    have hentry : e₁.file.entry e₁.offset = e₂.file.entry e₂.offset :=
      Option.some.inj (hentry₁.symm.trans (heq ▸ hentry₂))
    have hoffset : e₁.offset = e₂.offset := by
      have h := congrArg (·[index]?) hoffsets
      simpa only [List.getElem?_map, hi₁, hi₂, Option.map_some, Option.some.injEq] using h
    exact readEntry_twins hopen₁ hopen₂ hentry₁ hentry₂ (h₁.emitted_out e₁ (List.mem_of_getElem? hi₁))
      (h₂.emitted_out e₂ (List.mem_of_getElem? hi₂)) htwin hentry hoffset sched hpw

end

/-- The directories and the sizes of twins are accepted together. -/
theorem accepted_twins {password : Bytes} {cfs₁ cfs₂ : List CompressedFile}
    (h : List.Forall₂ (Twins X password) cfs₁ cfs₂) :
    (recordsLength cfs₁ ≤ 2 ^ 30 ∧ ∀ p ∈ positions 0 cfs₁, (p.1.zip64Values p.2).Unambiguous) →
      recordsLength cfs₂ ≤ 2 ^ 30 ∧ ∀ p ∈ positions 0 cfs₂, (p.1.zip64Values p.2).Unambiguous := by
  have hlen : recordsLength cfs₁ = recordsLength cfs₂ :=
    congrArg List.sum (positions_twins (g := recordLength) (fun _ _ _ _ => rfl) h 0)
  have hvalues := positions_twins (g := CompressedFile.zip64Values) (fun _ _ _ _ => rfl) h 0
  rintro ⟨hmax, hzip64⟩
  refine ⟨hlen ▸ hmax, fun p hp => ?_⟩
  have hmem : p.1.zip64Values p.2 ∈ (positions 0 cfs₁).map fun p => p.1.zip64Values p.2 :=
    hvalues ▸ List.mem_map.mpr ⟨p, hp, rfl⟩
  obtain ⟨q, hq, heq⟩ := List.mem_map.mp hmem
  rw [← heq]
  exact hzip64 q hq

/-- Archives of the same files with different comments are read alike exactly when the entries are
accepted, as long as a reader uses the end record of each. -/
theorem sameArchive_iff {salt : Nat → (n : Nat) → Vector UInt8 n} {files : List ArchiveFile}
    {opts : CompressOptions} {password : Bytes} {methods : List UInt16} {comment₁ comment₂ : Bytes}
    {out₁ out₂ : Vec} (h₁ : writeArchiveFull X files opts password methods comment₁ = .ok out₁)
    (h₂ : writeArchiveFull (withSalt X salt) files opts password methods comment₂ = .ok out₂)
    (hname : ∀ f ∈ files, (asBytes f.name).length ≤ 0xFFFF) {kind : SourceKind}
    (hused₁ : EndRecordUsed X kind files opts password methods comment₁)
    (hused₂ : EndRecordUsed (withSalt X salt) kind files opts password methods comment₂) :
    SameArchive X kind password out₁ out₂ ↔ EntriesAccepted X files opts password methods := by
  obtain ⟨cfs₀, hc, h₁⟩ := bind_ok.mp h₁
  obtain ⟨cfs₁, he₁, hw₁⟩ := bind_ok.mp h₁
  obtain ⟨cfs₀', hc', h₂⟩ := bind_ok.mp h₂
  obtain rfl : cfs₀ = cfs₀' := Except.ok.inj (hc.symm.trans hc')
  obtain ⟨cfs₂, he₂, hw₂⟩ := bind_ok.mp h₂
  have hsealed₁ : sealedFiles X files opts password methods = .ok cfs₁ := bind_ok.mpr ⟨cfs₀, hc, he₁⟩
  have hsealed₂ : sealedFiles (withSalt X salt) files opts password methods = .ok cfs₂ :=
    bind_ok.mpr ⟨cfs₀, hc', he₂⟩
  have htwins := twins_files hc he₁ he₂
  have hstored₁ := stored_files hc he₁
  have hstored₂ := stored_files hc' he₂
  obtain ⟨s₁, -, hs₁, -, -⟩ := writeCompressed_ok hw₁
  obtain ⟨s₂, -, hs₂, -, -⟩ := writeCompressed_ok hw₂
  obtain ⟨es₁, hlaid₁⟩ := writeCompressed_stored hstored₁ hname hs₁ hw₁
  obtain ⟨es₂, hlaid₂⟩ := writeCompressed_stored hstored₂ hname hs₂ hw₂
  have hsafe₁ := hused₁ cfs₁ s₁ hsealed₁ hs₁
  have hsafe₂ := hused₂ cfs₂ s₂ hsealed₂ hs₂
  constructor
  · rintro ⟨a₁, -, hopen₁, -⟩
    obtain ⟨hnames, hacc⟩ := (hlaid₁.accepted_iff hstored₁).mp (hlaid₁.of_open hsafe₁ hopen₁)
    refine ⟨hnames, fun cfs hcfs => ?_⟩
    obtain rfl : cfs₁ = cfs := Except.ok.inj (hsealed₁.symm.trans hcfs)
    exact hacc
  · rintro ⟨hnames, hacc⟩
    have hacc₁ := hacc cfs₁ hsealed₁
    obtain ⟨a₁, hopen₁, hentries₁⟩ :=
      hlaid₁.opens hsafe₁ ((hlaid₁.accepted_iff hstored₁).mpr ⟨hnames, hacc₁⟩)
    obtain ⟨a₂, hopen₂, hentries₂⟩ :=
      hlaid₂.opens hsafe₂ ((hlaid₂.accepted_iff hstored₂).mpr ⟨hnames, accepted_twins htwins hacc₁⟩)
    exact hlaid₁.sameArchive hlaid₂ htwins hopen₁ hopen₂ hentries₁ hentries₂

/-- A short comment is never taken for an end record. -/
theorem endRecordUsed_of_short {kind : SourceKind} {files : List ArchiveFile} {opts : CompressOptions}
    {password comment : Bytes} {methods : List UInt16} (hlen : comment.length < 4)
    (h : ((sealedFiles X files opts password methods).toOption.bind fun cfs =>
      (writeEntries cfs).toOption).all fun s =>
        (locatorBefore (s.out ++ s.cdir) (s.out ++ s.cdir).length).isNone) :
    EndRecordUsed X kind files opts password methods comment := by
  intro cfs s hcfs hs
  rw [hcfs] at h
  simp only [Except.toOption, Option.bind_some, hs, Option.all_some, Option.isNone_iff_eq_none] at h
  exact .of_short_comment hlen fun _ => h

/-- Two files, one encrypted in each way, with no comment and with a short one. -/
theorem sameArchive_sample : ∃ out₁ out₂,
    writeArchiveFull reference sampleFiles .default [0x70]
      [encryption.tradPkware, encryption.aes256] [] = .ok out₁ ∧
    writeArchiveFull (withSalt reference fun _ n => Vector.replicate n 1) sampleFiles .default [0x70]
      [encryption.tradPkware, encryption.aes256] [0x68, 0x69] = .ok out₂ ∧
    (SameArchive reference .vec [0x70] out₁ out₂ ↔
      EntriesAccepted reference sampleFiles .default [0x70]
        [encryption.tradPkware, encryption.aes256]) := by
  obtain ⟨out₁, hout₁, -⟩ := exists_ok (x := writeArchiveFull reference sampleFiles .default [0x70]
    [encryption.tradPkware, encryption.aes256] []) (p := fun _ => true) (by decide +kernel)
  obtain ⟨out₂, hout₂, -⟩ := exists_ok
    (x := writeArchiveFull (withSalt reference fun _ n => Vector.replicate n 1) sampleFiles .default
      [0x70] [encryption.tradPkware, encryption.aes256] [0x68, 0x69])
    (p := fun _ => true) (by decide +kernel)
  refine ⟨out₁, out₂, hout₁, hout₂, sameArchive_iff hout₁ hout₂ (fun f hf => ?_)
    (endRecordUsed_of_short (by decide) (by decide +kernel))
    (endRecordUsed_of_short (by decide) (by decide +kernel))⟩
  exact (portable_sampleFiles f hf).name_fits

/-- With an end record as its comment, the archive is refused. -/
theorem comment_spoils_archive : ∃ out₁ out₂,
    writeArchiveFull reference sampleFiles storeOptions [] [] [] = .ok out₁ ∧
    writeArchiveFull reference sampleFiles storeOptions [] [] strayEndRecord = .ok out₂ ∧
    strayEndRecord.length ≤ 0xFFFF ∧
    ¬ SameArchive reference .vec [] out₁ out₂ := by
  obtain ⟨out₁, hout₁, -⟩ := exists_ok
    (x := writeArchiveFull reference sampleFiles storeOptions [] [] []) (p := fun _ => true)
    (by decide +kernel)
  obtain ⟨out₂, hout₂, hp⟩ := exists_ok
    (x := writeArchiveFull reference sampleFiles storeOptions [] [] strayEndRecord)
    (p := fun out => (Archive.open { kind := .vec, bytes := out.val }).toOption.isNone)
    (by decide +kernel)
  refine ⟨out₁, out₂, hout₁, hout₂, by decide, ?_⟩
  rintro ⟨a₁, a₂, -, hopen, -⟩
  rw [hopen] at hp
  cases hp

end Kzip.Impl
