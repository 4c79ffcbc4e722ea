import Kzip.Impl.Reference
import Kzip.Proof.Archive
import Kzip.Spec.Stat

/-!
# Encrypted entries without a password

An entry whose record has the flag for encryption is not opened without a password
(`openDirent_encrypted`). One without the flag is opened as it is, if it can be (`openDirent_plain_iff`),
also when its record has AES data, as which it is reported (`hidesEncrypted_iff`).
-/

namespace Kzip.Impl

open Lib Kzip.Spec

variable {X : Extern} {a : Archive} {d : Dirent} {off : Nat}

/-! ## With the flag -/

theorem openStreaming_encrypted (henc : d.encrypted = true) (hpw : a.password = none) (r : EntryReader) :
    a.openStreaming X d off none ≠ .ok r := by
  have hresolve : a.resolvePassword none = .error (.err .nopasswd) := by
    rw [Archive.resolvePassword, hpw]
    rfl
  intro h
  rw [Archive.openStreaming, if_pos henc] at h
  split at h
  · rw [Archive.openAes, hresolve] at h
    cases h
  · obtain ⟨-, h⟩ := guard_ok.mp h
    rw [Archive.openZipCrypto, hresolve] at h
    cases h

/-! ## Without the flag -/

theorem new_isOk (src : Bytes) (method : CompressionMethod) (compSize uncompSize : UInt64) (crc : UInt32) :
    (∃ r, EntryReader.new X src method compSize uncompSize crc = .ok r) ↔
      ∀ v, method ≠ .unsupported v := by
  cases method with
  | unsupported v =>
    refine iff_of_false ?_ fun h => h v rfl
    rintro ⟨r, h⟩
    cases h
  | store | deflate | bzip2 => exact iff_of_true ⟨_, rfl⟩ fun v h => by cases h

theorem openShared_eq_none : a.openShared d off = none ↔ ¬ SharesBytes a.src d off := by
  rw [Archive.openShared, SharesBytes]
  by_cases hstore : d.compMethod = .store
  · rw [if_pos hstore]
    cases a.src.sharedData with
    | none => simp
    | some bs => by_cases hfit : off + d.compSize.toNat ≤ bs.length <;> simp [hstore, hfit]
  · simp [hstore]

/-- A slice gives a reader if its bytes decode at once, and none when the entry reaches beyond it. -/
theorem openSlice_isOk {slice : Bytes} (hslice : a.src.asSlice = some slice) {o : Result EntryReader}
    (ho : ∃ r, o = .ok r) :
    (∃ r, ((a.openSlice X d off).map (·.1)).getD o = .ok r) ↔ DecodesAtOnce X d off slice := by
  rw [Archive.openSlice, hslice]
  cases hstop : addUsize X off d.compSize.toNat with
  | error e =>
    refine iff_of_false ?_ ?_
    · rintro ⟨r, h⟩
      cases h
    · rintro ⟨stop, h, -⟩
      cases hstop.symm.trans h
  | ok stop =>
    have hat : DecodesAtOnce X d off slice ↔ (off ≤ min stop slice.length →
        ∃ v, decodeSliceInto X ((slice.drop off).take (min stop slice.length - off)) d.compMethod
          d.compSize [] = .ok v) := by
      constructor
      · rintro ⟨stop', h, hdec⟩
        cases hstop.symm.trans h
        exact hdec
      · exact fun hdec => ⟨stop, hstop, hdec⟩
    rw [hat]
    dsimp only
    by_cases hle : off ≤ min stop slice.length
    · rw [if_pos hle]
      -- the recycled buffer is cleared first
      have hclear (data : Bytes) : decodeSliceInto X data d.compMethod d.compSize a.pool.acquire.1 =
          decodeSliceInto X data d.compMethod d.compSize [] := rfl
      rw [hclear]
      cases decodeSliceInto X ((slice.drop off).take (min stop slice.length - off)) d.compMethod
        d.compSize [] with
      | error e => simp [hle]
      | ok v => simp [hle]
    · rw [if_neg hle]
      exact iff_of_true ho fun h => absurd h hle

/-- An entry without the flag is opened as it is. -/
theorem openPlain_iff (hplain : d.encrypted = false) (password : Option Bytes) :
    (∃ r, ((a.openZeroCopy X d off).map (·.1)).getD (a.openStreaming X d off password) = .ok r) ↔
      OpensPlain X a.src d off := by
  have hstream : (∃ r, a.openStreaming X d off password = .ok r) ↔ ∀ v, d.compMethod ≠ .unsupported v := by
    rw [Archive.openStreaming, if_neg (by rw [hplain]; exact Bool.false_ne_true)]
    exact new_isOk ..
  by_cases hzero : d.zeroCopy = true
  · have hcodec : ∀ v, d.compMethod ≠ .unsupported v := by
      intro v hv
      rw [Dirent.zeroCopy, hv, Bool.and_false, Bool.false_and] at hzero
      cases hzero
    have hsmall : d.uncompSize ≤ zeroCopyFastMaxUncomp := by
      rw [Dirent.zeroCopy, Bool.and_eq_true] at hzero
      exact of_decide_eq_true hzero.2
    rw [Archive.openZeroCopy, if_pos hzero]
    cases hshared : a.openShared d off with
    | some r =>
      have hshares : SharesBytes a.src d off := by
        by_contra h
        rw [openShared_eq_none.mpr h] at hshared
        cases hshared
      exact iff_of_true ⟨r, rfl⟩ ⟨hcodec, fun _ h => absurd hshares h⟩
    | none =>
      have hnot := openShared_eq_none.mp hshared
      cases hslice : a.src.asSlice with
      | none =>
        refine iff_of_true ?_ ⟨hcodec, fun _ _ _ h => by cases hslice.symm.trans h⟩
        rw [Archive.openSlice, hslice]
        exact hstream.mpr hcodec
      | some slice =>
        refine (openSlice_isOk hslice (hstream.mpr hcodec)).trans ⟨fun h => ⟨hcodec, ?_⟩, fun h => ?_⟩
        · rintro - - _ hs
          cases hslice.symm.trans hs
          exact h
        · exact h.small hsmall hnot slice hslice
  · rw [Archive.openZeroCopy, if_neg hzero]
    refine hstream.trans ⟨fun h => ⟨h, fun hsmall => absurd ?_ hzero⟩, OpensPlain.codec⟩
    rw [Dirent.zeroCopy, hplain, decide_eq_true hsmall]
    cases hm : d.compMethod with
    | unsupported v => exact absurd hm (h v)
    | store | deflate | bzip2 => rfl

/-! ## What is reported -/

/-- Without the flag, an entry is reported as encrypted only with method 99: as an AES entry, or as one
for which there is no codec. -/
theorem Dirent.Resolved.plain (h : d.Resolved) (hplain : d.encrypted = false) :
    d.encryptionMethod = encryption.none ∨ isAesMethod d.encryptionMethod = true ∨
      ∃ v, d.compMethod = .unsupported v := by
  obtain ⟨raw, h⟩ := h
  rw [resolveMethod] at h
  split at h
  · split at h
    · rename_i haes
      obtain ⟨-, hmethod⟩ := Prod.mk.inj h
      obtain ⟨henc, -⟩ := Prod.mk.inj hmethod
      rw [← henc]
      exact .inr (.inl (parseAesExtra_isAes haes))
    · obtain ⟨hm, -⟩ := Prod.mk.inj h
      exact .inr (.inr ⟨_, hm.symm⟩)
  · rw [if_neg (of_decide_eq_false hplain)] at h
    exact .inl (congrArg (fun r => r.2.1) h).symm

/-- Every entry of an archive was read from a record, whatever calls were made. -/
theorem after_resolved (X : Extern) {src : Source} (hopen : Archive.open src = .ok a)
    (calls : List ArchiveCall) : ∀ d ∈ (after X calls a).entries, d.Resolved := by
  intro d hd
  have hmem := List.mem_map_of_mem (f := uncached) hd
  rw [(grown_after X calls a).entries] at hmem
  obtain ⟨d₀, hd₀, hu⟩ := List.mem_map.mp hmem
  obtain ⟨cd, hcd, hopen⟩ := bind_ok.mp hopen
  cases hopen
  have hsame : d₀.Resolved = d.Resolved := (congrArg Dirent.Resolved hu :)
  exact hsame ▸ (readCentralDir_parsed hcd d₀ hd₀).resolved

/-- Opening an entry, once its data were found. -/
theorem openEntry_found {index : Nat} (hd : a.entries[index]? = some d)
    (hoff : d.findDataOffset a.src = .ok off) :
    (a.openEntry X index).1 = (((a.cacheOffset index off).openZeroCopy X d off).map (·.1)).getD
      ((a.cacheOffset index off).openStreaming X d off none) := by
  rw [Archive.openEntry, Archive.openEntryWithPassword, hd]
  dsimp only
  rw [Archive.openDirent, hoff]
  dsimp only
  cases (a.cacheOffset index off).openZeroCopy X d off <;> rfl

theorem stat_found (Z : Zone) {index : Nat} (hd : a.entries[index]? = some d) :
    (∃ st, a.stat Z index = .ok st ∧ st.encryptionMethod = some encryption.none) ↔
      d.encryptionMethod = encryption.none := by
  rw [Archive.stat, hd]
  constructor
  · rintro ⟨st, hst, he⟩
    cases hst
    exact Option.some.inj he
  · exact fun h => ⟨_, rfl, congrArg some h⟩

/-- An entry that opens without a password is reported as not encrypted, unless it has AES data but not the
flag, and opens as it is. -/
theorem opened_plain_iff (h : d.Resolved) (hnone : a.password = none) :
    (∀ r, ((a.openZeroCopy X d off).map (·.1)).getD (a.openStreaming X d off none) = .ok r →
        d.encryptionMethod = encryption.none) ↔
      ¬ (isAesMethod d.encryptionMethod = true ∧ d.encrypted = false ∧ OpensPlain X a.src d off) := by
  by_cases henc : d.encrypted = true
  · refine iff_of_true (fun r hr => ?_) fun hserved => ?_
    · rw [openZeroCopy_encrypted henc] at hr
      exact absurd hr (openStreaming_encrypted henc hnone r)
    · cases hserved.2.1.symm.trans henc
  · have hplain := Bool.eq_false_of_not_eq_true henc
    have hopens : _ ↔ OpensPlain X a.src d off := openPlain_iff hplain none
    rcases h.plain hplain with he | haes | ⟨v, hv⟩
    · refine iff_of_true (fun _ _ => he) ?_
      rintro ⟨haes, -⟩
      rw [he] at haes
      cases haes
    · have hne : d.encryptionMethod ≠ encryption.none := by
        intro he
        rw [he] at haes
        cases haes
      constructor
      · rintro h ⟨-, -, hop⟩
        obtain ⟨r, hr⟩ := hopens.mpr hop
        exact hne (h r hr)
      · intro h r hr
        exact absurd ⟨haes, hplain, hopens.mp ⟨r, hr⟩⟩ h
    · have hnot : ¬ OpensPlain X a.src d off := fun h => h.codec v hv
      exact iff_of_true (fun r hr => absurd (hopens.mp ⟨r, hr⟩) hnot) fun h => hnot h.2.2

/-- Without a password, an entry that is reported as encrypted is not opened, in whatever state the
archive is; but for an AES entry without the flag for encryption that can be opened as it is. -/
theorem hidesEncrypted_iff (X : Extern) (Z : Zone) {src : Source} (hopen : Archive.open src = .ok a)
    (calls : List ArchiveCall) (hnone : (after X calls a).password = none) (index : Nat) :
    HidesEncrypted X Z (after X calls a) index ↔ ¬ ServedInTheClear X (after X calls a) index := by
  have hcache := (grown_after X calls a).cache (open_cacheOk hopen)
  have hresolved := after_resolved X hopen calls
  generalize after X calls a = b at hnone hcache hresolved ⊢
  cases hd : b.entries[index]? with
  | none =>
    refine iff_of_true (fun r h => ?_) ?_
    · rw [Archive.openEntry, Archive.openEntryWithPassword, hd] at h
      cases h
    · rintro ⟨d, off, h, -⟩
      cases hd.symm.trans h
  | some d =>
    have hmem := List.mem_of_getElem? hd
    have hfind := findDataOffset_eq hcache hmem
    cases hoff : localHeaderLen b.src d.offset.toNat with
    | error e =>
      refine iff_of_true (fun r h => ?_) ?_
      · rw [Archive.openEntry, Archive.openEntryWithPassword, hd] at h
        dsimp only at h
        rw [Archive.openDirent, hfind, hoff] at h
        cases h
      · rintro ⟨d', off, h, -, -, hoff', -⟩
        cases hd.symm.trans h
        cases hoff.symm.trans hoff'
    | ok off =>
      have hopened := openEntry_found (X := X) hd (hfind.trans hoff)
      have hserved : ServedInTheClear X b index ↔
          isAesMethod d.encryptionMethod = true ∧ d.encrypted = false ∧ OpensPlain X b.src d off := by
        constructor
        · rintro ⟨d', off', h, haes, hplain, hoff', hopens⟩
          cases hd.symm.trans h
          cases hoff.symm.trans hoff'
          exact ⟨haes, hplain, hopens⟩
        · rintro ⟨haes, hplain, hopens⟩
          exact ⟨d, off, hd, haes, hplain, hoff, hopens⟩
      rw [hserved, HidesEncrypted, hopened]
      simp only [stat_found Z hd]
      exact opened_plain_iff (a := b.cacheOffset index off) (hresolved d hmem) hnone

/-- An archive of the stored entry `a` with method 99 and AES data, which is not flagged as encrypted: the
local header with two bytes of data, the central record and the end record. -/
def flaglessArchive : Bytes :=
  [[0x50, 0x4B, 3, 4, 51, 0, 0, 0, 99, 0, 0, 0, 33, 0, 172, 42, 147, 216, 2, 0, 0, 0, 2, 0, 0, 0,
      1, 0, 0, 0], [0x61], [0x68, 0x69],
    [0x50, 0x4B, 1, 2, 51, 0, 51, 0, 0, 0, 99, 0, 0, 0, 33, 0, 172, 42, 147, 216, 2, 0, 0, 0, 2, 0, 0, 0,
      1, 0, 11, 0, 0, 0, 0, 0, 0, 0, 0, 0, 0, 0, 0, 0, 0, 0], [0x61],
    [0x01, 0x99, 7, 0, 2, 0, 0x41, 0x45, 3, 0, 0],
    [0x50, 0x4B, 5, 6, 0, 0, 0, 0, 1, 0, 1, 0, 58, 0, 0, 0, 33, 0, 0, 0, 0, 0]].flatten

/-- It is reported as AES-256, and opened without a password. -/
theorem flagless_served : ∃ a, Archive.open { kind := .arc, bytes := flaglessArchive } = .ok a ∧
    a.password = none ∧ ∀ Z, ¬ HidesEncrypted reference Z a 0 := by
  obtain ⟨a, ha, hp⟩ := exists_ok (x := Archive.open { kind := .arc, bytes := flaglessArchive })
    (p := fun a => a.password.isNone && (a.openEntry reference 0).1.toOption.isSome &&
      (a.entries[0]?.any fun d => d.encryptionMethod = encryption.aes256)) (by decide +kernel)
  rw [Bool.and_eq_true, Bool.and_eq_true] at hp
  obtain ⟨⟨hnone, hopen⟩, hmethod⟩ := hp
  obtain ⟨r, hr⟩ := Option.isSome_iff_exists.mp hopen
  obtain ⟨d, hd, haes⟩ := (Option.any_eq_true _ _).mp hmethod
  refine ⟨a, ha, Option.isNone_iff_eq_none.mp hnone, fun Z h => ?_⟩
  have hreported := (stat_found Z hd).mp (h r (toOption_eq_some.mp hr))
  rw [of_decide_eq_true haes] at hreported
  cases hreported

theorem hidesEncrypted_sample : ∃ a, Archive.open { kind := .arc, bytes := sampleArchive } = .ok a ∧
    ∀ Z, HidesEncrypted reference Z (after reference [] a) 0 ↔
      ¬ ServedInTheClear reference (after reference [] a) 0 := by
  obtain ⟨a, ha, hp⟩ := exists_ok (x := Archive.open { kind := .arc, bytes := sampleArchive })
    (p := fun a => a.password.isNone) (by decide +kernel)
  exact ⟨a, ha, fun Z => hidesEncrypted_iff reference Z ha [] (Option.isNone_iff_eq_none.mp hp) 0⟩

end Kzip.Impl
