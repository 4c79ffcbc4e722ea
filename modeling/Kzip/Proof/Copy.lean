import Kzip.Impl.Reference
import Kzip.Proof.Content
import Kzip.Spec.Copy

/-!
# What is stored decides what is read

Whatever way an entry is opened, what is read of it depends on the bytes that are stored for it and on what
its record says of them, and on nothing else in the archive (`content_of_stored`).
-/

namespace Kzip.Impl

open Lib Lib.LE Kzip.Spec

variable {X : Extern}

/-! ## The stored bytes -/

theorem readCompressedEntry_ok {a : Archive} (hlen : a.src.bytes.length < 2 ^ 63) {index : Nat} {d : Dirent}
    (hd : a.entries[index]? = some d) {c : Bytes} (h : a.readCompressedEntry index = .ok c) :
    ∃ off, localHeaderLen a.src d.offset.toNat = .ok off ∧ c = (a.src.bytes.drop off).take d.compSize.toNat ∧
      c.length = d.compSize.toNat := by
  rw [Archive.readCompressedEntry, hd] at h
  obtain ⟨-, h⟩ := guard_ok.mp h
  obtain ⟨off, hoff, h⟩ := bind_ok.mp h
  exact ⟨off, hoff, (readAt_iff hlen).mp h⟩

/-- A region that is all there is as good as the archive. -/
theorem compressed_region {bytes region : Bytes} {d e : Dirent} (hsame : StoredAlike d e) {off : Nat}
    (hregion : region = (bytes.drop off).take d.compSize.toNat) (hlen : region.length = d.compSize.toNat)
    (password : Option Bytes) : compressed X bytes d off password = compressed X region e 0 password := by
  have hall : (region.drop 0).take d.compSize.toNat = region := by
    rw [List.drop_zero, ← hlen, List.take_length]
  have hencrypted : d.encrypted = e.encrypted := by rw [Dirent.encrypted, Dirent.encrypted, hsame.bitflags]
  have haes (pw : Bytes) : aesCompressed X bytes d off pw = aesCompressed X region e 0 pw := by
    simp only [aesCompressed, ← hsame.compSize, ← hsame.encryptionMethod, hall, ← hregion]
  have hcrypto (pw : Bytes) : zipCryptoCompressed bytes d off pw = zipCryptoCompressed region e 0 pw := by
    simp only [zipCryptoCompressed, ← hsame.compSize, ← hsame.crc]
    by_cases hle : encryptionHeaderLen ≤ d.compSize.toNat
    · have hheader : (bytes.drop off).take encryptionHeaderLen = (region.drop 0).take encryptionHeaderLen := by
        rw [List.drop_zero, hregion, List.take_take, Nat.min_eq_left hle]
      have hbody : ((bytes.drop (off + encryptionHeaderLen)).take (d.compSize.toNat - encryptionHeaderLen)) =
          (region.drop (0 + encryptionHeaderLen)).take (d.compSize.toNat - encryptionHeaderLen) := by
        rw [Nat.zero_add, hregion, List.drop_take, List.take_take, Nat.min_self, List.drop_drop]
      rw [← ZipCrypto.decrypt_take, ← ZipCrypto.decrypt_take, hheader, hbody]
    · rw [if_neg fun h => hle h.2.1, if_neg fun h => hle h.2.1]
  simp only [compressed, hencrypted, ← hsame.encryptionMethod, ← hsame.compSize, hall, ← hregion]
  split
  · split
    · exact congrArg _ (funext haes)
    · split
      · exact congrArg _ (funext hcrypto)
      · rfl
  · rfl

theorem decodesTo_congr {d e : Dirent} (hsame : StoredAlike d e) {c v : Bytes} :
    DecodesTo X d c v ↔ DecodesTo X e c v := by
  have haes : opensAes d = opensAes e := by
    rw [opensAes, opensAes, Dirent.encrypted, Dirent.encrypted, hsame.bitflags, hsame.encryptionMethod]
  constructor
  · exact fun h => ⟨hsame.compMethod ▸ h.decode, hsame.uncompSize ▸ h.size, fun he => hsame.crc ▸ h.crc (haes ▸ he)⟩
  · exact fun h => ⟨hsame.compMethod ▸ h.decode, hsame.uncompSize ▸ h.size, fun hd => hsame.crc ▸ h.crc (haes ▸ hd)⟩

/-! ## Archives in service -/

theorem InService.length_lt {a : Archive} (h : InService X a) : a.src.bytes.length < 2 ^ 63 := by
  obtain ⟨kind, bytes, opened, calls, hopen, rfl⟩ := h
  rw [(grown_after X calls opened).src, (open_parts hopen).1]
  exact bytes.property

theorem InService.cacheOk {a : Archive} (h : InService X a) : a.CacheOk := by
  obtain ⟨kind, bytes, opened, calls, hopen, rfl⟩ := h
  exact (grown_after X calls opened).cache (open_cacheOk hopen)

/-- What is read of an entry whose stored bytes can be had. -/
theorem readEntry_stored {a : Archive} (ha : InService X a) {index : Nat} {d e : Dirent}
    (hd : a.entries[index]? = some d) (hsame : StoredAlike d e) {region : Bytes}
    (hregion : a.readCompressedEntry index = .ok region) (sched : Schedule) (password : Option Bytes) {v : Bytes} :
    (a.readEntryWithPassword X sched index password).1 = .ok v ↔
      Holds X region e 0 (password.or a.password) v := by
  have hlen := InService.length_lt ha
  obtain ⟨off, hlocal, hall, hsize⟩ := readCompressedEntry_ok hlen hd hregion
  have hoff : d.findDataOffset a.src = .ok off := by
    rw [findDataOffset_eq (InService.cacheOk ha) (List.mem_of_getElem? hd), hlocal]
  have hfit : off + d.compSize.toNat < 2 ^ 64 := by
    obtain ⟨hheader, -, hstart⟩ := (localHeaderLen_iff hlen).mp hlocal
    rw [List.length_take, List.length_drop] at hheader
    have hname := (le16At ((a.src.bytes.drop d.offset.toNat).take size.localHeader) 26).toNat_lt
    have hextra := (le16At ((a.src.bytes.drop d.offset.toNat).take size.localHeader) 28).toNat_lt
    rw [hall, List.length_take, List.length_drop] at hsize
    simp only [size.localHeader] at hheader hstart hname hextra
    -- the stored bytes lie in the source, if there are any
    omega
  rw [readEntry_iff hlen hd hoff hfit sched password]
  exact exists_congr fun c => and_congr (by rw [compressed_region hsame hall hsize]) (decodesTo_congr hsame)

/-- Two entries, of any archives that were opened and used in any way, whose stored bytes are the same and
whose records say the same of them: what is read of one is read of the other. -/
theorem content_of_stored (X : Extern) {a b : Archive} (ha : InService X a) (hb : InService X b) {i j : Nat}
    {d e : Dirent} (hd : a.entries[i]? = some d) (he : b.entries[j]? = some e) (hsame : StoredAlike d e)
    {region : Bytes} (hregion : a.readCompressedEntry i = .ok region)
    (hregion' : b.readCompressedEntry j = .ok region) {password password' : Option Bytes}
    (hpassword : password.or a.password = password'.or b.password) (sched sched' : Schedule) (v : Bytes) :
    (a.readEntryWithPassword X sched i password).1 = .ok v ↔
      (b.readEntryWithPassword X sched' j password').1 = .ok v := by
  rw [readEntry_stored ha hd hsame hregion, readEntry_stored hb he ⟨rfl, rfl, rfl, rfl, rfl, rfl⟩ hregion',
    hpassword]

/-- The archive of the file `a` under another name. -/
def movedArchive : Vec :=
  (writeArchive reference [.new ['m'] ⟨[0x68, 0x69], show 2 < 2 ^ 63 by decide⟩] storeOptions).toOption.getD .nil

/-- The same file in two archives, one in memory and one on disk. -/
theorem content_of_stored_sample : ∃ a b,
    Archive.open { kind := .vec, bytes := sampleArchive } = .ok a ∧
    Archive.open { kind := .file true, bytes := movedArchive.val } = .ok b ∧
    ∀ v, (a.readEntryWithPassword reference bytewise 0 none).1 = .ok v ↔
      (b.readEntryWithPassword reference bytewise 0 none).1 = .ok v := by
  obtain ⟨a, ha, hp⟩ := exists_ok (x := Archive.open { kind := .vec, bytes := sampleArchive })
    (p := fun a => (Archive.open { kind := .file true, bytes := movedArchive.val }).toOption.any
      fun b : Archive => a.entries[0]?.any fun d : Dirent => b.entries[0]?.any fun e : Dirent =>
        decide ((a.readCompressedEntry 0).toOption = some [0x68, 0x69] ∧
          (b.readCompressedEntry 0).toOption = some [0x68, 0x69] ∧
          { d with filename := e.filename, offset := e.offset } = e)) (by decide +kernel)
  obtain ⟨b, hb, hp⟩ := exists_ok hp
  obtain ⟨d, hd, hp⟩ := (Option.any_eq_true ..).mp hp
  obtain ⟨e, he, hp⟩ := (Option.any_eq_true ..).mp hp
  obtain ⟨hstored, hstored', hsame⟩ := of_decide_eq_true hp
  have halike : StoredAlike d e := by
    rw [← hsame]
    exact ⟨rfl, rfl, rfl, rfl, rfl, rfl⟩
  have hpassword : (none : Option Bytes).or a.password = (none : Option Bytes).or b.password := by
    rw [(open_parts ha).2.2, (open_parts hb).2.2]
  exact ⟨a, b, ha, hb, content_of_stored reference ⟨.vec, ⟨sampleArchive, by decide⟩, a, [], ha, rfl⟩
    ⟨.file true, movedArchive, b, [], hb, rfl⟩ hd he halike (toOption_eq_some.mp hstored)
    (toOption_eq_some.mp hstored') hpassword bytewise bytewise⟩

end Kzip.Impl
