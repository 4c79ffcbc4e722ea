import Kzip.Impl.Reference
import Kzip.Impl.Archive
import Kzip.Proof.Directory
import Kzip.Proof.File
import Kzip.Spec.Archive

/-!
# Reading entries of an open archive

`openDirent_ok`: every way to open an entry gives a reader that checks the recorded size, and the
recorded CRC unless the entry was authenticated. `Archive.CacheOk` holds of an archive after any
calls, so that the cached data offset is always that of the local header.
-/

namespace Kzip.Impl

open Lib Kzip.Spec

variable {X : Extern}

/-! ## Opening -/

theorem aesDecryptData_ok {password region plain : Bytes} {method : UInt16}
    (h : aesDecryptData X password method region = .ok plain) :
    AesAuthentic X password method region := by
  simp only [aesDecryptData] at h
  obtain ⟨hlen, h⟩ := guard_ok.mp h
  obtain ⟨-, h⟩ := guard_ok.mp h
  obtain ⟨htag, -⟩ := guard_ok.mp h
  refine ⟨?_, (Classical.not_not.mp htag).symm⟩
  rw [List.length_drop]
  omega

theorem readAt_ok {s : Source} {pos n : Nat} {bs : Bytes} (h : s.readAt pos n = .ok bs) :
    bs = (s.bytes.drop pos).take n := by
  simp only [Source.readAt] at h
  obtain ⟨-, h⟩ := guard_ok.mp h
  cases hr : s.readExact pos n with
  | none => rw [hr] at h; cases h
  | some bs' =>
    rw [hr] at h
    cases h
    simp only [Source.readExact] at hr
    split at hr
    · rename_i hn; cases hr; rw [hn, List.take_zero]
    · split at hr
      · cases hr; rfl
      · cases hr

theorem EntryReader.new_ok {src : Bytes} {method : CompressionMethod} {compSize uncompSize : UInt64}
    {crc : UInt32} {r : EntryReader} (h : EntryReader.new X src method compSize uncompSize crc = .ok r) :
    ∃ d, r = .fresh (.streaming d) crc uncompSize true := by
  obtain ⟨d, -, h⟩ := bind_ok.mp h
  cases h
  exact ⟨_, rfl⟩

theorem openAes_ok {a : Archive} {d : Dirent} {off : Nat} {password : Option Bytes} {r : EntryReader}
    (h : a.openAes X d off password = .ok r) :
    ∃ dec pw, r = .fresh (.streaming dec) 0 d.uncompSize false ∧
      a.resolvePassword password = .ok pw ∧
      AesAuthentic X pw d.encryptionMethod (storedRegion a.src d off) := by
  obtain ⟨pw, hpw, h⟩ := bind_ok.mp h
  obtain ⟨-, h⟩ := guard_ok.mp h
  obtain ⟨region, hregion, h⟩ := bind_ok.mp h
  obtain ⟨plain, hplain, h⟩ := bind_ok.mp h
  obtain ⟨dec, -, h⟩ := bind_ok.mp h
  cases h
  refine ⟨_, pw, rfl, hpw, ?_⟩
  rw [storedRegion, ← readAt_ok hregion]
  exact aesDecryptData_ok hplain

theorem openZipCrypto_ok {a : Archive} {d : Dirent} {off : Nat} {password : Option Bytes}
    {r : EntryReader} (h : a.openZipCrypto X d off password = .ok r) :
    ∃ dec, r = .fresh (.streaming dec) d.crc d.uncompSize true := by
  obtain ⟨pw, -, h⟩ := bind_ok.mp h
  obtain ⟨header, -, h⟩ := bind_ok.mp h
  dsimp only at h
  obtain ⟨-, h⟩ := guard_ok.mp h
  obtain ⟨-, h⟩ := guard_ok.mp h
  exact EntryReader.new_ok h

theorem openStreaming_ok {a : Archive} {d : Dirent} {off : Nat} {password : Option Bytes}
    {r : EntryReader} (h : a.openStreaming X d off password = .ok r) :
    (opensAes d = false ∧ ∃ dec, r = .fresh (.streaming dec) d.crc d.uncompSize true) ∨
    (opensAes d = true ∧ ∃ dec pw, r = .fresh (.streaming dec) 0 d.uncompSize false ∧
      a.resolvePassword password = .ok pw ∧
      AesAuthentic X pw d.encryptionMethod (storedRegion a.src d off)) := by
  simp only [Archive.openStreaming] at h
  split at h
  · rename_i henc
    split at h
    · rename_i haes
      exact .inr ⟨by rw [opensAes, henc, haes]; rfl, openAes_ok h⟩
    · rename_i haes
      obtain ⟨-, h⟩ := guard_ok.mp h
      refine .inl ⟨?_, openZipCrypto_ok h⟩
      rw [opensAes, Bool.eq_false_of_not_eq_true haes, Bool.and_false]
  · rename_i henc
    refine .inl ⟨?_, EntryReader.new_ok h⟩
    rw [opensAes, Bool.eq_false_of_not_eq_true henc, Bool.false_and]

theorem openZeroCopy_encrypted {a : Archive} {d : Dirent} {off : Nat} (henc : d.encrypted = true) :
    a.openZeroCopy X d off = none := by
  rw [Archive.openZeroCopy, Dirent.zeroCopy, henc]
  rfl

theorem openZeroCopy_some {a a' : Archive} {d : Dirent} {off : Nat} {o : Result EntryReader}
    (h : a.openZeroCopy X d off = some (o, a')) : opensAes d = false ∧ (∃ pool, a' = { a with pool }) ∧
      ∀ r, o = .ok r → ∃ inner, r = .fresh inner d.crc d.uncompSize true := by
  simp only [Archive.openZeroCopy, Option.ite_none_right_eq_some] at h
  obtain ⟨hzero, h⟩ := h
  have haes : opensAes d = false := by
    simp only [Dirent.zeroCopy, Bool.and_eq_true, Bool.not_eq_true'] at hzero
    rw [opensAes, hzero.1.1, Bool.false_and]
  refine ⟨haes, ?_⟩
  cases hs : a.openShared d off with
  | some r =>
    rw [hs] at h
    cases h
    refine ⟨⟨a.pool, rfl⟩, fun r' hr => ?_⟩
    cases hr
    simp only [Archive.openShared, Option.ite_none_right_eq_some] at hs
    obtain ⟨-, hs⟩ := hs
    split at hs
    · rw [Option.ite_none_right_eq_some] at hs
      cases hs.2
      exact ⟨_, rfl⟩
    · cases hs
  | none =>
    rw [hs] at h
    simp only [Archive.openSlice] at h
    split at h
    · cases h
    · split at h
      · cases h
        refine ⟨⟨a.pool, rfl⟩, fun r hr => ?_⟩
        cases hr
      · rw [Option.ite_none_right_eq_some] at h
        obtain ⟨-, h⟩ := h
        split at h
        · cases h
          refine ⟨⟨_, rfl⟩, fun r hr => ?_⟩
          cases hr
        · cases h
          exact ⟨⟨_, rfl⟩, fun r hr => ⟨_, (Except.ok.inj hr).symm⟩⟩

/-- The reader of an opened entry: it checks the size, and the CRC too unless the entry was
authenticated on opening. -/
theorem openDirent_ok {a : Archive} {index : Nat} {d : Dirent} {password : Option Bytes}
    {r : EntryReader} (h : (a.openDirent X index d password).1 = .ok r) :
    ∃ off, d.findDataOffset a.src = .ok off ∧
      ((opensAes d = false ∧ ∃ inner, r = .fresh inner d.crc d.uncompSize true) ∨
      (opensAes d = true ∧ ∃ inner pw, r = .fresh inner 0 d.uncompSize false ∧
        a.resolvePassword password = .ok pw ∧
        AesAuthentic X pw d.encryptionMethod (storedRegion a.src d off))) := by
  simp only [Archive.openDirent] at h
  split at h
  · cases h
  · rename_i off hoff
    refine ⟨off, hoff, ?_⟩
    split at h
    · rename_i res hz
      obtain ⟨haes, -, hr⟩ := openZeroCopy_some (show _ = some (res.1, res.2) from hz)
      exact .inl ⟨haes, hr r h⟩
    · rcases openStreaming_ok h with ⟨haes, dec, hr⟩ | ⟨haes, dec, pw, hr⟩
      · exact .inl ⟨haes, _, hr⟩
      · exact .inr ⟨haes, _, pw, hr⟩

/-! ## The state of an archive -/

/-- Every cached data offset is that of the local header. -/
def Archive.CacheOk (a : Archive) : Prop :=
  ∀ d ∈ a.entries, ∀ off, d.dataOffset = some off → localHeaderLen a.src d.offset.toNat = .ok off

/-- Whichever buffer is recycled, the entry is decoded into an empty one. -/
theorem openZeroCopy_congr {a b : Archive} {d e : Dirent} (hsrc : a.src = b.src)
    (hd : uncached d = uncached e) (off : Nat) :
    (a.openZeroCopy X d off).map (·.1) = (b.openZeroCopy X e off).map (·.1) := by
  show (a.openZeroCopy X (uncached d) off).map (·.1) = (b.openZeroCopy X (uncached e) off).map (·.1)
  rw [hd]
  have hshared : a.openShared (uncached e) off = b.openShared (uncached e) off := by
    rw [Archive.openShared, Archive.openShared, hsrc]
  have hslice : (a.openSlice X (uncached e) off).map (·.1) = (b.openSlice X (uncached e) off).map (·.1) := by
    simp only [Archive.openSlice, hsrc, decodeSliceInto, Vec.clear]
    split
    · rfl
    · split
      · rfl
      · split
        · split <;> rfl
        · rfl
  simp only [Archive.openZeroCopy, hshared]
  split
  · split
    · rfl
    · exact hslice
  · rfl

theorem openStreaming_congr {a b : Archive} {d e : Dirent} (hsrc : a.src = b.src)
    (hpassword : a.password = b.password) (hd : uncached d = uncached e) (off : Nat)
    (password : Option Bytes) :
    a.openStreaming X d off password = b.openStreaming X e off password := by
  show a.openStreaming X (uncached d) off password = b.openStreaming X (uncached e) off password
  simp only [Archive.openStreaming, Archive.openAes, Archive.openZipCrypto, Archive.resolvePassword,
    hd, hsrc, hpassword]

/-- `a'` is `a` with other cached offsets, all of them right, and another pool. -/
structure Archive.Grown (a a' : Archive) : Prop where
  src : a'.src = a.src
  entries : a'.entries.map uncached = a.entries.map uncached
  cache : a.CacheOk → a'.CacheOk

theorem Archive.Grown.refl (a : Archive) : a.Grown a := ⟨rfl, rfl, id⟩

theorem Archive.Grown.trans {a b c : Archive} (h : a.Grown b) (h' : b.Grown c) : a.Grown c :=
  ⟨h'.src.trans h.src, h'.entries.trans h.entries, h'.cache ∘ h.cache⟩

theorem findDataOffset_eq {a : Archive} (h : a.CacheOk) {d : Dirent} (hd : d ∈ a.entries) :
    d.findDataOffset a.src = localHeaderLen a.src d.offset.toNat := by
  unfold Dirent.findDataOffset
  split
  · rename_i off hoff; exact (h d hd off hoff).symm
  · rfl

theorem uncached_cacheOffset (a : Archive) (index off : Nat) :
    (a.cacheOffset index off).entries.map uncached = a.entries.map uncached := by
  refine List.ext_getElem? fun j => ?_
  simp only [Archive.cacheOffset, List.getElem?_map, List.getElem?_modify]
  cases a.entries[j]? with
  | none => rfl
  | some e => by_cases hj : index = j <;> simp [hj, uncached]

/-- An entry after an offset was cached: the one it was cached for, or one as it was before. -/
theorem mem_cacheOffset {a : Archive} {index off : Nat} {d e : Dirent} (hd : a.entries[index]? = some d)
    (he : e ∈ (a.cacheOffset index off).entries) :
    e = { d with dataOffset := some off } ∨ e ∈ a.entries := by
  obtain ⟨j, hj⟩ := List.mem_iff_getElem?.mp he
  simp only [Archive.cacheOffset, List.getElem?_modify] at hj
  by_cases hij : index = j
  · subst hij
    simp only [hd, ↓reduceIte, Option.map_eq_map, Option.map_some, Option.some.injEq] at hj
    exact .inl hj.symm
  · simp only [hij, ↓reduceIte, Option.map_eq_map, Option.map_id'] at hj
    exact .inr (List.mem_of_getElem? hj)

theorem grown_cacheOffset {a : Archive} {index off : Nat} {d : Dirent}
    (hd : a.entries[index]? = some d) (hoff : d.findDataOffset a.src = .ok off) :
    a.Grown (a.cacheOffset index off) where
  src := rfl
  entries := uncached_cacheOffset a index off
  cache hc e he off' hoff' := by
    rcases mem_cacheOffset hd he with rfl | he
    · cases hoff'
      rw [← hoff]
      exact (findDataOffset_eq hc (List.mem_of_getElem? hd)).symm
    · exact hc e he off' hoff'

theorem grown_openEntry (X : Extern) (a : Archive) (index : Nat) (password : Option Bytes) :
    a.Grown (a.openEntryWithPassword X index password).2 := by
  unfold Archive.openEntryWithPassword
  split
  · exact .refl a
  · rename_i d hd
    unfold Archive.openDirent
    split
    · exact .refl a
    · rename_i off hoff
      have hgrown := grown_cacheOffset hd hoff
      dsimp only
      split
      · rename_i res hz
        obtain ⟨-, ⟨pool, hpool⟩, -⟩ := openZeroCopy_some (show _ = some (res.1, res.2) from hz)
        rw [hpool]
        exact ⟨hgrown.src, hgrown.entries, hgrown.cache⟩
      · exact hgrown

theorem grown_dropReader (a : Archive) (r : EntryReader) : a.Grown (a.dropReader r) := by
  unfold Archive.dropReader
  split
  · exact ⟨rfl, rfl, id⟩
  all_goals exact .refl a

theorem grown_run (X : Extern) (a : Archive) (call : ArchiveCall) : a.Grown (call.run X a) := by
  cases call with
  | setDefaultPassword password => exact ⟨rfl, rfl, id⟩
  | openEntry index password => exact grown_openEntry X a index password
  | readEntry sched index password =>
    have hopen := grown_openEntry X a index password
    simp only [ArchiveCall.run, Archive.readEntryWithPassword]
    revert hopen
    cases a.openEntryWithPassword X index password with
    | mk o a' =>
      intro hopen
      cases o with
      | error e => exact hopen
      | ok r => exact hopen.trans (grown_dropReader _ _)

/-- Calls change nothing but the caches, the pool and the default password. -/
theorem grown_after (X : Extern) (calls : List ArchiveCall) (a : Archive) :
    a.Grown (after X calls a) := by
  induction calls generalizing a with
  | nil => exact .refl a
  | cons call calls ih => exact (grown_run X a call).trans (ih _)

theorem open_cacheOk {src : Source} {a : Archive} (h : Archive.open src = .ok a) : a.CacheOk := by
  obtain ⟨cd, hcd, h⟩ := bind_ok.mp h
  cases h
  intro d hd off hoff
  rw [(readCentralDir_parsed hcd d hd).not_cached] at hoff
  cases hoff

/-! ## Reading -/

theorem readEntry_missing {a : Archive} {index : Nat} (h : a.entries[index]? = none)
    (sched : Schedule) (password : Option Bytes) :
    (a.readEntryWithPassword X sched index password).1 = .error (.err .inval) := by
  simp only [Archive.readEntryWithPassword, Archive.openEntryWithPassword, h]

/-- The bytes that come out of a reader, read to its end. -/
def contentOf (X : Extern) (sched : Schedule) (r : Result EntryReader) : Result Bytes :=
  r.bind fun r => (r.readToEnd X sched).1

theorem readEntry_eq {a : Archive} {index : Nat} {d : Dirent} (hd : a.entries[index]? = some d)
    (sched : Schedule) (password : Option Bytes) :
    (a.readEntryWithPassword X sched index password).1 =
      contentOf X sched (a.openDirent X index d password).1 := by
  simp only [Archive.readEntryWithPassword, Archive.openEntryWithPassword, hd]
  cases a.openDirent X index d password with
  | mk o a' => cases o <;> rfl

theorem contentOf_ok {sched : Schedule} {r : Result EntryReader} {v : Bytes} :
    contentOf X sched r = .ok v ↔ ∃ e, r = .ok e ∧ (e.readToEnd X sched).1 = .ok v := bind_ok

/-- Reading an entry gives bytes only if they have the recorded size and, unless the stored region
was authenticated, the recorded CRC. -/
theorem readEntry_ok {a : Archive} {sched : Schedule} {index : Nat} {password : Option Bytes}
    {v : Bytes} (h : (a.readEntryWithPassword X sched index password).1 = .ok v) :
    ∃ d off, a.entries[index]? = some d ∧ d.findDataOffset a.src = .ok off ∧
      v.length = d.uncompSize.toNat ∧
      (opensAes d = false → X.crc32 v = d.crc) ∧
      (opensAes d = true → ∃ pw, a.resolvePassword password = .ok pw ∧
        AesAuthentic X pw d.encryptionMethod (storedRegion a.src d off)) := by
  cases hd : a.entries[index]? with
  | none =>
    rw [readEntry_missing hd] at h
    cases h
  | some d =>
    rw [readEntry_eq hd] at h
    obtain ⟨r, hopen, h⟩ := contentOf_ok.mp h
    obtain ⟨off, hoff, hr⟩ := openDirent_ok hopen
    refine ⟨d, off, rfl, hoff, ?_⟩
    rcases hr with ⟨haes, inner, rfl⟩ | ⟨haes, inner, pw, rfl, hpw, hauth⟩
    · obtain ⟨-, -, hsize, hcrc⟩ := readToEnd_fresh.mp h
      refine ⟨hsize, fun _ => hcrc rfl, fun h => ?_⟩
      cases haes.symm.trans h
    · obtain ⟨-, -, hsize, -⟩ := readToEnd_fresh.mp h
      refine ⟨hsize, fun h => ?_, fun _ => ⟨pw, hpw, hauth⟩⟩
      cases haes.symm.trans h

/-- No silently corrupt content: what is read from an open archive, after any calls, has the size its
entry records, and the CRC the entry records or a stored region with the right tag. -/
theorem readEntry_sound (X : Extern) {src : Source} {a : Archive} (hopen : Archive.open src = .ok a)
    (calls : List ArchiveCall) (sched : Schedule) (index : Nat) (password : Option Bytes) {v : Bytes}
    (h : ((after X calls a).readEntryWithPassword X sched index password).1 = .ok v) :
    ∃ d off, a.entries[index]? = some d ∧ localHeaderLen a.src d.offset.toNat = .ok off ∧
      v.length = d.uncompSize.toNat ∧
      (opensAes d = false → X.crc32 v = d.crc) ∧
      (opensAes d = true → ∃ pw, (after X calls a).resolvePassword password = .ok pw ∧
        AesAuthentic X pw d.encryptionMethod (storedRegion a.src d off)) := by
  have hgrown := grown_after X calls a
  obtain ⟨d, off, hd, hoff, hsize, hcrc, haes⟩ := readEntry_ok h
  rw [findDataOffset_eq (hgrown.cache (open_cacheOk hopen)) (List.mem_of_getElem? hd),
    hgrown.src] at hoff
  -- the entry as it was opened differs from the present one in the cached offset only
  have hentry : (a.entries.map uncached)[index]? = some (uncached d) := by
    rw [← hgrown.entries, List.getElem?_map, hd]; rfl
  rw [List.getElem?_map, Option.map_eq_some_iff] at hentry
  obtain ⟨d₀, hd₀, hu⟩ := hentry
  have hfields : d₀.offset = d.offset ∧ d₀.uncompSize = d.uncompSize ∧ d₀.crc = d.crc ∧
      d₀.encryptionMethod = d.encryptionMethod ∧ opensAes d₀ = opensAes d ∧
      storedRegion a.src d₀ off = storedRegion a.src d off :=
    ⟨(congrArg Dirent.offset hu :), (congrArg Dirent.uncompSize hu :), (congrArg Dirent.crc hu :),
      (congrArg Dirent.encryptionMethod hu :), (congrArg opensAes hu :),
      (congrArg (storedRegion a.src · off) hu :)⟩
  obtain ⟨h₁, h₂, h₃, h₄, h₅, h₆⟩ := hfields
  refine ⟨d₀, off, hd₀, by rw [h₁]; exact hoff, by rw [h₂]; exact hsize, ?_, ?_⟩
  · rw [h₅, h₃]; exact hcrc
  · rw [h₅, h₄, h₆, ← hgrown.src]; exact haes

/-- The stored entry of the sample archive, read in pieces of one byte, and read a second time. -/
theorem readEntry_sound_sample : ∃ a v,
    Archive.open { kind := .arc, bytes := sampleArchive } = .ok a ∧
    ((after reference [.readEntry ⟨fun _ => ⟨4096, 0⟩, fun _ => by decide⟩ 0 none] a).readEntryWithPassword
      reference ⟨fun _ => ⟨1, 0⟩, fun _ => by decide⟩ 0 none).1 = .ok v ∧
    ∃ d off, a.entries[0]? = some d ∧ localHeaderLen a.src d.offset.toNat = .ok off ∧
      v.length = d.uncompSize.toNat ∧
      (opensAes d = false → reference.crc32 v = d.crc) ∧
      (opensAes d = true → ∃ pw, (after reference
          [.readEntry ⟨fun _ => ⟨4096, 0⟩, fun _ => by decide⟩ 0 none] a).resolvePassword none = .ok pw ∧
        AesAuthentic reference pw d.encryptionMethod (storedRegion a.src d off)) := by
  obtain ⟨a, ha, hp⟩ := exists_ok (x := Archive.open { kind := .arc, bytes := sampleArchive })
    (p := fun a => ((after reference [.readEntry ⟨fun _ => ⟨4096, 0⟩, fun _ => by decide⟩ 0 none]
      a).readEntryWithPassword reference ⟨fun _ => ⟨1, 0⟩, fun _ => by decide⟩ 0 none).1.toOption.any
      fun _ => true) (by decide +kernel)
  obtain ⟨v, hv, -⟩ := exists_ok hp
  exact ⟨a, v, ha, hv, readEntry_sound reference ha _ _ 0 none hv⟩

end Kzip.Impl
