import Kzip.Proof.Archive
import Kzip.Proof.Crypto
import Kzip.Proof.NoPanic
import Kzip.Spec.Content

/-!
# Every way to read an entry gives its content

`readEntry_iff`: reading an entry gives bytes exactly when the entry holds them, by whichever of the
ways it is opened. Opening an archive finds the same entries in every kind of source (`entries_alike`),
so an entry reads alike from all of them (`reads_alike`).
-/

namespace Kzip.Impl

open Lib Lib.LE Kzip.Spec

variable {X : Extern}

/-! ## Sources -/

theorem readExact_iff {s : Source} {pos n : Nat} {bs : Bytes} :
    s.readExact pos n = some bs ↔ bs = (s.bytes.drop pos).take n ∧ bs.length = n := by
  by_cases hn : n = 0
  · subst hn
    simp only [Source.readExact, ↓reduceIte, Option.some.injEq, List.take_zero]
    exact ⟨fun h => ⟨h.symm, h ▸ rfl⟩, fun h => h.1.symm⟩
  · by_cases hle : pos + n ≤ s.bytes.length
    · rw [Source.readExact_ok hle, Option.some.injEq]
      refine ⟨fun h => ⟨h.symm, ?_⟩, fun h => h.1.symm⟩
      rw [← h, List.length_take, List.length_drop]
      omega
    · simp only [Source.readExact, hn, hle, ↓reduceIte, reduceCtorEq, false_iff]
      rintro ⟨rfl, h⟩
      rw [List.length_take, List.length_drop] at h
      omega

/-- All sources read the same bytes. A seek that is refused would have gone past the end. -/
theorem readAt_iff {s : Source} (hlen : s.bytes.length < 2 ^ 63) {pos n : Nat} {bs : Bytes} :
    s.readAt pos n = .ok bs ↔ bs = (s.bytes.drop pos).take n ∧ bs.length = n := by
  rw [← readExact_iff, Source.readAt]
  split
  · rename_i hs
    have hpos : 2 ^ 63 ≤ pos := by
      refine Nat.le_of_not_lt fun h => ?_
      rw [s.canSeek_of_lt h] at hs
      exact absurd hs.2 Bool.false_ne_true
    simp only [Source.readExact, hs.1, ↓reduceIte, show ¬ pos + n ≤ s.bytes.length by omega,
      reduceCtorEq]
  · cases s.readExact pos n <;> simp

theorem localHeaderLen_iff {src : Source} (hlen : src.bytes.length < 2 ^ 63) {offset off : Nat} :
    localHeaderLen src offset = .ok off ↔
      ((src.bytes.drop offset).take size.localHeader).length = size.localHeader ∧
      (src.bytes.drop offset).take 4 = magic.localHeader ∧
      off = offset + size.localHeader + ((le16At ((src.bytes.drop offset).take size.localHeader) 26).toNat +
        (le16At ((src.bytes.drop offset).take size.localHeader) 28).toNat) := by
  have hmagic : ((src.bytes.drop offset).take size.localHeader).take 4 =
      (src.bytes.drop offset).take 4 := by rw [List.take_take]; rfl
  rw [localHeaderLen, bind_ok]
  simp only [readAt_iff hlen, guard_ok, Classical.not_not, Except.ok.injEq]
  constructor
  · rintro ⟨_, ⟨rfl, hn⟩, hm, rfl⟩
    exact ⟨hn, hmagic ▸ hm, rfl⟩
  · rintro ⟨hn, hm, rfl⟩
    exact ⟨_, ⟨rfl, hn⟩, hmagic.trans hm, rfl⟩

theorem localHeaderLen_alike (s s' : Source) (hb : s.bytes = s'.bytes) (hlen : s.bytes.length < 2 ^ 63)
    {offset off : Nat} : localHeaderLen s offset = .ok off ↔ localHeaderLen s' offset = .ok off := by
  rw [localHeaderLen_iff hlen, localHeaderLen_iff (hb ▸ hlen), hb]

/-! ## Opening an entry -/

theorem contentOf_bind {α : Type} {x : Result α} {f : α → Result EntryReader} {sched : Schedule}
    {v : Bytes} :
    contentOf X sched (x >>= f) = .ok v ↔ ∃ a, x = .ok a ∧ contentOf X sched (f a) = .ok v := by
  cases x <;> simp [contentOf, bind, Except.bind]

theorem contentOf_guard {c : Prop} [Decidable c] {e : Fault} {r : Result EntryReader}
    {sched : Schedule} {v : Bytes} :
    contentOf X sched (if c then .error e else r) = .ok v ↔ ¬ c ∧ contentOf X sched r = .ok v := by
  by_cases h : c <;> simp [h, contentOf, Except.bind]

theorem contentOf_fresh {sched : Schedule} {i : Inner} {crc : UInt32} {size : UInt64} {check : Bool}
    {v : Bytes} :
    contentOf X sched (.ok (.fresh i crc size check)) = .ok v ↔
      v = i.remaining ∧ i.tailErr = none ∧ v.length = size.toNat ∧ (check = true → X.crc32 v = crc) :=
  readToEnd_fresh

/-- A streaming decoder over the compressed bytes of an entry. -/
theorem contentOf_streaming {sched : Schedule} {src v : Bytes} {method : CompressionMethod}
    {compSize size : UInt64} {crc : UInt32} {check : Bool} :
    contentOf X sched (do .ok (.fresh (.streaming (← Decoder.new X src method compSize)) crc size check)) =
        .ok v ↔
      decode X method (src.take compSize.toNat) = some { out := v, err := none } ∧
        v.length = size.toNat ∧ (check = true → X.crc32 v = crc) := by
  rw [Decoder.new]
  cases decode X method (src.take compSize.toNat) with
  | none => simp [contentOf, bind, Except.bind]
  | some d =>
    obtain ⟨out, err⟩ := d
    simp only [bind, Except.bind, contentOf_fresh, Inner.remaining, Inner.tailErr, Option.some.injEq,
      Decoded.mk.injEq]
    constructor
    · rintro ⟨rfl, rfl, h⟩
      exact ⟨⟨rfl, rfl⟩, h⟩
    · rintro ⟨⟨rfl, rfl⟩, h⟩
      exact ⟨rfl, rfl, h⟩

theorem contentOf_new {sched : Schedule} {src v : Bytes} {d : Dirent} {compSize : UInt64}
    (haes : opensAes d = false) :
    contentOf X sched (EntryReader.new X src d.compMethod compSize d.uncompSize d.crc) = .ok v ↔
      DecodesTo X d (src.take compSize.toNat) v :=
  contentOf_streaming.trans
    ⟨fun ⟨h₁, h₂, h₃⟩ => ⟨h₁, h₂, fun _ => h₃ rfl⟩, fun h => ⟨h.decode, h.size, fun _ => h.crc haes⟩⟩

theorem contentOf_newSkipCrc {sched : Schedule} {src v : Bytes} {d : Dirent} {compSize : UInt64}
    (haes : opensAes d = true) :
    contentOf X sched (EntryReader.newSkipCrc X src d.compMethod compSize d.uncompSize) = .ok v ↔
      DecodesTo X d (src.take compSize.toNat) v :=
  contentOf_streaming.trans
    ⟨fun ⟨h₁, h₂, _⟩ => ⟨h₁, h₂, fun h => absurd (haes.symm.trans h) (by decide)⟩,
      fun h => ⟨h.decode, h.size, fun hc => absurd hc (by decide)⟩⟩

theorem opensAes_of_plain {d : Dirent} (hp : d.encrypted = false) : opensAes d = false := by
  rw [opensAes, hp, Bool.false_and]

theorem holds_plain {bytes : Bytes} {d : Dirent} {off : Nat} {password : Option Bytes} {v : Bytes}
    (hp : d.encrypted = false) :
    Holds X bytes d off password v ↔ DecodesTo X d ((bytes.drop off).take d.compSize.toNat) v := by
  simp only [Holds, compressed, hp, Bool.false_eq_true, ↓reduceIte, Option.some.injEq,
    exists_eq_left']

theorem decodesTo_checked {d : Dirent} (haes : opensAes d = false) {c v : Bytes} :
    DecodesTo X d c v ↔ decode X d.compMethod c = some { out := v, err := none } ∧
      v.length = d.uncompSize.toNat ∧ X.crc32 v = d.crc :=
  ⟨fun h => ⟨h.decode, h.size, h.crc haes⟩, fun ⟨h₁, h₂, h₃⟩ => ⟨h₁, h₂, fun _ => h₃⟩⟩

theorem openShared_holds {a : Archive} {d : Dirent} {off : Nat} {r : EntryReader} {v : Bytes}
    {sched : Schedule} (hp : d.encrypted = false) (h : a.openShared d off = some r) :
    contentOf X sched (.ok r) = .ok v ↔
      DecodesTo X d ((a.src.bytes.drop off).take d.compSize.toNat) v := by
  simp only [Archive.openShared, Option.ite_none_right_eq_some] at h
  obtain ⟨hm, h⟩ := h
  split at h
  · rename_i data hdata
    rw [Option.ite_none_right_eq_some] at h
    obtain ⟨-, h⟩ := h
    cases h
    have hdata : data = a.src.bytes := Source.sharedData_eq hdata
    rw [EntryReader.fromShared, contentOf_fresh, Inner.remaining_shared, Inner.tailErr,
      decodesTo_checked (opensAes_of_plain hp), hm, decode, hdata]
    simp only [Option.some.injEq, Decoded.mk.injEq, and_true, true_and, forall_const, eq_comm]
  · cases h

/-- The slice of the source is decoded at once. Where it ends early, the decoder meets the end that
a stream would have met. -/
theorem openSlice_holds {a a' : Archive} {d : Dirent} {off : Nat} {o : Result EntryReader} {v : Bytes}
    {sched : Schedule} (hz : d.zeroCopy = true) (hfit : off + d.compSize.toNat < 2 ^ 64)
    (h : a.openSlice X d off = some (o, a')) :
    contentOf X sched o = .ok v ↔
      DecodesTo X d ((a.src.bytes.drop off).take d.compSize.toNat) v := by
  simp only [Dirent.zeroCopy, Bool.and_eq_true, Bool.not_eq_true', decide_eq_true_eq] at hz
  obtain ⟨⟨hp, -⟩, hsmall⟩ := hz
  have hsmall : d.uncompSize.toNat ≤ 64 * 1024 := UInt64.le_iff_toNat_le.mp hsmall
  simp only [Archive.openSlice, addUsize, if_pos hfit] at h
  split at h
  · cases h
  · rename_i slice hslice
    obtain rfl : slice = a.src.bytes := Source.asSlice_eq hslice
    rw [Option.ite_none_right_eq_some] at h
    obtain ⟨hle, h⟩ := h
    set data := (a.src.bytes.drop off).take
      (min (off + d.compSize.toNat) a.src.bytes.length - off) with hdata
    have htake : data.take d.compSize.toNat = (a.src.bytes.drop off).take d.compSize.toNat := by
      rw [hdata, List.take_take]
      refine List.take_eq_take_iff.mpr ?_
      rw [List.length_drop]
      omega
    have hok : decodeSliceInto X data d.compMethod d.compSize a.pool.acquire.1 = .ok v ↔ _ :=
      decodeSliceInto_ok X
    rw [htake] at hok
    rw [decodesTo_checked (opensAes_of_plain hp)]
    split at h
    · rename_i e he
      cases h
      rw [he] at hok
      constructor
      · intro h
        cases h
      · rintro ⟨hdec, hsize, -⟩
        refine absurd (hok.mpr ⟨hdec, ?_⟩) (by simp)
        rw [hsize, maxDecompressed]
        omega
    · rename_i decoded hd
      cases h
      rw [hd] at hok
      rw [EntryReader.fromBuffer, contentOf_fresh, Inner.remaining, Inner.tailErr, List.drop_zero]
      constructor
      · rintro ⟨rfl, -, hsize, hcrc⟩
        exact ⟨(hok.mp rfl).1, hsize, hcrc rfl⟩
      · rintro ⟨hdec, hsize, hcrc⟩
        refine ⟨?_, rfl, hsize, fun _ => hcrc⟩
        have := hok.mpr ⟨hdec, by rw [hsize, maxDecompressed]; omega⟩
        exact (Except.ok.inj this).symm

theorem openZeroCopy_holds {a a' : Archive} {d : Dirent} {off : Nat} {o : Result EntryReader}
    {v : Bytes} {sched : Schedule} {password : Option Bytes} (hfit : off + d.compSize.toNat < 2 ^ 64)
    (h : a.openZeroCopy X d off = some (o, a')) :
    contentOf X sched o = .ok v ↔ Holds X a.src.bytes d off password v := by
  simp only [Archive.openZeroCopy, Option.ite_none_right_eq_some] at h
  obtain ⟨hz, h⟩ := h
  have hp : d.encrypted = false := by
    simp only [Dirent.zeroCopy, Bool.and_eq_true, Bool.not_eq_true'] at hz
    exact hz.1.1
  rw [holds_plain hp]
  split at h
  · rename_i r hr
    cases h
    exact openShared_holds hp hr
  · exact openSlice_holds hz hfit h

theorem resolvePassword_ok {a : Archive} {password : Option Bytes} {pw : Bytes} :
    a.resolvePassword password = .ok pw ↔ password.or a.password = some pw := by
  rw [Archive.resolvePassword]
  cases password.or a.password <;> simp

theorem openAes_holds {a : Archive} (hlen : a.src.bytes.length < 2 ^ 63) {d : Dirent} {off : Nat}
    {password : Option Bytes} {v : Bytes} {sched : Schedule} (haes : opensAes d = true) :
    contentOf X sched (a.openAes X d off password) = .ok v ↔
      ∃ pw, password.or a.password = some pw ∧
        ∃ c, aesCompressed X a.src.bytes d off pw = some c ∧ DecodesTo X d c v := by
  simp only [Archive.openAes, contentOf_bind, resolvePassword_ok, readAt_iff hlen, contentOf_guard,
    contentOf_newSkipCrc haes]
  refine exists_congr fun pw => and_congr_right fun _ => ?_
  set region := (a.src.bytes.drop off).take d.compSize.toNat with hregion
  -- all that was decrypted is decoded
  have htake {plain : Bytes} (h : aesDecryptData X pw d.encryptionMethod region = .ok plain) :
      plain.take (UInt64.ofNat plain.length).toNat = plain := by
    have hle := length_aesDecryptData h
    have hsize := d.compSize.toNat_lt
    rw [hregion, List.length_take] at hle
    rw [UInt64.toNat_ofNat_of_lt' (by rw [UInt64.size]; omega), List.take_length]
  simp only [aesCompressed, ← hregion]
  constructor
  · rintro ⟨hmax, _, ⟨rfl, hn⟩, plain, hplain, hdec⟩
    rw [htake hplain] at hdec
    refine ⟨plain, ?_, hdec⟩
    rw [if_pos ⟨UInt64.not_lt.mp hmax, hn⟩, hplain]
    rfl
  · rintro ⟨plain, hc, hdec⟩
    rw [Option.ite_none_right_eq_some] at hc
    obtain ⟨⟨hmax, hn⟩, hc⟩ := hc
    have hplain : aesDecryptData X pw d.encryptionMethod region = .ok plain := by
      revert hc
      cases aesDecryptData X pw d.encryptionMethod region with
      | error e => exact fun hc => (by cases hc)
      | ok p => exact fun hc => congrArg Except.ok (Option.some.inj hc)
    exact ⟨UInt64.not_lt.mpr hmax, region, ⟨rfl, hn⟩, plain, hplain, (htake hplain).symm ▸ hdec⟩

theorem openZipCrypto_holds {a : Archive} (hlen : a.src.bytes.length < 2 ^ 63) {d : Dirent}
    {off : Nat} {password : Option Bytes} {v : Bytes} {sched : Schedule} (haes : opensAes d = false) :
    contentOf X sched (a.openZipCrypto X d off password) = .ok v ↔
      ∃ pw, password.or a.password = some pw ∧
        ∃ c, zipCryptoCompressed a.src.bytes d off pw = some c ∧ DecodesTo X d c v := by
  have hsub (hle : encryptionHeaderLen ≤ d.compSize.toNat) :
      (d.compSize - UInt64.ofNat encryptionHeaderLen).toNat =
        d.compSize.toNat - encryptionHeaderLen :=
    UInt64.toNat_sub_of_le _ _ (UInt64.le_iff_toNat_le.mpr hle)
  simp only [Archive.openZipCrypto, contentOf_bind, resolvePassword_ok, readAt_iff hlen,
    contentOf_guard, contentOf_new haes, zipCryptoCompressed]
  refine exists_congr fun pw => and_congr_right fun _ => ?_
  constructor
  · rintro ⟨_, ⟨rfl, hn⟩, hcheck, hsize, hdec⟩
    have hle : encryptionHeaderLen ≤ d.compSize.toNat :=
      Nat.le_of_not_lt fun h => hsize (UInt64.lt_iff_toNat_lt.mpr h)
    rw [hsub hle] at hdec
    exact ⟨_, if_pos ⟨hn, hle, Classical.not_not.mp hcheck⟩, hdec⟩
  · rintro ⟨c, hc, hdec⟩
    rw [Option.ite_none_right_eq_some] at hc
    obtain ⟨⟨hn, hle, hcheck⟩, hc⟩ := hc
    cases hc
    refine ⟨_, ⟨rfl, hn⟩, Classical.not_not.mpr hcheck, ?_, (hsub hle).symm ▸ hdec⟩
    exact fun h => absurd (UInt64.lt_iff_toNat_lt.mp h) (Nat.not_lt.mpr hle)

theorem exists_bind_some {α β : Type} {o : Option α} {f : α → Option β} {p : β → Prop} :
    (∃ b, o.bind f = some b ∧ p b) ↔ ∃ a, o = some a ∧ ∃ b, f a = some b ∧ p b := by
  cases o <;> simp

theorem openStreaming_holds {a : Archive} (hlen : a.src.bytes.length < 2 ^ 63) {d : Dirent}
    {off : Nat} {password : Option Bytes} {v : Bytes} {sched : Schedule} :
    contentOf X sched (a.openStreaming X d off password) = .ok v ↔
      Holds X a.src.bytes d off (password.or a.password) v := by
  rw [Archive.openStreaming]
  by_cases hp : d.encrypted
  · by_cases haes : isAesMethod d.encryptionMethod
    · rw [if_pos hp, if_pos haes, openAes_holds hlen (by rw [opensAes, hp, haes]; rfl)]
      simp only [Holds, compressed, hp, haes, ↓reduceIte, exists_bind_some]
    · have hnot : opensAes d = false := by
        rw [opensAes, Bool.eq_false_of_not_eq_true haes, Bool.and_false]
      rw [if_pos hp, if_neg haes, contentOf_guard, openZipCrypto_holds hlen hnot]
      simp only [Holds, compressed, hp, haes, ↓reduceIte]
      by_cases hm : d.encryptionMethod = encryption.tradPkware
      · simp only [hm, Bool.false_eq_true, ↓reduceIte, exists_bind_some, ne_eq, not_true_eq_false,
          not_false_eq_true, true_and]
      · simp [hm]
  · have hp : d.encrypted = false := Bool.eq_false_of_not_eq_true hp
    rw [holds_plain hp, hp, if_neg Bool.false_ne_true, contentOf_new (opensAes_of_plain hp)]

/-- Reading an entry gives bytes exactly when it holds them. -/
theorem readEntry_iff {a : Archive} (hlen : a.src.bytes.length < 2 ^ 63) {index : Nat} {d : Dirent}
    {off : Nat} (hd : a.entries[index]? = some d) (hoff : d.findDataOffset a.src = .ok off)
    (hfit : off + d.compSize.toNat < 2 ^ 64) (sched : Schedule) (password : Option Bytes) {v : Bytes} :
    (a.readEntryWithPassword X sched index password).1 = .ok v ↔
      Holds X a.src.bytes d off (password.or a.password) v := by
  rw [readEntry_eq hd, Archive.openDirent, hoff]
  dsimp only
  split
  · rename_i res hz
    exact openZeroCopy_holds (a := a.cacheOffset index off) hfit (show _ = some (res.1, res.2) from hz)
  · exact openStreaming_holds (a := a.cacheOffset index off) hlen

theorem readEntry_no_panic {a : Archive} (hlen : a.src.bytes.length < 2 ^ 63) {index : Nat}
    (hfit : ∀ d off, a.entries[index]? = some d → d.findDataOffset a.src = .ok off →
      off + d.compSize.toNat < 2 ^ 64) (sched : Schedule) (password : Option Bytes) :
    (a.readEntryWithPassword X sched index password).1 ≠ .error .panic := by
  cases hd : a.entries[index]? with
  | none =>
    rw [readEntry_missing hd]
    exact err_ne_panic
  | some d =>
    rw [readEntry_eq hd]
    refine bind_ne_error (fun h => ?_) fun r hr => ?_
    · obtain ⟨off, hoff, -, -, -, hbig⟩ := (openDirent_panic hlen).mp h
      have := hfit d off hd hoff
      omega
    · obtain ⟨-, -, ⟨-, inner, rfl⟩ | ⟨-, inner, pw, rfl, -⟩⟩ := openDirent_ok hr
      all_goals exact readToEnd_fresh_no_panic _ _ _ _ _

/-! ## Kinds of sources -/

/-- The entries that were found; none where the directory could not be read. -/
def entriesOf (r : Result CentralDir) : List Dirent := (r.toOption.map (·.entries)).getD []

section
variable {s s' : Source}

theorem readExact_alike (hb : s.bytes = s'.bytes) (pos n : Nat) : s.readExact pos n = s'.readExact pos n := by
  simp only [Source.readExact, hb]

/-- A ZIP64 end record lies within the source, where every seek succeeds. -/
theorem readEocd64_alike (hb : s.bytes = s'.bytes) (hlen : s.bytes.length < 2 ^ 63) (offset : UInt64) :
    readEocd64 s offset = readEocd64 s' offset := by
  simp only [readEocd64, readExact_alike hb]
  by_cases hlt : offset.toNat < 2 ^ 63
  · rw [s.canSeek_of_lt hlt, s'.canSeek_of_lt hlt]
  · have hnone : s'.readExact offset.toNat size.eocd64 = none := by
      rw [Source.readExact, if_neg (by decide), if_neg (by rw [← hb]; omega)]
    simp only [hnone, ite_self]

/-- Where the offset of the directory cannot be sought, there are no records to read. -/
theorem readEntries_seek (hlen : s.bytes.length < 2 ^ 63) {offset : UInt64}
    (hseek : s.canSeek offset.toNat = false) (s' : Source) (hb : s.bytes = s'.bytes)
    (cdirSize numEntries : UInt64) :
    (readEntries s' offset cdirSize numEntries).toOption.getD [] = [] := by
  have hpos : ¬ offset.toNat < 2 ^ 63 := fun h => by
    rw [s.canSeek_of_lt h] at hseek
    cases hseek
  rw [readEntries]
  split
  · rfl
  · split
    · rfl
    · by_cases hzero : cdirSize.toNat = 0
      · simp only [Source.readExact, hzero, ↓reduceIte, List.length_nil, parseEntriesLoop]
        dsimp only [bind, Except.bind]
        split <;> rfl
      · rw [Source.readExact, if_neg hzero, if_neg (by rw [← hb]; omega)]
        rfl

theorem readEntries_alike (hb : s.bytes = s'.bytes) (hlen : s.bytes.length < 2 ^ 63)
    (offset cdirSize numEntries : UInt64) :
    (readEntries s offset cdirSize numEntries).toOption.getD [] =
      (readEntries s' offset cdirSize numEntries).toOption.getD [] := by
  cases hs : s.canSeek offset.toNat with
  | false => rw [readEntries_seek hlen hs s rfl, readEntries_seek hlen hs s' hb]
  | true =>
    cases hs' : s'.canSeek offset.toNat with
    | false => rw [readEntries_seek (hb ▸ hlen) hs' s hb.symm, readEntries_seek (hb ▸ hlen) hs' s' rfl]
    | true => simp only [readEntries, hs, hs', readExact_alike hb]

theorem entriesOf_cdirAt (s : Source) (comment : Lib.Utf8.Str) (n : UInt64) (z : Bool)
    (cdirSize cdirOffset : UInt64) : entriesOf (cdirAt s comment n z cdirSize cdirOffset) =
      (readEntries s cdirOffset cdirSize n).toOption.getD [] := by
  rw [cdirAt]
  cases readEntries s cdirOffset cdirSize n <;> rfl

end

/-! ## The search, in two sources -/

/-- What a candidate for the end record comes to, under a view of its directory: `none` is to keep
searching. -/
def found {β : Type} (view : Result CentralDir → β) : Result (Option CentralDir) → Option β
  | .ok none => none
  | .ok (some cd) => some (view (.ok cd))
  | .error e => some (view (.error e))

theorem found_map {β : Type} (view : Result CentralDir → β) (r : Result CentralDir) :
    found view (r.map some) = some (view r) := by
  cases r <;> rfl

/-- Two sources of the same bytes, under a view in which every directory looks the same in both, and
every failure too. -/
structure Alike {β : Type} (view : Result CentralDir → β) (s s' : Source) : Prop where
  bytes : s.bytes = s'.bytes
  short : s.bytes.length < 2 ^ 63
  failure : ∀ e e', view (.error e) = view (.error e')
  directory : ∀ comment n z cdirSize cdirOffset,
    view (cdirAt s comment n z cdirSize cdirOffset) = view (cdirAt s' comment n z cdirSize cdirOffset)

section
variable {β : Type} {view : Result CentralDir → β} {s s' : Source}

theorem Alike.cdirOf (h : Alike view s s') (comment : Lib.Utf8.Str) (n : UInt16)
    (cdirSize cdirOffset : UInt64) (locator : Option UInt64) :
    view (cdirOf s comment n cdirSize cdirOffset locator) =
      view (cdirOf s' comment n cdirSize cdirOffset locator) := by
  have hfinish (z : Bool) (cdirSize cdirOffset : UInt64) :
      view (finishCdir s comment n z cdirSize cdirOffset) =
        view (finishCdir s' comment n z cdirSize cdirOffset) := by
    rw [finishCdir, finishCdir]
    split
    · rfl
    · exact h.directory _ _ _ _ _
  cases locator with
  | none => exact hfinish _ _ _
  | some offset =>
    simp only [Impl.cdirOf, readEocd64_alike h.bytes h.short offset]
    split
    · split
      · exact h.directory _ _ _ _ _
      · exact hfinish _ _ _
    · exact hfinish _ _ _

theorem Alike.tryParseCdir (h : Alike view s s') (tail : Bytes) (start abs : Nat) :
    found view (tryParseCdir s tail start abs) = found view (tryParseCdir s' tail start abs) := by
  simp only [Impl.tryParseCdir]
  split
  · rfl
  · split
    · rfl
    · split
      · rfl
      · rw [found_map, found_map, h.cdirOf]

/-- The search goes on past the same candidates. -/
theorem Alike.firstCdir (h : Alike view s s') (tail : Bytes) (start : Nat) (cands : List Nat) :
    found view (firstCdir s tail start cands) = found view (firstCdir s' tail start cands) := by
  induction cands with
  | nil => rfl
  | cons abs cands ih =>
    have hstep (s : Source) : found view (Impl.firstCdir s tail start (abs :: cands)) =
        (found view (Impl.tryParseCdir s tail start abs)).or
          (found view (Impl.firstCdir s tail start cands)) := by
      rw [Impl.firstCdir]
      cases Impl.tryParseCdir s tail start abs with
      | error e => rfl
      | ok o => cases o <;> simp [found, bind, Except.bind]
    rw [hstep s, hstep s', h.tryParseCdir, ih]

theorem Alike.readCentralDir (h : Alike view s s') :
    view (readCentralDir s) = view (readCentralDir s') := by
  have hread (s : Source) : view (Impl.readCentralDir s) =
      if s.bytes.length < size.eocd then view (.error (.err .nozip)) else
        (found view (Impl.firstCdir s (s.bytes.drop (s.bytes.length - min s.bytes.length maxCdBuffer))
          (s.bytes.length - min s.bytes.length maxCdBuffer)
          (candidates (s.bytes.drop (s.bytes.length - min s.bytes.length maxCdBuffer))
            (s.bytes.length - min s.bytes.length maxCdBuffer)))).getD (view (.error (.err .nozip))) := by
    simp only [Impl.readCentralDir]
    split
    · rfl
    · cases Impl.firstCdir s _ _ _ with
      | error e => rfl
      | ok o =>
        cases o with
        | none =>
          dsimp only [bind, Except.bind]
          split
          · exact h.failure _ _
          · rfl
        | some cd => rfl
  rw [hread s, hread s', ← h.bytes, h.firstCdir]

end

/-- The same bytes hold the same entries, whatever they are kept in. -/
theorem entries_alike {s s' : Source} (hb : s.bytes = s'.bytes) (hlen : s.bytes.length < 2 ^ 63) :
    entriesOf (readCentralDir s) = entriesOf (readCentralDir s') := by
  refine Alike.readCentralDir ⟨hb, hlen, fun _ _ => rfl, fun _ _ _ _ _ => ?_⟩
  rw [entriesOf_cdirAt, entriesOf_cdirAt, readEntries_alike hb hlen]

/-! ## Reading from any source -/

/-- An archive just opened: its bytes and entries, and no default password. -/
theorem open_parts {src : Source} {a : Archive} (h : Archive.open src = .ok a) :
    a.src.bytes = src.bytes ∧ a.entries = entriesOf (readCentralDir src) ∧ a.password = none := by
  obtain ⟨cd, hcd, h⟩ := bind_ok.mp h
  cases h
  refine ⟨Source.forEntries_bytes src, ?_, rfl⟩
  rw [hcd]
  rfl

/-- What is read from a source: the content of the entry that its bytes hold. -/
theorem readFrom_iff {bytes : Vec} {index : Nat} (hfit : FitsUsize bytes index) (sched : Schedule)
    (kind : SourceKind) (password : Option Bytes) {v : Bytes} :
    readFrom X sched kind bytes index password = .ok v ↔
      ∃ d off, (entriesOf (readCentralDir { kind, bytes := bytes.val }))[index]? = some d ∧
        localHeaderLen { kind, bytes := bytes.val } d.offset.toNat = .ok off ∧
        Holds X bytes.val d off password v := by
  rw [readFrom, bind_ok]
  constructor
  · rintro ⟨a, ha, h⟩
    obtain ⟨d, off, hd, hoff, -⟩ := readEntry_ok h
    obtain ⟨hsrc, hentries, hpw⟩ := open_parts ha
    have hlen : a.src.bytes.length < 2 ^ 63 := hsrc ▸ bytes.property
    have hlocal := hoff
    rw [findDataOffset_eq (open_cacheOk ha) (List.mem_of_getElem? hd)] at hlocal
    refine ⟨d, off, hentries ▸ hd, (localHeaderLen_alike _ _ hsrc hlen).mp hlocal, ?_⟩
    have hv := (readEntry_iff hlen hd hoff (hfit kind a d off ha hd hlocal) sched password).mp h
    rwa [hsrc, hpw, Option.or_none] at hv
  · rintro ⟨d, off, hd, hlocal, hv⟩
    obtain ⟨a, ha⟩ : ∃ a, Archive.open { kind, bytes := bytes.val } = .ok a := by
      rw [Archive.open]
      cases hread : readCentralDir { kind, bytes := bytes.val } with
      | error e => rw [hread] at hd; cases hd
      | ok cd => exact ⟨_, rfl⟩
    obtain ⟨hsrc, hentries, hpw⟩ := open_parts ha
    have hlen : a.src.bytes.length < 2 ^ 63 := hsrc ▸ bytes.property
    rw [← hentries] at hd
    have hlocal := (localHeaderLen_alike _ _ hsrc hlen).mpr hlocal
    have hoff := hlocal
    rw [← findDataOffset_eq (open_cacheOk ha) (List.mem_of_getElem? hd)] at hoff
    refine ⟨a, ha, (readEntry_iff hlen hd hoff (hfit kind a d off ha hd hlocal) sched password).mpr ?_⟩
    rwa [hsrc, hpw, Option.or_none]

theorem readFrom_no_panic {bytes : Vec} {index : Nat} (hfit : FitsUsize bytes index)
    (sched : Schedule) (kind : SourceKind) (password : Option Bytes) :
    readFrom X sched kind bytes index password ≠ .error .panic := by
  refine bind_ne_error (open_no_panic _) fun a ha => ?_
  have hlen : a.src.bytes.length < 2 ^ 63 := by
    rw [(open_parts ha).1]
    exact bytes.property
  refine readEntry_no_panic hlen (fun d off hd hoff => hfit kind a d off ha hd ?_) sched password
  rwa [findDataOffset_eq (open_cacheOk ha) (List.mem_of_getElem? hd)] at hoff

/-- Every source gives the same outcome, whichever way it has its entries opened. -/
theorem reads_alike (X : Extern) (bytes : Vec) (index : Nat) (password : Option Bytes)
    (hfit : FitsUsize bytes index) : ReadsAlike X bytes index password := by
  -- what is read from one source is read from every other
  have hsame {kind kind' : SourceKind} {sched sched' : Schedule} {v : Bytes}
      (h : readFrom X sched kind bytes index password = .ok v) :
      readFrom X sched' kind' bytes index password = .ok v := by
    obtain ⟨d, off, hd, hoff, hv⟩ := (readFrom_iff hfit sched kind password).mp h
    refine (readFrom_iff hfit sched' kind' password).mpr ⟨d, off, ?_, ?_, hv⟩
    · rw [← hd]
      exact congrArg (·[index]?) (entries_alike rfl bytes.property)
    · exact (localHeaderLen_alike ⟨kind, bytes.val⟩ ⟨kind', bytes.val⟩ rfl bytes.property).mp hoff
  by_cases hok : ∃ v kind sched, readFrom X sched kind bytes index password = .ok v
  · obtain ⟨v, kind, sched, h⟩ := hok
    exact .inl ⟨v, fun _ _ => hsame h⟩
  · refine .inr fun kind sched => ?_
    have hno := readFrom_no_panic (X := X) hfit sched kind password
    cases h : readFrom X sched kind bytes index password with
    | ok v => exact absurd ⟨v, kind, sched, h⟩ hok
    | error e =>
      cases e with
      | err code => exact ⟨code, rfl⟩
      | panic => exact absurd h hno

/-- The stored entry of the sample archive: shared with the source, decoded from its slice, or
streamed. -/
theorem reads_alike_sample : ∃ bytes : Vec, bytes.val = sampleArchive ∧ FitsUsize bytes 0 ∧
    ReadsAlike reference bytes 0 none := by
  have hlen : sampleArchive.length < 2 ^ 63 := by decide +kernel
  have hsmall : ∀ kind ∈ [SourceKind.vec, .arc, .file false, .file true, .mmap, .shared],
      (Archive.open { kind, bytes := sampleArchive }).toOption.all (fun a => a.entries[0]?.all fun d =>
        (localHeaderLen a.src d.offset.toNat).toOption.all fun off =>
          decide (off + d.compSize.toNat < 2 ^ 64)) = true := by decide +kernel
  have hfit : FitsUsize ⟨sampleArchive, hlen⟩ 0 := by
    intro kind a d off ha hd hoff
    have h := hsmall kind (by cases kind with
      | file maps => cases maps <;> decide
      | _ => decide)
    rw [ha] at h
    simp only [Except.toOption, Option.all_some, hd, hoff, decide_eq_true_eq] at h
    exact h
  exact ⟨⟨sampleArchive, hlen⟩, rfl, hfit, reads_alike reference _ 0 none hfit⟩

end Kzip.Impl
