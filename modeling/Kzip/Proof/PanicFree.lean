import Kzip.Proof.Checked
import Kzip.Spec.PanicFree

/-!
# When opening and reading are free from panics

`panicFree_iff`: over a slice-backed source, exactly when the sums of `SumsFit` have a result. The
directory and the reading of an opened entry never panic.
-/

namespace Kzip.Impl

open Lib Kzip.Spec

variable {X : Extern}

/-- An opened entry is in memory as part of the archive, or decoded to a bounded length, if at all. -/
theorem openDirent_fits {a : Archive} (hlen : a.src.bytes.length < 2 ^ 63) {index : Nat} {d : Dirent}
    {password : Option Bytes} {r : EntryReader} (h : (a.openDirent X index d password).1 = .ok r) :
    Checked.Fits r.inner := by
  simp only [Archive.openDirent] at h
  split at h
  · cases h
  · rename_i off hoff
    split at h
    · rename_i res hz
      simp only [Archive.openZeroCopy, Option.ite_none_right_eq_some] at hz
      obtain ⟨-, hz⟩ := hz
      split at hz
      · rename_i r' hs
        cases hz
        cases h
        simp only [Archive.openShared, Option.ite_none_right_eq_some] at hs
        obtain ⟨-, hs⟩ := hs
        split at hs
        · rename_i data hdata
          rw [Option.ite_none_right_eq_some] at hs
          cases hs.2
          show data.length < 2 ^ 63
          rw [Source.sharedData_eq hdata]
          exact hlen
        · cases hs
      · simp only [Archive.openSlice] at hz
        split at hz
        · cases hz
        · split at hz
          · cases hz
            cases h
          · rw [Option.ite_none_right_eq_some] at hz
            obtain ⟨-, hz⟩ := hz
            split at hz
            · cases hz
              cases h
            · rename_i decoded hdec
              cases hz
              cases h
              have hmax := ((decodeSliceInto_ok X).mp hdec).2
              exact Nat.lt_of_le_of_lt hmax (by decide)
    · rcases openStreaming_ok h with ⟨-, dec, rfl⟩ | ⟨-, dec, pw, rfl, -⟩
      all_goals exact trivial

/-- Opening an entry for the first time panics in the seek of a mapping, or in the sum that ends the
slice. -/
theorem openEntry_panic {a : Archive} (hlen : a.src.bytes.length < 2 ^ 63)
    (hslice : a.src.asSlice.isSome) {index : Nat} {d : Dirent} (hd : a.entries[index]? = some d)
    (hfresh : d.dataOffset = none) {password : Option Bytes} :
    (Checked.openEntryWithPassword X a index password).1 = .error .panic ↔
      ∃ off, localHeaderLen a.src d.offset.toNat = .ok off ∧
        ((a.src.kind = .mmap ∧ 2 ^ 63 ≤ off) ∨
          (d.zeroCopy = true ∧ 2 ^ 64 ≤ off + d.compSize.toNat)) := by
  have hplain := @openDirent_panic (checking X) a hlen index d password
  have hoff : d.findDataOffset a.src = localHeaderLen a.src d.offset.toNat := by
    rw [Dirent.findDataOffset, hfresh]
  rw [Checked.openEntryWithPassword, hd]
  dsimp only
  rw [Checked.openDirent_eq hlen hfresh, hoff]
  rw [hoff] at hplain
  cases hlocal : localHeaderLen a.src d.offset.toNat with
  | error e =>
    have hno := localHeaderLen_no_panic a.src d.offset.toNat
    rw [hlocal] at hno
    simpa using hno
  | ok off =>
    rw [ok_bind]
    by_cases hseek : a.src.kind = .mmap ∧ 2 ^ 63 ≤ off
    · rw [if_pos hseek]
      exact ⟨fun _ => ⟨off, rfl, .inl hseek⟩, fun _ => rfl⟩
    · rw [if_neg hseek, hplain, hlocal]
      constructor
      · rintro ⟨off', hoff', hz, -, -, hbig⟩
        exact ⟨off', hoff', .inr ⟨hz, hbig⟩⟩
      · rintro ⟨off', hoff', hmap | ⟨hz, hbig⟩⟩
        · cases hoff'
          exact absurd hmap hseek
        · exact ⟨off', hoff', hz, hslice, rfl, hbig⟩

/-- What opening an entry for the first time gives otherwise. -/
theorem openEntry_ok {a : Archive} (hlen : a.src.bytes.length < 2 ^ 63) {index : Nat} {d : Dirent}
    (hd : a.entries[index]? = some d) (hfresh : d.dataOffset = none) {password : Option Bytes}
    {r : EntryReader} (h : (Checked.openEntryWithPassword X a index password).1 = .ok r) :
    ∃ i crc size check, r = .fresh i crc size check ∧ Checked.Fits i := by
  rw [Checked.openEntryWithPassword, hd] at h
  dsimp only at h
  rw [Checked.openDirent_eq hlen hfresh] at h
  obtain ⟨off, -, h⟩ := bind_ok.mp h
  obtain ⟨-, h⟩ := guard_ok.mp h
  have hfits := openDirent_fits hlen h
  obtain ⟨-, -, ⟨-, inner, rfl⟩ | ⟨-, inner, pw, rfl, -⟩⟩ := openDirent_ok h
  all_goals exact ⟨_, _, _, _, rfl, hfits⟩

/-- Over a slice-backed source, an archive is opened and an entry is read without a panic exactly when
the sums fit. -/
theorem panicFree_iff (X : Extern) (kind : SourceKind) (bytes : Vec) (index : Nat)
    (password : Option Bytes) (hslice : ({ kind, bytes := bytes.val } : Source).asSlice.isSome) :
    PanicFree X { kind, bytes := bytes.val } index password ↔
      SumsFit { kind, bytes := bytes.val } index := by
  set src : Source := { kind, bytes := bytes.val } with hsrceq
  have hlen : src.bytes.length < 2 ^ 63 := bytes.property
  have hopen := Checked.open_eq hlen
  have hparts {a : Archive} (ha : Archive.open src = .ok a) :
      a.src = src ∧ ∀ d ∈ a.entries, d.dataOffset = none := by
    obtain ⟨cd, hcd, h⟩ := bind_ok.mp ha
    cases h
    exact ⟨Source.forEntries_of_asSlice hslice, fun d hd => (readCentralDir_parsed hcd d hd).not_cached⟩
  constructor
  · intro h a d off ha hd hoff
    obtain ⟨hsrc, hfresh⟩ := hparts ha
    have hpanic : (Checked.openEntryWithPassword X a index password).1 = .error .panic ↔ _ :=
      openEntry_panic (hsrc ▸ hlen) (hsrc ▸ hslice) hd (hfresh d (List.mem_of_getElem? hd))
    rw [hsrc] at hpanic
    have hno := mt hpanic.mpr (h.openEntry a (hopen.trans ha))
    constructor
    · refine fun hkind => Nat.lt_of_not_le fun hbig => hno ⟨off, hoff, .inl ⟨hkind, hbig⟩⟩
    · exact fun hz => Nat.lt_of_not_le fun hbig => hno ⟨off, hoff, .inr ⟨hz, hbig⟩⟩
  · intro h
    refine ⟨?_, ?_, fun a ha hpanic => ?_, fun a r sched ha hr => ?_⟩
    · rw [Checked.readCentralDir_eq hlen]
      exact readCentralDir_no_panic src
    · rw [hopen]
      exact open_no_panic src
    · rw [hopen] at ha
      obtain ⟨hsrc, hfresh⟩ := hparts ha
      cases hd : a.entries[index]? with
      | none =>
        simp only [Checked.openEntryWithPassword, hd] at hpanic
        cases hpanic
      | some d =>
        obtain ⟨off, hoff, hbig⟩ := (openEntry_panic (hsrc ▸ hlen) (hsrc ▸ hslice) hd
          (hfresh d (List.mem_of_getElem? hd))).mp hpanic
        rw [hsrc] at hoff hbig
        obtain ⟨hmap, hslice⟩ := h a d off ha hd hoff
        rcases hbig with ⟨hkind, hbig⟩ | ⟨hz, hbig⟩
        · exact absurd (hmap hkind) (Nat.not_lt.mpr hbig)
        · exact absurd (hslice hz) (Nat.not_lt.mpr hbig)
    · rw [hopen] at ha
      obtain ⟨hsrc, hfresh⟩ := hparts ha
      cases hd : a.entries[index]? with
      | none =>
        simp only [Checked.openEntryWithPassword, hd] at hr
        cases hr
      | some d =>
        obtain ⟨i, crc, size, check, rfl, hfits⟩ := openEntry_ok (hsrc ▸ hlen) hd
          (hfresh d (List.mem_of_getElem? hd)) hr
        exact Checked.readToEnd_fresh_no_panic sched hfits crc size check

theorem panicFree_sample : PanicFree reference { kind := .vec, bytes := sampleArchive } 0 none := by
  refine (panicFree_iff reference .vec ⟨sampleArchive, by decide +kernel⟩ 0 none rfl).mpr ?_
  obtain ⟨a, ha, hp⟩ := exists_ok (x := Archive.open { kind := .vec, bytes := sampleArchive })
    (p := fun a => decide (∀ d ∈ a.entries,
      ∀ off ∈ (localHeaderLen { kind := .vec, bytes := sampleArchive } d.offset.toNat).toOption,
        off + d.compSize.toNat < 2 ^ 64))
    (by decide +kernel)
  intro a' d off ha' hd hoff
  obtain rfl : a = a' := Except.ok.inj (ha.symm.trans ha')
  have hsum := of_decide_eq_true hp d (List.mem_of_getElem? hd) off
  rw [hoff] at hsum
  exact ⟨by simp, fun _ => hsum rfl⟩

/-- The archive of one empty stored file `a` whose central record gives, in a ZIP64 field, a
compressed size of `2 ^ 64 - 1`. -/
def hugeArchive : Bytes :=
  let localHeader := [0x50, 0x4B, 3, 4, 20, 0, 0, 0, 0, 0, 0, 0, 0x21, 0, 0, 0, 0, 0, 0, 0, 0, 0, 0, 0,
    0, 0, 1, 0, 0, 0, 0x61]
  let central := [0x50, 0x4B, 1, 2, 20, 0, 20, 0, 0, 0, 0, 0, 0, 0, 0x21, 0, 0, 0, 0, 0,
    0xFF, 0xFF, 0xFF, 0xFF, 0, 0, 0, 0, 1, 0, 12, 0, 0, 0, 0, 0, 0, 0, 0, 0, 0, 0, 0, 0, 0, 0, 0x61]
  let zip64 := [1, 0, 8, 0, 0xFF, 0xFF, 0xFF, 0xFF, 0xFF, 0xFF, 0xFF, 0xFF]
  let eocd := [0x50, 0x4B, 5, 6, 0, 0, 0, 0, 1, 0, 1, 0, 59, 0, 0, 0, 31, 0, 0, 0, 0, 0]
  [localHeader, central, zip64, eocd].flatten

/-- The end of the slice of an entry overflows. -/
theorem slice_end_overflows :
    ¬ PanicFree reference { kind := .vec, bytes := hugeArchive } 0 none := by
  intro h
  obtain ⟨a, ha, hp⟩ := exists_ok (x := Checked.open { kind := .vec, bytes := hugeArchive })
    (p := fun a => (Checked.openEntryWithPassword reference a 0 none).1 = .error .panic)
    (by decide +kernel)
  exact h.openEntry a ha (of_decide_eq_true hp)

end Kzip.Impl
