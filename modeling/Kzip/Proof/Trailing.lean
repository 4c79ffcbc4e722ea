import Kzip.Impl.Reference
import Kzip.Proof.Cdir

/-!
# Bytes after the archive

`readCentralDir_append`: bytes appended to an archive do not change what is read from it, as long as no
end-record signature comes with them, the ZIP64 end record is where it was, and the searched tail still
begins before the ZIP64 locator. That is the case up to 65536 bytes after the end record, whether or not
the tail is the whole source.
-/

namespace Kzip.Impl

open Lib Lib.LE Lib.Utf8

/-- The directory of a source is read through the end record at `e`. -/
structure ReadThrough (src : Source) (e : Nat) (cd : CentralDir) : Prop where
  read : readCentralDir src = .ok cd
  candidate : Candidate src e
  parses : tryParseAt src e = .ok (some cd)

/-- No end-record signature starts after `e`, also where there is no room for a record. -/
def NoSignatureAfter (bytes : Bytes) (e : Nat) : Prop :=
  ∀ p, e < p → (bytes.drop p).take 4 ≠ magic.eocd

instance (bytes : Bytes) (e : Nat) : Decidable (NoSignatureAfter bytes e) :=
  decidable_of_iff (∀ p, p < bytes.length → e < p → (bytes.drop p).take 4 ≠ magic.eocd) <| by
    refine forall_congr' fun p => ⟨fun h hp => ?_, fun h _ => h⟩
    by_cases hlt : p < bytes.length
    · exact h hlt hp
    · rw [List.drop_of_length_le (Nat.not_lt.mp hlt)]
      decide

/-- The ZIP64 end record that a locator before `e` points at lies inside. -/
def LocatedInside (bytes : Bytes) (e : Nat) : Prop :=
  ∀ offset, locatorBefore bytes e = some offset → offset.toNat + size.eocd64 ≤ bytes.length

/-! ## What is read from a longer source -/

theorem le16At_append_of_le {bs : Bytes} {i : Nat} (h : i + 2 ≤ bs.length) (more : Bytes) :
    le16At (bs ++ more) i = le16At bs i := by
  rw [← le16At_take h, List.take_left' rfl]

theorem le32At_append_of_le {bs : Bytes} {i : Nat} (h : i + 4 ≤ bs.length) (more : Bytes) :
    le32At (bs ++ more) i = le32At bs i := by
  rw [← le32At_take h, List.take_left' rfl]

section
variable {kind : SourceKind} {bytes more : Bytes}

theorem readExact_append {pos n : Nat} {bs : Bytes}
    (h : (Source.mk kind bytes).readExact pos n = some bs) :
    (Source.mk kind (bytes ++ more)).readExact pos n = some bs := by
  by_cases hn : n = 0
  · rw [Source.readExact, if_pos hn] at h ⊢
    exact h
  · rw [Source.readExact, if_neg hn, Option.ite_none_right_eq_some] at h
    obtain ⟨hfits, hbs⟩ := h
    have hlen : pos + n ≤ bytes.length := hfits
    have hmore : pos + n ≤ (bytes ++ more).length := by
      rw [List.length_append]
      omega
    rw [Source.readExact_ok hmore, ← hbs]
    have hdrop : (bytes ++ more).drop pos = bytes.drop pos ++ more :=
      List.drop_append_of_le_length (by omega)
    have htake : (bytes.drop pos ++ more).take n = (bytes.drop pos).take n :=
      List.take_append_of_le_length (by rw [List.length_drop]; omega)
    rw [hdrop, htake]

theorem readEocd64_append {offset : UInt64} (h : offset.toNat + size.eocd64 ≤ bytes.length) :
    readEocd64 ⟨kind, bytes ++ more⟩ offset = readEocd64 ⟨kind, bytes⟩ offset := by
  have hread : (Source.mk kind bytes).readExact offset.toNat size.eocd64 = some _ :=
    Source.readExact_ok h
  have hseek : (Source.mk kind (bytes ++ more)).canSeek offset.toNat =
      (Source.mk kind bytes).canSeek offset.toNat := rfl
  rw [readEocd64, readEocd64, hseek, hread, readExact_append hread]

theorem readEntries_append {offset cdirSize n : UInt64} {entries : List Dirent}
    (h : readEntries ⟨kind, bytes⟩ offset cdirSize n = .ok entries) :
    readEntries ⟨kind, bytes ++ more⟩ offset cdirSize n = .ok entries := by
  have hseek : (Source.mk kind (bytes ++ more)).canSeek offset.toNat =
      (Source.mk kind bytes).canSeek offset.toNat := rfl
  rw [readEntries] at h ⊢
  obtain ⟨hsize, h⟩ := guard_ok.mp h
  obtain ⟨hok, h⟩ := guard_ok.mp h
  rw [if_neg hsize, hseek, if_neg hok]
  cases hread : (Source.mk kind bytes).readExact offset.toNat cdirSize.toNat with
  | none =>
    rw [hread] at h
    cases h
  | some buf =>
    rw [hread] at h
    rw [readExact_append hread]
    exact h

theorem cdirAt_append {comment : Str} {n cdirSize cdirOffset : UInt64} {z : Bool} {cd : CentralDir}
    (h : cdirAt ⟨kind, bytes⟩ comment n z cdirSize cdirOffset = .ok cd) :
    cdirAt ⟨kind, bytes ++ more⟩ comment n z cdirSize cdirOffset = .ok cd := by
  obtain ⟨entries, hentries, h⟩ := bind_ok.mp h
  exact bind_ok.mpr ⟨entries, readEntries_append hentries, h⟩

theorem finishCdir_append {comment : Str} {n : UInt16} {cdirSize cdirOffset : UInt64} {z : Bool}
    {cd : CentralDir} (h : finishCdir ⟨kind, bytes⟩ comment n z cdirSize cdirOffset = .ok cd) :
    finishCdir ⟨kind, bytes ++ more⟩ comment n z cdirSize cdirOffset = .ok cd := by
  rw [finishCdir] at h ⊢
  split
  · rwa [if_pos ‹_›] at h
  · rw [if_neg ‹_›] at h
    exact cdirAt_append h

theorem cdirOf_append {comment : Str} {n : UInt16} {cdirSize cdirOffset : UInt64}
    {locator : Option UInt64} {cd : CentralDir}
    (hloc : ∀ offset, locator = some offset → offset.toNat + size.eocd64 ≤ bytes.length)
    (h : cdirOf ⟨kind, bytes⟩ comment n cdirSize cdirOffset locator = .ok cd) :
    cdirOf ⟨kind, bytes ++ more⟩ comment n cdirSize cdirOffset locator = .ok cd := by
  cases locator with
  | none => exact finishCdir_append h
  | some offset =>
    rw [cdirOf, readEocd64_append (hloc offset rfl)]
    rw [cdirOf] at h
    cases hz : readEocd64 ⟨kind, bytes⟩ offset with
    | none =>
      rw [hz] at h
      exact finishCdir_append h
    | some z =>
      rw [hz] at h
      dsimp only at h ⊢
      split
      · rw [if_pos ‹_›] at h
        exact cdirAt_append h
      · rw [if_neg ‹_›] at h
        exact finishCdir_append h

end

/-! ## The locator -/

/-- A locator is looked for in the whole source, if the searched tail begins before it. -/
theorem locatorBefore_tail {bytes : Bytes} {e : Nat} (hfits : e + size.eocd ≤ bytes.length)
    (h : bytes.length ≤ e + size.eocd + 65536) :
    locatorBefore (bytes.drop (tailStart bytes)) (e - tailStart bytes) = locatorBefore bytes e := by
  have he : size.eocd = 22 := rfl
  have hl : size.eocd64Locator = 20 := rfl
  have hstart : tailStart bytes = 0 ∨ tailStart bytes + size.eocd64Locator ≤ e := by
    rw [tailStart, show maxCdBuffer = 65578 from rfl]
    omega
  rw [locatorBefore_drop (by omega), show tailStart bytes + (e - tailStart bytes) = e by omega]

/-- Bytes after the end record do not hide a locator, and do not make one. -/
theorem locatorBefore_append_of_le {bytes : Bytes} {e : Nat} (h : e ≤ bytes.length) (more : Bytes) :
    locatorBefore (bytes ++ more) e = locatorBefore bytes e := by
  have hsplit : bytes = bytes.take e ++ bytes.drop e := (List.take_append_drop e bytes).symm
  have hlen : (bytes.take e).length = e := List.length_take_of_le h
  have htake (rest : Bytes) : locatorBefore (bytes.take e ++ rest) e = locatorBefore (bytes.take e) e := by
    have happ := locatorBefore_append (bytes.take e) rest
    rwa [hlen] at happ
  rw [hsplit, List.append_assoc, htake, htake]

/-! ## Reading -/

theorem readCentralDir_append {kind : SourceKind} {bytes more : Bytes} {e : Nat} {cd : CentralDir}
    (h : ReadThrough ⟨kind, bytes⟩ e cd)
    (hlen : more.length + (bytes.length - (e + size.eocd)) ≤ 65536)
    (hsig : NoSignatureAfter (bytes ++ more) e) (hinside : LocatedInside bytes e) :
    readCentralDir ⟨kind, bytes ++ more⟩ = .ok cd := by
  have he : size.eocd = 22 := rfl
  have hfits : e + size.eocd ≤ bytes.length := h.candidate.fits
  have hlong : (bytes ++ more).length = bytes.length + more.length := List.length_append
  have hdrop : (bytes ++ more).drop e = bytes.drop e ++ more := List.drop_append_of_le_length (by omega)
  have hroom : (bytes.drop e).length = bytes.length - e := List.length_drop
  have hfield (i : Nat) (hi : i + 2 ≤ 22) :
      le16At ((bytes ++ more).drop e) i = le16At (bytes.drop e) i := by
    rw [hdrop, le16At_append_of_le (by omega)]
  have hfield32 (i : Nat) (hi : i + 4 ≤ 22) :
      le32At ((bytes ++ more).drop e) i = le32At (bytes.drop e) i := by
    rw [hdrop, le32At_append_of_le (by omega)]
  have hparse := tryParseAt_eq h.candidate
  rw [h.parses] at hparse
  have hskip : ¬ Skipped bytes e := by
    intro hskip
    rw [if_pos hskip] at hparse
    cases hparse
  rw [if_neg hskip] at hparse
  obtain ⟨cd', hdir, hcd⟩ := map_ok.mp hparse.symm
  obtain rfl := Option.some.inj hcd
  have hcandidate : Candidate ⟨kind, bytes ++ more⟩ e := by
    refine ⟨?_, by show e + size.eocd ≤ (bytes ++ more).length; omega, ?_⟩
    · show tailStart (bytes ++ more) ≤ e
      rw [tailStart, hlong, show maxCdBuffer = 65578 from rfl]
      omega
    · show ((bytes ++ more).drop e).take 4 = magic.eocd
      rw [hdrop, List.take_append_of_le_length (by omega)]
      exact h.candidate.signature
  have hskip' : ¬ Skipped (bytes ++ more) e := by
    rw [Skipped, hfield 20 (by omega), hfield 4 (by omega), hfield 6 (by omega), hlong]
    rintro (hshort | hdisk)
    · exact hskip (.inl (by show bytes.length < _; omega))
    · exact hskip (.inr hdisk)
  have hlast : LastSignature (bytes ++ more) e := fun q hq _ hq4 => absurd hq4 (hsig q hq)
  rw [readCentralDir_of_last hcandidate hskip' hlast]
  -- the comment ends inside the archive
  have hcomment : (((bytes ++ more).drop e).drop size.eocd).take (le16At (bytes.drop e) 20).toNat =
      ((bytes.drop e).drop size.eocd).take (le16At (bytes.drop e) 20).toNat := by
    rw [Skipped] at hskip
    rw [hdrop, List.drop_append_of_le_length (by omega), List.take_append_of_le_length]
    rw [List.length_drop]
    omega
  have hlocator : locatorBefore ((bytes ++ more).drop (tailStart (bytes ++ more)))
      (e - tailStart (bytes ++ more)) = locatorBefore bytes e := by
    rw [locatorBefore_tail (by omega) (by omega), locatorBefore_append_of_le (by omega)]
  have hlocator' := locatorBefore_tail hfits (by omega)
  simp only [directoryAt, hfield 20 (by omega), hfield 10 (by omega), hfield32 12 (by omega),
    hfield32 16 (by omega), hcomment, hlocator]
  simp only [directoryAt, hlocator'] at hdir
  exact cdirOf_append hinside hdir

/-- Three bytes after an archive. -/
theorem readCentralDir_append_sample : ∃ cd,
    readCentralDir ⟨.vec, sampleArchive⟩ = .ok cd ∧
      readCentralDir ⟨.vec, sampleArchive ++ [0x50, 0x4B, 5]⟩ = .ok cd := by
  obtain ⟨cd, hread, hparse⟩ := exists_ok (x := readCentralDir ⟨.vec, sampleArchive⟩)
    (p := fun cd => decide (tryParseAt ⟨.vec, sampleArchive⟩ (sampleArchive.length - size.eocd) =
      .ok (some cd))) (by decide +kernel)
  have hthrough : ReadThrough ⟨.vec, sampleArchive⟩ (sampleArchive.length - size.eocd) cd :=
    ⟨hread, ⟨by decide +kernel, by decide +kernel, by decide +kernel⟩, of_decide_eq_true hparse⟩
  have hlocator : locatorBefore sampleArchive (sampleArchive.length - size.eocd) = none := by
    decide +kernel
  refine ⟨cd, hread, readCentralDir_append hthrough (by decide +kernel) (by decide +kernel) ?_⟩
  intro offset hoffset
  rw [hlocator] at hoffset
  cases hoffset

end Kzip.Impl
