import Kzip.Proof.Copy
import Kzip.Proof.ModifyFile

/-!
# Modifications of a file that fail

Whatever fails, what lies before the directory stays as it was (`Ending.before`), so that a handle that was
opened before reads the same (`salvageable_of_before`). How a modification ends is `ends_modifyArchiveFile`.
-/

namespace Kzip.Impl

open Lib Lib.Utf8 Kzip.Spec

section
variable {X : Extern} {sys : FileSystem} {content file : Vec} {renames : List (UInt64 × Str)} {deletes : List UInt64}
  {faults : List FileCall}

theorem rewritten_before {cd : CentralDir} {out : Vec} (h : Rewritten X content renames deletes cd out) :
    cd.cdirOffset.toNat ≤ content.val.length ∧ ∃ s, out.val = content.val.take cd.cdirOffset.toNat ++ s := by
  obtain ⟨hwithin, s, -, hs⟩ := h
  exact ⟨Nat.le_of_add_right_le hwithin, s, hs⟩

/-- What is to become of the archive starts as it did. -/
theorem intended_before {out : Vec} (h : Intended X sys content renames deletes faults out) :
    ∃ cd, MayFind sys content faults cd ∧ cd.cdirOffset.toNat ≤ content.val.length ∧
      ∃ s, out.val = content.val.take cd.cdirOffset.toNat ++ s := by
  rcases h with hmodified | ⟨hmissed, cd, hnarrow, hout⟩
  · obtain ⟨cd, s, hcd, hwithin, -, hout⟩ := modifyArchive_eq_ok.mp hmodified
    exact ⟨cd, .inl ((directory_within _ hwithin).mpr hcd), Nat.le_of_add_right_le hwithin, s, hout⟩
  · exact ⟨cd, .inr ⟨hmissed, hnarrow⟩, rewritten_before hout⟩

/-- However it ended, what was before the directory that was found is still there. -/
theorem Ending.before (hkeeps : KeepsBefore sys) {result : Result UInt64}
    (h : Ending X sys content renames deletes faults result file) :
    file = content ∨ ∃ cd, MayFind sys content faults cd ∧ cd.cdirOffset.toNat ≤ content.val.length ∧
      file.val.take cd.cdirOffset.toNat = content.val.take cd.cdirOffset.toNat := by
  cases h with
  | untouched e hwhy => exact .inl rfl
  | modified out hout =>
    obtain ⟨cd, hcd, hle, s, hs⟩ := intended_before hout
    exact .inr ⟨cd, hcd, hle, by rw [hs, List.take_left' (List.length_take_of_le hle)]⟩
  | uncut out file e hout hfails hfile =>
    obtain ⟨cd, hcd, hle, s, hs⟩ := intended_before hout
    exact .inr ⟨cd, hcd, hle, by rw [hfile, hs, List.append_assoc, List.take_left' (List.length_take_of_le hle)]⟩
  | torn cd s file e hcd hs hfails hle hfile =>
    refine .inr ⟨cd, hcd, hle, ?_⟩
    rw [hfile]
    exact hkeeps { content, pos := cd.cdirOffset.toNat } hle

/-- Bytes that agree up to a position have the same regions before it. -/
theorem region_eq {bytes bytes' : Bytes} {n : Nat} (h : bytes.take n = bytes'.take n) (pos : Nat) {k : Nat}
    (hle : pos + k ≤ n) : (bytes.drop pos).take k = (bytes'.drop pos).take k := by
  have htake (bs : Bytes) : (bs.drop pos).take k = ((bs.take n).take (pos + k)).drop pos := by
    rw [List.take_take, Nat.min_eq_left hle, List.drop_take, Nat.add_sub_cancel_left]
  rw [htake bytes, htake bytes', h]

theorem keptBefore_of_before (h : file = content ∨ ∃ cd, MayFind sys content faults cd ∧
    cd.cdirOffset.toNat ≤ content.val.length ∧
      file.val.take cd.cdirOffset.toNat = content.val.take cd.cdirOffset.toNat) :
    KeptBefore sys content faults file := by
  intro n hn
  rcases h with rfl | ⟨cd, hcd, -, hfile⟩
  · rfl
  · exact region_eq hfile 0 ((Nat.zero_add n).trans_le (hn cd hcd))

/-- Reading an entry finds the same header and the same stored bytes. -/
theorem salvageable_of_before (h : file = content ∨ ∃ cd, MayFind sys content faults cd ∧
    cd.cdirOffset.toNat ≤ content.val.length ∧
      file.val.take cd.cdirOffset.toNat = content.val.take cd.cdirOffset.toNat) :
    Salvageable X sys content faults file := by
  intro a i d off hopen hd hoff hall sched password v
  have hbytes : a.src.bytes = content.val := (open_parts hopen).1
  rcases h with rfl | ⟨cd, hcd, hle, hfile⟩
  · rw [← hbytes]
  have hbefore := hall cd hcd
  have hlen : a.src.bytes.length < 2 ^ 63 := hbytes ▸ content.property
  have hlen' : ({ a.src with bytes := file.val } : Source).bytes.length < 2 ^ 63 := file.property
  obtain ⟨hheader, hmagic, hstart⟩ := (localHeaderLen_iff hlen).mp hoff
  rw [hbytes] at hheader hmagic hstart
  have hsame {pos k : Nat} (hk : pos + k ≤ cd.cdirOffset.toNat) :
      (file.val.drop pos).take k = (content.val.drop pos).take k := region_eq hfile pos hk
  have hmem : d ∈ a.entries := List.mem_of_getElem? hd
  have hcache : d.findDataOffset a.src = .ok off := by
    rw [findDataOffset_eq (open_cacheOk hopen) hmem, hoff]
  have hcache' : d.findDataOffset { a.src with bytes := file.val } = .ok off := by
    unfold Dirent.findDataOffset at hcache ⊢
    split at hcache
    · exact hcache
    · refine (localHeaderLen_iff hlen').mpr ?_
      have hreaches : d.offset.toNat + size.localHeader ≤ cd.cdirOffset.toNat := by omega
      have hmagics : (file.val.drop d.offset.toNat).take 4 = (content.val.drop d.offset.toNat).take 4 :=
        hsame (by simp only [size.localHeader] at hreaches; omega)
      dsimp only
      rw [hsame hreaches, hmagics]
      exact ⟨hheader, hmagic, hstart⟩
  have hfit : off + d.compSize.toNat < 2 ^ 64 :=
    Nat.lt_of_le_of_lt hbefore cd.cdirOffset.toNat_lt
  have hregion : (file.val.drop off).take d.compSize.toNat = (content.val.drop off).take d.compSize.toNat :=
    hsame hbefore
  have hfull : ((content.val.drop off).take d.compSize.toNat).length = d.compSize.toNat := by
    rw [List.length_take, List.length_drop]
    omega
  rw [readEntry_iff hlen hd hcache hfit, readEntry_iff (a := { a with src.bytes := file.val }) hlen' hd hcache' hfit,
    hbytes]
  -- both hold what their common region holds
  have halike : StoredAlike d d := ⟨rfl, rfl, rfl, rfl, rfl, rfl⟩
  refine exists_congr fun c => and_congr_left fun _ => ?_
  rw [compressed_region halike hregion.symm hfull, ← compressed_region halike rfl hfull]

/-- Whatever operations on the file fail: its modification ends in one of four ways, and what lies before the
directory stays, so that it can be read as before. -/
theorem modifyArchiveFile_ends (X : Extern) (sys : FileSystem) (hkeeps : KeepsBefore sys) (content : Vec)
    (renames : List (UInt64 × Str)) (deletes : List UInt64) :
    let run := exec (modifyArchiveFile sys X renames deletes) (closedFile content)
    Ending X sys content renames deletes run.2.faults run.1 run.2.file.content ∧
      KeptBefore sys content run.2.faults run.2.file.content ∧
      Salvageable X sys content run.2.faults run.2.file.content := by
  intro run
  have hrun : exec (modifyArchiveFile sys X renames deletes) (closedFile content) = run := rfl
  have hends : Ending X sys content renames deletes run.2.faults run.1 run.2.file.content :=
    ends_modifyArchiveFile hrun
  exact ⟨hends, keptBefore_of_before (Ending.before hkeeps hends), salvageable_of_before (Ending.before hkeeps hends)⟩

/-- A system on which a write stops after the first byte. -/
def tornSystem : FileSystem :=
  { workingSystem with
    fails := fun _ call => decide (call = .write)
    torn := fun f => (f.writeAll [0x50]).getD f }

theorem tornSystem_keepsBefore : KeepsBefore tornSystem := by
  intro f hpos
  have htorn : tornSystem.torn f = (f.writeAll [0x50]).getD f := rfl
  rw [htorn]
  cases hwrite : f.writeAll [0x50] with
  | none => rw [Option.getD_none]
  | some g =>
    rw [Option.getD_some, (writeAll_some hpos hwrite).1, splice, padTo_of_le 0 hpos,
      List.append_assoc, List.take_left' (List.length_take_of_le hpos)]

/-- Renaming the entry of the sample archive, whose new directory cannot be written. -/
theorem modifyArchiveFile_ends_sample :
    let run := exec (modifyArchiveFile tornSystem reference [(0, ['b', 'b'])] []) (closedFile sampleFile)
    Ending reference tornSystem sampleFile [(0, ['b', 'b'])] [] run.2.faults run.1 run.2.file.content ∧
      KeptBefore tornSystem sampleFile run.2.faults run.2.file.content ∧
      Salvageable reference tornSystem sampleFile run.2.faults run.2.file.content :=
  modifyArchiveFile_ends reference tornSystem tornSystem_keepsBefore sampleFile [(0, ['b', 'b'])] []

end

end Kzip.Impl
