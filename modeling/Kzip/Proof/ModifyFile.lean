import Kzip.Proof.CdirFile
import Kzip.Proof.Content
import Kzip.Proof.Modify
import Kzip.Spec.ModifyFile

/-!
# Modifying an archive in a file

A file and a vector of the same bytes have the same directory, unless it lies where no file reaches
(`directory_alike`). From there on both modifications do the same: what is written over the tail of the
file and cut off behind it is what is appended in memory, unless an operation fails (`ends_overwriteTail`).
-/

namespace Kzip.Impl

open Lib Lib.Utf8 Kzip.Spec

variable {X : Extern}

/-! ## The directory -/

/-- The directory, if a file can hold it. -/
def reachable (r : Result CentralDir) : Option CentralDir :=
  r.toOption.filter fun cd => cd.cdirOffset.toNat < 2 ^ 63

theorem reachable_eq_some {r : Result CentralDir} {cd : CentralDir} :
    reachable r = some cd ↔ r = .ok cd ∧ cd.cdirOffset.toNat < 2 ^ 63 := by
  cases r with
  | error e => simp [reachable, Except.toOption]
  | ok cd' =>
    simp only [reachable, Except.toOption, Option.filter_eq_some_iff, Option.some.injEq, decide_eq_true_eq,
      Except.ok.injEq]

theorem directory_alike {s s' : Source} (hb : s.bytes = s'.bytes) (hlen : s.bytes.length < 2 ^ 63) :
    reachable (readCentralDir s) = reachable (readCentralDir s') := by
  refine Alike.readCentralDir ⟨hb, hlen, fun _ _ => rfl, fun comment n z cdirSize cdirOffset => ?_⟩
  by_cases hlt : cdirOffset.toNat < 2 ^ 63
  · simp only [cdirAt, readEntries, s.canSeek_of_lt hlt, s'.canSeek_of_lt hlt, readExact_alike hb]
  · have hnone (s : Source) : reachable (cdirAt s comment n z cdirSize cdirOffset) = none := by
      refine Option.eq_none_iff_forall_not_mem.mpr fun cd hcd => ?_
      obtain ⟨hcd, hreach⟩ := reachable_eq_some.mp hcd
      obtain ⟨entries, -, hcd⟩ := bind_ok.mp hcd
      cases hcd
      exact hlt hreach
    rw [hnone s, hnone s']

/-- The directory lies within a file of this length. -/
def CentralDir.Within (cd : CentralDir) (len : Nat) : Prop :=
  cd.cdirOffset.toNat + cd.cdirSize.toNat ≤ len

theorem not_within {cd : CentralDir} {len : Nat} (hlen : len < 2 ^ 63) :
    (cd.cdirOffset.toNat > len ∨ cd.cdirSize.toNat > len ∨
      2 ^ 64 ≤ cd.cdirOffset.toNat + cd.cdirSize.toNat ∨
      cd.cdirOffset.toNat + cd.cdirSize.toNat > len) ↔ ¬ cd.Within len := by
  rw [CentralDir.Within]
  omega

theorem modifyArchive_eq_ok {bytes : Vec} {renames : List (UInt64 × Str)} {deletes : List UInt64}
    {out : Vec} : modifyArchive X bytes.val renames deletes = .ok out ↔
      ∃ cd s, readCentralDir { kind := .vec, bytes := bytes.val } = .ok cd ∧
        cd.Within bytes.val.length ∧ (modified renames deletes cd).serialize X = .ok s ∧
        out.val = bytes.val.take cd.cdirOffset.toNat ++ s := by
  rw [modifyArchive, bind_ok]
  refine exists_congr fun cd => ?_
  rw [guard_ok, not_within bytes.property, not_not, bind_ok, modified_entries]
  constructor
  · rintro ⟨hread, hwithin, s, hs, hout⟩
    exact ⟨s, hread, hwithin, hs, Vec.ofBytes_ok.mp hout⟩
  · rintro ⟨s, hread, hwithin, hs, hout⟩
    exact ⟨hread, hwithin, s, hs, Vec.ofBytes_ok.mpr hout⟩

/-! ## The file -/

section
variable {sys : FileSystem} {disk : Disk}

/-- An operation fails, and leaves what it may leave, or the run goes on. -/
theorem exec_fileCall_cases {call : FileCall} {code : ZipErrorCode} {act : OsFile → Option OsFile}
    {spoil : OsFile → OsFile} {α : Type} {next : Unit → OnDisk α} {run : Result α × Disk}
    (hrun : exec (fileCall sys call code act spoil >>= next) disk = run) :
    run = (.error (.err code), { file := spoil disk.file, calls := disk.calls + 1,
                                 faults := disk.faults ++ [call] }) ∨
      ∃ file, act disk.file = some file ∧ exec (next ()) { disk with file, calls := disk.calls + 1 } = run := by
  cases hact : if sys.fails disk.calls call then none else act disk.file with
  | none =>
    have hcall : exec (fileCall sys call code act spoil) disk =
        (.error (.err code), { file := spoil disk.file, calls := disk.calls + 1,
                               faults := disk.faults ++ [call] }) := by
      simp only [exec, ExceptT.run, StateT.run, fileCall, hact]
    rw [exec_bind_error hcall] at hrun
    exact .inl hrun.symm
  | some file =>
    have hcall : exec (fileCall sys call code act spoil) disk =
        (.ok (), { disk with file, calls := disk.calls + 1 }) := by
      simp only [exec, ExceptT.run, StateT.run, fileCall, hact]
    rw [exec_bind_ok hcall] at hrun
    refine .inr ⟨file, ?_, hrun⟩
    by_cases hfails : sys.fails disk.calls call
    · rw [if_pos hfails] at hact
      cases hact
    · rwa [if_neg hfails] at hact

theorem seek_some {f g : OsFile} {pos : UInt64} (h : f.seek pos = some g) :
    g = { f with pos := pos.toNat } := by
  unfold OsFile.seek at h
  split at h <;> cases h
  rfl

/-- A write that starts within the file. -/
theorem writeAll_some {f g : OsFile} {bs : Bytes} (hpos : f.pos ≤ f.content.val.length)
    (h : f.writeAll bs = some g) :
    g.content.val = splice 0 f.content.val f.pos bs ∧ f.pos + bs.length < 2 ^ 63 := by
  unfold OsFile.writeAll at h
  split at h
  · rename_i hnil
    cases h
    have := f.content.property
    rw [hnil, splice_nil 0 hpos]
    exact ⟨rfl, Nat.lt_of_le_of_lt hpos this⟩
  · split at h
    · rename_i hlen
      cases h
      rw [length_splice] at hlen
      exact ⟨rfl, Nat.lt_of_le_of_lt (Nat.le_max_right _ _) hlen⟩
    · cases h

theorem setLen_some {f g : OsFile} {len : UInt64} (h : f.setLen len = some g) :
    g.content.val = (padTo 0 len.toNat f.content.val).take len.toNat := by
  unfold OsFile.setLen at h
  split at h <;> cases h
  rfl

end

/-! ## How it ends -/

section
variable {sys : FileSystem} {disk : Disk} {content : Vec} {renames : List (UInt64 × Str)} {deletes : List UInt64}

/-- A directory within a file is the one that is found in memory. -/
theorem directory_within (maps : Bool) {cd : CentralDir} (hwithin : cd.Within content.val.length) :
    readCentralDir { kind := .file maps, bytes := content.val } = .ok cd ↔
      readCentralDir { kind := .vec, bytes := content.val } = .ok cd := by
  have hreach : cd.cdirOffset.toNat < 2 ^ 63 :=
    Nat.lt_of_le_of_lt (Nat.le_of_add_right_le hwithin) content.property
  have halike := @directory_alike ⟨.vec, content.val⟩ ⟨.file maps, content.val⟩ rfl content.property
  have hfile := @reachable_eq_some (readCentralDir ⟨.file maps, content.val⟩) cd
  have hvec := @reachable_eq_some (readCentralDir ⟨.vec, content.val⟩) cd
  rw [halike] at hvec
  exact ⟨fun h => (hvec.mp (hfile.mpr ⟨h, hreach⟩)).1, fun h => (hfile.mp (hvec.mpr ⟨h, hreach⟩)).1⟩

theorem mayFind_append {faults : List FileCall} {cd : CentralDir} (h : MayFind sys content faults cd)
    (more : List FileCall) : MayFind sys content (faults ++ more) cd :=
  h.imp_right (.imp_left fun hmissed => missed_append hmissed more)

theorem intended_of_rewritten {faults : List FileCall} {cd : CentralDir} {out : Vec}
    (hcd : MayFind sys content faults cd) (hout : Rewritten X content renames deletes cd out) :
    Intended X sys content renames deletes faults out := by
  obtain ⟨hwithin, s, hs, hbytes⟩ := hout
  rcases hcd with hcd | ⟨hmissed, hnarrow⟩
  · exact .inl (modifyArchive_eq_ok.mpr ⟨cd, s, (directory_within _ hwithin).mp hcd, hwithin, hs, hbytes⟩)
  · exact .inr ⟨hmissed, cd, hnarrow, hwithin, s, hs, hbytes⟩

/-- Where the directory cannot be replaced, an operation failed, or it cannot be replaced in memory either. -/
theorem refused_of_not_rewritten {faults : List FileCall} {cd : CentralDir} (hcd : MayFind sys content faults cd)
    (hno : cd.Within content.val.length → ∀ s, (modified renames deletes cd).serialize X ≠ .ok s) :
    faults ≠ [] ∨ ∀ out, modifyArchive X content.val renames deletes ≠ .ok out := by
  rcases hcd with hcd | ⟨hmissed, -⟩
  · refine .inr fun out hout => ?_
    obtain ⟨cd', s, hcd', hwithin, hs, -⟩ := modifyArchive_eq_ok.mp hout
    obtain rfl := Except.ok.inj (hcd.symm.trans ((directory_within _ hwithin).mpr hcd'))
    exact hno hwithin s hs
  · exact .inl (missed_ne_nil hmissed)

/-- The write and the cut, from a file that is as it was. -/
theorem ends_overwriteTail (hdisk : Holding content disk) {cd : CentralDir} {s : Bytes}
    (hcd : MayFind sys content disk.faults cd) (hwithin : cd.Within content.val.length)
    (hs : (modified renames deletes cd).serialize X = .ok s) {run : Result UInt64 × Disk}
    (hrun : exec (overwriteTail sys X cd.cdirOffset s) disk = run) :
    Ending X sys content renames deletes run.2.faults run.1 run.2.file.content := by
  have hcontent : disk.file.content = content := hdisk
  have hle : cd.cdirOffset.toNat ≤ content.val.length := Nat.le_of_add_right_le hwithin
  rw [overwriteTail] at hrun
  rcases exec_fileCall_cases hrun with rfl | ⟨sought, hseek, hrun⟩
  · dsimp only
    rw [id, hcontent]
    exact .untouched _ (.inl (List.concat_ne_nil _ _))
  obtain rfl := seek_some hseek
  rcases exec_fileCall_cases hrun with rfl | ⟨written, hwrite, hrun⟩
  · refine .torn cd s _ _ (mayFind_append hcd _) hs List.mem_concat_self hle ?_
    dsimp only
    rw [hcontent]
  have hpos : cd.cdirOffset.toNat ≤ disk.file.content.val.length := hcontent ▸ hle
  obtain ⟨hspliced, hfits⟩ := writeAll_some hpos hwrite
  dsimp only at hspliced hfits
  have hlen : (UInt64.ofNat s.length).toNat = s.length :=
    UInt64.toNat_ofNat_of_lt' (show _ < 2 ^ 64 by omega)
  have hnew : (cd.cdirOffset + UInt64.ofNat s.length).toNat = cd.cdirOffset.toNat + s.length := by
    rw [UInt64.toNat_add, hlen, Nat.mod_eq_of_lt (by omega)]
  have hbytes : (content.val.take cd.cdirOffset.toNat ++ s).length = cd.cdirOffset.toNat + s.length := by
    rw [List.length_append, List.length_take_of_le hle]
  let out : Vec := ⟨content.val.take cd.cdirOffset.toNat ++ s, hbytes ▸ hfits⟩
  have hout : Rewritten X content renames deletes cd out := ⟨hwithin, s, hs, rfl⟩
  rw [addU64, if_pos (by rw [hlen]; omega), plainly_ok, pure_bind] at hrun
  rcases exec_fileCall_cases hrun with rfl | ⟨cut, hcut, hrun⟩
  · refine .uncut out _ _ (intended_of_rewritten (mayFind_append hcd _) hout) List.mem_concat_self ?_
    dsimp only
    rw [id, hspliced, splice, padTo_of_le 0 hpos, hcontent, hbytes]
  · rw [exec_pure] at hrun
    subst hrun
    have hcontent' : cut.content = out := by
      refine Subtype.ext ?_
      rw [setLen_some hcut, hnew,
        padTo_of_le _ (by rw [hspliced, length_splice]; exact Nat.le_max_right _ _), hspliced,
        take_splice 0 hpos s, hcontent]
    have hresult : cd.cdirOffset + UInt64.ofNat s.length = UInt64.ofNat out.val.length := by
      refine UInt64.toNat_inj.mp ?_
      rw [hnew, hbytes, UInt64.toNat_ofNat_of_lt' (show _ < 2 ^ 64 by omega)]
    dsimp only
    rw [hresult, hcontent']
    exact .modified out (intended_of_rewritten hcd hout)

theorem ends_replaceDirectory (hdisk : Holding content disk) {cd : CentralDir}
    (hcd : MayFind sys content disk.faults cd) {run : Result UInt64 × Disk}
    (hrun : exec (replaceDirectory sys X renames deletes cd) disk = run) :
    Ending X sys content renames deletes run.2.faults run.1 run.2.file.content := by
  have hcontent : disk.file.content = content := hdisk
  rw [replaceDirectory] at hrun
  rcases exec_fileCall_cases hrun with rfl | ⟨file, hfile, hrun⟩
  · dsimp only
    rw [id, hcontent]
    exact .untouched _ (.inl (List.concat_ne_nil _ _))
  obtain rfl := Option.some.inj hfile
  rw [exec_get_bind] at hrun
  dsimp only at hrun
  rw [hcontent] at hrun
  have hguard := @not_within cd _ content.property
  by_cases hwithin : cd.Within content.val.length
  · rw [if_neg fun hout => hguard.mp hout hwithin, modified_entries] at hrun
    have hrun : exec (plainly ((modified renames deletes cd).serialize X) >>=
        overwriteTail sys X cd.cdirOffset) { disk with calls := disk.calls + 1 } = run := hrun
    cases hs : (modified renames deletes cd).serialize X with
    | error e =>
      rw [hs, plainly_error_bind, exec_plainly] at hrun
      subst hrun
      dsimp only
      rw [hcontent]
      refine .untouched e (refused_of_not_rewritten hcd fun _ s hs' => ?_)
      cases hs.symm.trans hs'
    | ok s =>
      rw [hs, plainly_ok, pure_bind] at hrun
      have hcalled : Holding content { disk with calls := disk.calls + 1 } := hdisk
      exact ends_overwriteTail hcalled hcd hwithin hs hrun
  · rw [if_pos (hguard.mpr hwithin), exec_plainly] at hrun
    subst hrun
    dsimp only
    rw [hcontent]
    exact .untouched _ (refused_of_not_rewritten hcd fun hin => absurd hin hwithin)

theorem ends_modifyArchiveFile {run : Result UInt64 × Disk}
    (hrun : exec (modifyArchiveFile sys X renames deletes) disk = run) :
    Ending X sys disk.file.content renames deletes run.2.faults run.1 run.2.file.content := by
  rw [modifyArchiveFile] at hrun
  rcases exec_fileCall_cases hrun with rfl | ⟨opened, hopened, hrun⟩
  · exact .untouched _ (.inl (List.concat_ne_nil _ _))
  obtain rfl := Option.some.inj hopened
  rcases exec_fileCall_cases hrun with rfl | ⟨cloned, hcloned, hrun⟩
  · exact .untouched _ (.inl (List.concat_ne_nil _ _))
  obtain rfl := Option.some.inj hcloned
  have hopened : Holding disk.file.content { disk with calls := disk.calls + 2 } := rfl
  obtain ⟨read, hread, ⟨e, rfl, hwhy⟩ | ⟨cd, hrun, hcd⟩⟩ := exec_readCentralDirFile_cases hopened hrun
  · have hcontent : read.file.content = disk.file.content := hread
    dsimp only
    rw [hcontent]
    refine .untouched e ?_
    rcases hwhy with herror | hunread
    · refine .inr fun out hout => ?_
      obtain ⟨cd, s, hcd, hwithin, -, -⟩ := modifyArchive_eq_ok.mp hout
      cases herror.symm.trans ((directory_within sys.maps hwithin).mpr hcd)
    · exact .inl (missed_ne_nil hunread)
  · exact ends_replaceDirectory hread hcd hrun

end

/-! ## The two modifications -/

theorem faults_eq_nil {disk : Disk} (h : disk.failed = false) : disk.faults = [] := by
  rw [Disk.failed, Bool.not_eq_false'] at h
  exact List.isEmpty_iff.mp h

/-- Where no operation on the file fails, the modification of a file does what the modification in
memory does. -/
theorem modifyArchiveFile_followsMemory {sys : FileSystem} {content : Vec}
    {renames : List (UInt64 × Str)} {deletes : List UInt64} {run : Result UInt64 × Disk}
    (hrun : exec (modifyArchiveFile sys X renames deletes) (closedFile content) = run)
    (h : run.2.failed = false) :
    FollowsMemory content (modifyArchive X content.val renames deletes) run.1 run.2.file.content := by
  have hends := ends_modifyArchiveFile hrun
  rw [faults_eq_nil h] at hends
  have hcontent : (closedFile content).file.content = content := rfl
  rw [hcontent] at hends
  generalize run.1 = result at hends
  generalize run.2.file.content = file at hends
  cases hends with
  | untouched e hwhy =>
    have hno := hwhy.resolve_left fun hne => hne rfl
    refine ⟨⟨?_, ?_⟩, fun out hout => absurd hout (hno out), fun _ => rfl⟩
    · rintro ⟨len, hlen⟩
      cases hlen
    · rintro ⟨out, hout⟩
      exact absurd hout (hno out)
  | modified out hout =>
    have hmemory := hout.resolve_right fun hmissed => missed_ne_nil hmissed.1 rfl
    refine ⟨⟨fun _ => ⟨_, hmemory⟩, fun _ => ⟨_, rfl⟩⟩, fun out' hout' => ?_, fun hno => ?_⟩
    · cases hmemory.symm.trans hout'
      exact ⟨rfl, rfl⟩
    · exact absurd hmemory (hno _)
  | uncut _ _ _ _ hfails _ => cases hfails
  | torn _ _ _ _ _ _ hfails _ _ => cases hfails

/-- A system on which nothing fails that can be done. -/
def workingSystem : FileSystem := { fails := fun _ _ => false, maps := true, torn := id, readTo := 22 }

def sampleFile : Vec := ⟨sampleArchive, by decide +kernel⟩

/-- Renaming the entry of the sample archive in a file. -/
theorem modifyArchiveFile_sample : ∃ run : Result UInt64 × Disk,
    exec (modifyArchiveFile workingSystem reference [(0, ['b', 'b'])] []) (closedFile sampleFile) = run ∧
    run.2.failed = false ∧
    FollowsMemory sampleFile (modifyArchive reference sampleFile.val [(0, ['b', 'b'])] []) run.1
      run.2.file.content := by
  have hok : (exec (modifyArchiveFile workingSystem reference [(0, ['b', 'b'])] [])
      (closedFile sampleFile)).2.failed = false := by decide +kernel
  generalize hrun : exec (modifyArchiveFile workingSystem reference [(0, ['b', 'b'])] [])
    (closedFile sampleFile) = run at hok
  exact ⟨run, rfl, hok, modifyArchiveFile_followsMemory hrun hok⟩

end Kzip.Impl
