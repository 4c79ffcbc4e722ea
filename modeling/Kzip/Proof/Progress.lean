import Kzip.Proof.Comment
import Kzip.Spec.Progress

/-!
# The checkpoints of a write

A write with a callback passes its checkpoints in order and then gives what the write without one gives
(`writeArchiveHooked_eq`). So all that a callback sees, and does to the write, is said by the calls at a
list of checkpoints (`play`).
-/

namespace Kzip.Impl

open Lib Kzip.Spec

variable {X : Extern} {σ : Type}

/-! ## The checkpoints -/

/-- The bytes completed after `n` more. -/
abbrev clampedAdd (completed n total : UInt64) : UInt64 := min (saturatingAddU64 completed n) total

theorem toNat_clampedAdd (a n b : UInt64) :
    (clampedAdd a n b).toNat = min (a.toNat + n.toNat) b.toNat := by
  have hsat : (saturatingAddU64 a n).toNat = min (a.toNat + n.toNat) (2 ^ 64 - 1) :=
    UInt64.toNat_ofNat_of_lt' (show _ < 2 ^ 64 by omega)
  have hb := b.toNat_lt
  rw [toNat_min, hsat]
  omega

/-- A report is a checkpoint that nothing was completed before. -/
theorem report_eq : (WriteProgress.report : Hooked σ Unit) = WriteProgress.advance 0 := by
  funext p
  have hnext : clampedAdd p.completed 0 p.total = p.completed := by
    have := UInt64.le_iff_toNat_le.mp p.completed_le
    refine UInt64.toNat_inj.mp ?_
    rw [toNat_clampedAdd, UInt64.toNat_zero]
    omega
  simp only [WriteProgress.advance, hnext]
  rfl

section
variable (X)

def compressCheckpoints (files : List ArchiveFile) (opts : CompressOptions) : List UInt64 :=
  mapCheckpoints (fun f => [UInt64.ofNat f.data.val.length]) (compressFile X opts) files

def entryCheckpoints (compressed : List CompressedFile) : List UInt64 :=
  foldCheckpoints (fun _ _ => [0]) writeEntry { out := [], cdir := [], localOffsets := [] } compressed

/-- The bytes completed at each checkpoint of a write. -/
def writeCheckpoints (files : List ArchiveFile) (opts : CompressOptions) (password : Bytes)
    (methods : List UInt16) (archiveComment : Bytes) : List UInt64 :=
  0 :: checkpointsThen (compressCheckpoints X files opts) (compressFiles X files opts) fun compressed =>
    checkpointsThen [] (encryptFiles X password methods compressed) fun compressed =>
      checkpointsThen (entryCheckpoints compressed) (writeCompressed X compressed archiveComment)
        fun _ => [0]

end

theorem compressFilesHooked_eq (files : List ArchiveFile) (opts : CompressOptions) :
    (compressFilesHooked X files opts : Hooked σ _) =
      after WriteProgress.advance (compressCheckpoints X files opts) (compressFiles X files opts) := by
  refine mapM_after (fun f => ?_) files
  rw [after_cons, after_nil]

theorem writeCompressedHooked_eq (compressed : List CompressedFile) (archiveComment : Bytes) :
    (writeCompressedHooked X compressed archiveComment : Hooked σ _) =
      after WriteProgress.advance (entryCheckpoints compressed)
        (writeCompressed X compressed archiveComment) := by
  have hentry (s : WriteState) (cf : CompressedFile) :
      (WriteProgress.report >>= fun _ => plainly (writeEntry s cf) : Hooked σ _) =
        after WriteProgress.advance [0] (writeEntry s cf) := by
    rw [after_cons, after_nil, report_eq]
  rw [writeCompressedHooked, foldlM_after hentry, after_bind fun s => (after_nil _).symm,
    checkpointsThen_nil]
  rfl

/-- A write with a callback: its checkpoints, and then the result of the write without one. -/
theorem writeArchiveHooked_eq (files : List ArchiveFile) (opts : CompressOptions) (password : Bytes)
    (methods : List UInt16) (archiveComment : Bytes) :
    (writeArchiveHooked X files opts password methods archiveComment : Hooked σ _) =
      after WriteProgress.advance (writeCheckpoints X files opts password methods archiveComment)
        (writeArchiveFull X files opts password methods archiveComment) := by
  have hreport (out : Vec) : (WriteProgress.report >>= fun _ => pure out : Hooked σ Vec) =
      after WriteProgress.advance [0] (.ok out) := by
    rw [after_cons, after_nil, report_eq, plainly_ok]
  have hwrite (cfs : List CompressedFile) :
      (writeCompressedHooked X cfs archiveComment >>= fun out => WriteProgress.report >>= fun _ =>
        pure out : Hooked σ Vec) = after WriteProgress.advance
          (checkpointsThen (entryCheckpoints cfs) (writeCompressed X cfs archiveComment) fun _ => [0])
          (writeCompressed X cfs archiveComment) := by
    rw [writeCompressedHooked_eq, after_bind hreport]
    exact congrArg _ (bind_pure _)
  have hencrypt (cfs : List CompressedFile) :
      (plainly (encryptFiles X password methods cfs) >>= fun cfs =>
        writeCompressedHooked X cfs archiveComment >>= fun out => WriteProgress.report >>= fun _ =>
          pure out : Hooked σ Vec) = after WriteProgress.advance
          (checkpointsThen [] (encryptFiles X password methods cfs) fun cfs =>
            checkpointsThen (entryCheckpoints cfs) (writeCompressed X cfs archiveComment) fun _ => [0])
          (encryptFiles X password methods cfs >>= fun cfs => writeCompressed X cfs archiveComment) := by
    rw [← after_nil, after_bind hwrite]
  rw [writeArchiveHooked, compressFilesHooked_eq, after_bind hencrypt, report_eq, writeCheckpoints,
    after_cons]
  rfl

/-! ## The calls at the checkpoints -/

/-- The calls of a callback at checkpoints, up to the first that asks to cancel, and its state after
them. -/
def play (poll : WriteProgressPoll σ) (total : UInt64) : UInt64 → σ → List UInt64 → List Report × σ
  | _, captured, [] => ([], captured)
  | completed, captured, n :: ns =>
    let completed := clampedAdd completed n total
    let (cancel, captured) := poll completed total captured
    let (log, captured) := if cancel then ([], captured) else play poll total completed captured ns
    ({ completed, total, cancel } :: log, captured)

section
variable {poll : WriteProgressPoll σ} {total completed n : UInt64} {captured captured' : σ}

theorem play_cancel (h : poll (clampedAdd completed n total) total captured = (true, captured'))
    (ns : List UInt64) : play poll total completed captured (n :: ns) =
      ([{ completed := clampedAdd completed n total, total, cancel := true }], captured') := by
  simp only [play, h, ↓reduceIte]

theorem play_continue (h : poll (clampedAdd completed n total) total captured = (false, captured'))
    (ns : List UInt64) : play poll total completed captured (n :: ns) =
      ({ completed := clampedAdd completed n total, total, cancel := false } ::
          (play poll total (clampedAdd completed n total) captured' ns).1,
        (play poll total (clampedAdd completed n total) captured' ns).2) := by
  simp only [play, h, Bool.false_eq_true, ↓reduceIte]

end

/-- What passing the checkpoints gives. -/
def verdict (log : List Report) : Result Unit :=
  if log.any (·.cancel) then .error (.err .cancelled) else .ok ()

/-- The progress after `n` more bytes, when the callback has come to a state. -/
def WriteProgress.moved (p : WriteProgress σ) (n : UInt64) (captured : σ) : WriteProgress σ :=
  { p with completed := clampedAdd p.completed n p.total, completed_le := Std.min_le_right, captured }

theorem exec_advance_none {p : WriteProgress σ} (h : p.poll = none) (n : UInt64) :
    exec (WriteProgress.advance n) p = (.ok (), p.moved n p.captured) := by
  obtain ⟨total, completed, poll, captured, hle⟩ := p
  cases h
  rfl

theorem exec_advance_some {p : WriteProgress σ} {poll : WriteProgressPoll σ} (h : p.poll = some poll)
    {n : UInt64} {cancel : Bool} {captured : σ}
    (hcall : poll (clampedAdd p.completed n p.total) p.total p.captured = (cancel, captured)) :
    exec (WriteProgress.advance n) p =
      (if cancel then .error (.err .cancelled) else .ok (), p.moved n captured) := by
  have hstep : exec (WriteProgress.advance n) p =
      (if (poll (clampedAdd p.completed n p.total) p.total p.captured).1 then
          .error (.err .cancelled) else .ok (),
        p.moved n (poll (clampedAdd p.completed n p.total) p.total p.captured).2) := by
    obtain ⟨total, completed, poll', captured', hle⟩ := p
    cases h
    rfl
  rw [hstep, hcall]

theorem exec_after_none {α : Type} {p : WriteProgress σ} (h : p.poll = none) (cs : List UInt64)
    (y : Result α) : (exec (after WriteProgress.advance cs y) p).1 = y := by
  induction cs generalizing p with
  | nil => rfl
  | cons n cs ih =>
    rw [after_cons, exec_bind_ok (exec_advance_none h n)]
    exact ih h

/-- With a callback the result is that of the calls, or if none cancels `y`. -/
theorem exec_after_some {α : Type} {poll : WriteProgressPoll σ} {p : WriteProgress σ}
    (h : p.poll = some poll) (cs : List UInt64) (y : Result α) :
    let calls := play poll p.total p.completed p.captured cs
    (exec (after WriteProgress.advance cs y) p).1 = (verdict calls.1 >>= fun _ => y) ∧
      (exec (after WriteProgress.advance cs y) p).2.captured = calls.2 := by
  induction cs generalizing p with
  | nil => exact ⟨rfl, rfl⟩
  | cons n cs ih =>
    rw [after_cons]
    rcases hcall : poll (clampedAdd p.completed n p.total) p.total p.captured with ⟨_ | _, captured⟩
    · rw [exec_bind_ok (exec_advance_some h hcall), play_continue hcall]
      exact ih (p := p.moved n captured) h
    · rw [exec_bind_error (exec_advance_some h hcall), play_cancel hcall]
      exact ⟨rfl, rfl⟩

/-- The log that a callback keeps is the list of its calls. -/
theorem play_recorded (poll : WriteProgressPoll σ) (total completed : UInt64) (captured : σ)
    (log : List Report) (cs : List UInt64) :
    let calls := play poll total completed captured cs
    play poll.recorded total completed (captured, log) cs =
      (calls.1, calls.2, log ++ calls.1) := by
  induction cs generalizing completed captured log with
  | nil => simp only [play, List.append_nil]
  | cons n cs ih =>
    rcases hcall : poll (clampedAdd completed n total) total captured with ⟨_ | _, captured'⟩
    · have hcall' : poll.recorded (clampedAdd completed n total) total (captured, log) = (false, captured',
          log ++ [{ completed := clampedAdd completed n total, total, cancel := false }]) := by
        simp only [WriteProgressPoll.recorded, hcall]
      rw [play_continue hcall', play_continue hcall, ih]
      simp only [List.append_assoc, List.singleton_append]
    · have hcall' : poll.recorded (clampedAdd completed n total) total (captured, log) = (true, captured',
          log ++ [{ completed := clampedAdd completed n total, total, cancel := true }]) := by
        simp only [WriteProgressPoll.recorded, hcall]
      rw [play_cancel hcall', play_cancel hcall]

/-! ## What the calls tell -/

section
variable {poll : WriteProgressPoll σ} {total : UInt64}

theorem play_bounds {completed : UInt64} (h : completed ≤ total) (captured : σ) (cs : List UInt64) :
    ∀ r ∈ (play poll total completed captured cs).1,
      r.total = total ∧ completed ≤ r.completed ∧ r.completed ≤ total := by
  induction cs generalizing completed captured with
  | nil => simp [play]
  | cons n cs ih =>
    have hge : completed ≤ clampedAdd completed n total := by
      rw [UInt64.le_iff_toNat_le] at h ⊢
      rw [toNat_clampedAdd]
      omega
    have hle : clampedAdd completed n total ≤ total := Std.min_le_right
    rcases hcall : poll (clampedAdd completed n total) total captured with ⟨_ | _, captured'⟩
    · rw [play_continue hcall]
      refine List.forall_mem_cons.mpr ⟨⟨rfl, hge, hle⟩, fun r hr => ?_⟩
      obtain ⟨htotal, hge', hle'⟩ := ih hle captured' r hr
      exact ⟨htotal, UInt64.le_trans hge hge', hle'⟩
    · rw [play_cancel hcall]
      exact List.forall_mem_singleton.mpr ⟨rfl, hge, hle⟩

theorem play_nondecreasing (completed : UInt64) (captured : σ) (cs : List UInt64) :
    (play poll total completed captured cs).1.Pairwise fun r r' => r.completed ≤ r'.completed := by
  induction cs generalizing completed captured with
  | nil => exact .nil
  | cons n cs ih =>
    rcases hcall : poll (clampedAdd completed n total) total captured with ⟨_ | _, captured'⟩
    · rw [play_continue hcall]
      exact .cons (fun r hr => (play_bounds Std.min_le_right captured' cs r hr).2.1) (ih _ _)
    · rw [play_cancel hcall]
      exact List.pairwise_singleton ..

/-- Nothing is called after a call that asked to cancel. -/
theorem play_cancelled {completed : UInt64} {captured : σ} {cs : List UInt64} {pre post : List Report}
    {r : Report} (h : (play poll total completed captured cs).1 = pre ++ r :: post)
    (hr : r.cancel = true) : post = [] := by
  induction cs generalizing completed captured pre with
  | nil => simp [play] at h
  | cons n cs ih =>
    rcases hcall : poll (clampedAdd completed n total) total captured with ⟨_ | _, captured'⟩
    · rw [play_continue hcall] at h
      rcases List.cons_eq_append_iff.mp h with ⟨-, hcons⟩ | ⟨pre, -, htail⟩
      · cases hcons
        cases hr
      · exact ih htail
    · rw [play_cancel hcall] at h
      rcases List.cons_eq_append_iff.mp h with ⟨-, hcons⟩ | ⟨pre, -, htail⟩
      · exact (List.cons.inj hcons).2
      · simp at htail

/-- When no call cancels, the last one tells of the sum of what was completed. -/
theorem play_last {completed : UInt64} {captured : σ} {n : UInt64} {cs : List UInt64}
    (h : Uncancelled (play poll total completed captured (n :: cs)).1) :
    ∃ r, (play poll total completed captured (n :: cs)).1.getLast? = some r ∧
      r.completed.toNat =
        min (completed.toNat + ((n :: cs).map UInt64.toNat).sum) total.toNat := by
  induction cs generalizing completed captured n with
  | nil =>
    rcases hcall : poll (clampedAdd completed n total) total captured with ⟨_ | _, captured'⟩
    · rw [play_continue hcall]
      refine ⟨{ completed := clampedAdd completed n total, total, cancel := false }, rfl, ?_⟩
      rw [toNat_clampedAdd, List.map_singleton, List.sum_singleton]
    · rw [play_cancel hcall] at h
      cases h _ List.mem_cons_self
  | cons m cs ih =>
    rcases hcall : poll (clampedAdd completed n total) total captured with ⟨_ | _, captured'⟩
    · rw [play_continue hcall] at h ⊢
      obtain ⟨r, hr, hsum⟩ := ih (List.forall_mem_cons.mp h).2
      refine ⟨r, ?_, ?_⟩
      · rw [List.getLast?_cons, hr]
        rfl
      · rw [hsum, toNat_clampedAdd, List.map_cons, List.map_cons, List.map_cons, List.sum_cons,
          List.sum_cons, List.sum_cons]
        omega
    · rw [play_cancel hcall] at h
      cases h _ List.mem_cons_self

end

theorem verdict_cancelled {log : List Report} {r : Report} (hr : r ∈ log) (hc : r.cancel = true) :
    verdict log = .error (.err .cancelled) :=
  if_pos (List.any_eq_true.mpr ⟨r, hr, hc⟩)

theorem verdict_ok {log : List Report} : verdict log = .ok () ↔ Uncancelled log := by
  simp [verdict, Uncancelled]

/-! ## The bytes completed -/

theorem toNat_sum_le (ns : List UInt64) : ns.sum.toNat ≤ (ns.map UInt64.toNat).sum := by
  induction ns with
  | nil => exact Nat.le_refl 0
  | cons n ns ih =>
    rw [List.sum_cons, List.map_cons, List.sum_cons, UInt64.toNat_add]
    exact (Nat.mod_le _ _).trans (Nat.add_le_add_left ih _)

/-- A write that succeeds has completed all its bytes. -/
theorem totalLength_le {files : List ArchiveFile} {opts : CompressOptions} {password : Bytes}
    {methods : List UInt16} {archiveComment : Bytes} {out : Vec}
    (h : writeArchiveFull X files opts password methods archiveComment = .ok out) :
    (totalLength files).toNat ≤
      ((writeCheckpoints X files opts password methods archiveComment).map UInt64.toNat).sum := by
  obtain ⟨cfs, hcfs, -⟩ := bind_ok.mp h
  have hlengths : compressCheckpoints X files opts =
      files.map fun f => UInt64.ofNat f.data.val.length := by
    rw [compressCheckpoints, mapCheckpoints_ok hcfs]
    exact (List.map_eq_flatMap ..).symm
  rw [writeCheckpoints, hcfs, List.map_cons, List.sum_cons, checkpointsThen, List.map_append,
    List.sum_append, hlengths]
  exact (toNat_sum_le _).trans ((Nat.le_add_right _ _).trans (Nat.le_add_left _ _))

/-! ## The other writers -/

theorem encryptFile_withSalt {em : UInt16} (h : isAesMethod em = false)
    (salt : Nat → (n : Nat) → Vector UInt8 n) (password : Bytes) (index : Nat) (cf : CompressedFile) :
    encryptFile (withSalt X salt) password index cf em = encryptFile X password index cf em := by
  simp only [encryptFile, h, Bool.false_eq_true, ↓reduceIte]

/-- Without AES no salt is drawn. -/
theorem encryptFiles_withSalt {password : Bytes} {methods : List UInt16} {cfs : List CompressedFile}
    (h : methods.length = cfs.length → ∀ em ∈ methods, isAesMethod em = false)
    (salt : Nat → (n : Nat) → Vector UInt8 n) :
    encryptFiles (withSalt X salt) password methods cfs = encryptFiles X password methods cfs := by
  rw [encryptFiles, encryptFiles]
  by_cases hlen : methods.length = cfs.length
  · have hsame : ∀ c ∈ (cfs.zip methods).zipIdx,
        encryptFile (withSalt X salt) password c.2 c.1.1 c.1.2 =
          encryptFile X password c.2 c.1.1 c.1.2 := by
      intro c hc
      have hm := (List.of_mem_zip (List.fst_mem_of_mem_zipIdx hc)).2
      exact encryptFile_withSalt (h hlen _ hm) salt password c.2 c.1.1
    rw [mapM_congr_mem hsame]
  · rw [if_pos hlen, if_pos hlen]

/-- `encryptFiles` asks for a method for each file, unless there are no methods. -/
theorem encryptedFiles_eq {files : List ArchiveFile} {opts : CompressOptions} {password : Bytes}
    {methods : List UInt16} (hnil : methods = [] → files = []) :
    encryptedFiles X files opts password methods =
      (compressFiles X files opts >>= encryptFiles X password methods) := by
  rw [encryptedFiles]
  cases hcfs : compressFiles X files opts with
  | error e => rfl
  | ok cfs =>
    rw [ok_bind, ok_bind, encryptFiles]
    by_cases hmethods : methods = []
    · have hfiles : cfs.length = files.length := (mapM_ok.mp hcfs).length_eq.symm
      rw [hnil hmethods, List.length_nil, List.length_eq_zero_iff] at hfiles
      rw [hmethods, hfiles]
      rfl
    · rw [if_neg hmethods]

/-- With a method for each file, none of them AES, it makes no difference which writer is called, and
which salts it would draw. -/
theorem writeArchiveFull_encrypted {files : List ArchiveFile} {opts : CompressOptions} {password : Bytes}
    {methods : List UInt16} (hnil : methods = [] → files = [])
    (haes : ∀ c ∈ files.zip methods, isAesMethod c.2 = false) (salt : Nat → (n : Nat) → Vector UInt8 n) :
    writeArchiveFull X files opts password methods [] =
      writeArchiveEncryptedMethods (withSalt X salt) files opts password methods := by
  have hcompress : compressFiles (withSalt X salt) files opts = compressFiles X files opts := rfl
  rw [writeArchiveFull, writeArchiveEncryptedMethods, encryptedFiles_eq hnil, hcompress]
  cases hcfs : compressFiles X files opts with
  | error e => rfl
  | ok cfs =>
    have hfiles : cfs.length = files.length := (mapM_ok.mp hcfs).length_eq.symm
    rw [ok_bind, ok_bind, encryptFiles_withSalt (fun hlen em hem => ?_) salt]
    · rfl
    · rw [← @List.map_snd_zip _ _ files methods (Nat.le_of_eq (hlen.trans hfiles))] at hem
      obtain ⟨c, hc, rfl⟩ := List.mem_map.mp hem
      exact haes c hc

theorem writeArchiveFull_plain {files : List ArchiveFile} {opts : CompressOptions} {password : Bytes}
    {methods : List UInt16} (h : methods = [] ∨ methods = files.map (fun _ => encryption.none)) :
    writeArchiveFull X files opts password methods [] = writeArchive X files opts := by
  rw [writeArchiveFull, writeArchive]
  cases hcfs : compressFiles X files opts with
  | error e => rfl
  | ok cfs =>
    have hfiles : cfs.length = files.length := (mapM_ok.mp hcfs).length_eq.symm
    have hnone : ∀ m ∈ methods, m = encryption.none := by
      rcases h with rfl | rfl <;> simp
    have hlen : methods = [] ∨ methods.length = cfs.length :=
      h.imp_right fun h => by rw [h, List.length_map, hfiles]
    rw [ok_bind, encryptFiles_none hnone hlen]

/-! ## The protocol -/

section
variable (files : List ArchiveFile) (opts : CompressOptions) (password : Bytes) (methods : List UInt16)
  (archiveComment : Bytes)

theorem writeArchiveFullWithProgress_none (captured : σ) :
    (writeArchiveFullWithProgress X files opts password methods archiveComment none captured).1 =
      writeArchiveFull X files opts password methods archiveComment := by
  rw [writeArchiveFullWithProgress, writeArchiveHooked_eq]
  exact exec_after_none rfl _ _

theorem writeArchiveFullWithProgress_some (poll : WriteProgressPoll σ) (captured : σ) :
    let calls := play poll (totalLength files) 0 captured
      (writeCheckpoints X files opts password methods archiveComment)
    writeArchiveFullWithProgress X files opts password methods archiveComment (some poll) captured =
      (verdict calls.1 >>= fun _ => writeArchiveFull X files opts password methods archiveComment,
        calls.2) := by
  intro calls
  obtain ⟨hresult, hcaptured⟩ := exec_after_some
    (p := .new (totalLength files) (some poll) captured) rfl
    (writeCheckpoints X files opts password methods archiveComment)
    (writeArchiveFull X files opts password methods archiveComment)
  rw [← writeArchiveHooked_eq] at hresult hcaptured
  exact Prod.ext hresult hcaptured

/-- What the calls of a write tell. -/
theorem tells_play (poll : WriteProgressPoll σ) (captured : σ) :
    let log := (play poll (totalLength files) 0 captured
      (writeCheckpoints X files opts password methods archiveComment)).1
    Tells (totalLength files)
      (verdict log >>= fun _ => writeArchiveFull X files opts password methods archiveComment) log := by
  intro log
  refine ⟨fun r hr => (play_bounds UInt64.zero_le captured _ r hr).1, play_nondecreasing 0 captured _,
    fun r hr => (play_bounds UInt64.zero_le captured _ r hr).2.2, fun out hout => ?_⟩
  obtain ⟨_, hverdict, hout⟩ := bind_ok.mp hout
  obtain ⟨r, hr, hsum⟩ := play_last (verdict_ok.mp hverdict)
  refine ⟨r, hr, UInt64.toNat_inj.mp ?_⟩
  have hall := totalLength_le hout
  rw [hsum, UInt64.toNat_zero, Nat.zero_add]
  exact Nat.min_eq_right hall

/-- What a write with these calls gives. -/
theorem obeys_play (poll : WriteProgressPoll σ) (captured : σ) :
    let log := (play poll (totalLength files) 0 captured
      (writeCheckpoints X files opts password methods archiveComment)).1
    let full := writeArchiveFull X files opts password methods archiveComment
    Obeys X files opts password methods archiveComment full (verdict log >>= fun _ => full) log := by
  intro log full
  have hquiet (h : Uncancelled log) : (verdict log >>= fun _ => full) = full := by
    rw [verdict_ok.mpr h, ok_bind]
  refine ⟨fun pre r post hlog hr => ⟨play_cancelled hlog hr, ?_⟩, hquiet, ?_, ?_⟩
  · have hmem : r ∈ log := hlog ▸ List.mem_append_right _ List.mem_cons_self
    rw [verdict_cancelled hmem hr, error_bind]
  · intro hlog hcomment hmethods
    rw [hquiet hlog, show full = writeArchiveFull X files opts password methods [] by rw [← hcomment]]
    exact writeArchiveFull_plain hmethods
  · intro hlog hcomment hnil haes salt
    rw [hquiet hlog, show full = writeArchiveFull X files opts password methods [] by rw [← hcomment]]
    exact writeArchiveFull_encrypted hnil haes salt

/-- Whatever the callback does, the calls tell of the write as they should, and the write does what
they ask for. -/
theorem writeArchiveFullWithProgress_protocol (poll : WriteProgressPoll σ) (captured : σ) :
    let quiet := writeArchiveFullWithProgress X files opts password methods archiveComment none captured
    let run := writeArchiveFullWithProgress X files opts password methods archiveComment (some poll)
      captured
    let logged := writeArchiveFullWithProgress X files opts password methods archiveComment
      (some poll.recorded) (captured, [])
    (logged.1 = run.1 ∧ logged.2.1 = run.2) ∧ Tells (totalLength files) run.1 logged.2.2 ∧
      Obeys X files opts password methods archiveComment quiet.1 run.1 logged.2.2 := by
  intro quiet run logged
  have hquiet : quiet.1 = _ :=
    writeArchiveFullWithProgress_none files opts password methods archiveComment captured
  have hrun : run = _ :=
    writeArchiveFullWithProgress_some files opts password methods archiveComment poll captured
  have hlogged : logged = _ := writeArchiveFullWithProgress_some files opts password methods
    archiveComment poll.recorded (captured, [])
  rw [play_recorded, List.nil_append] at hlogged
  rw [hquiet, hrun, hlogged]
  exact ⟨⟨rfl, rfl⟩, tells_play files opts password methods archiveComment poll captured,
    obeys_play files opts password methods archiveComment poll captured⟩

end

end Kzip.Impl
