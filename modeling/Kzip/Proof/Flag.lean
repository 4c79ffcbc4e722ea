import Kzip.Impl.Reference
import Kzip.Proof.Edit
import Kzip.Spec.Flag

/-!
# The read-only flag

`check_writable` looks at the flags a handle was opened with, not at its archive flags. So the flag
guards an archive that was opened read-only, and no other: as soon as a call sets it on a handle that
was opened for writing, the edits that follow are accepted (`flagGuarded_iff`).
-/

namespace Kzip.Impl

open Lib Kzip.Spec

variable {X : Extern}

/-! ## What a call does to the flags -/

/-- An edit call leaves the flags as they are, and is refused on a handle that was opened
read-only. -/
structure EditFrame (z : Zip) (r : Int × Zip) : Prop where
  flags : r.2.flags = z.flags
  afl : r.2.afl = z.afl
  chAfl : r.2.chAfl = z.chAfl
  refused : z.readOnly = true → r = z.fail .rdonly

theorem editFrame_edit {z z' : Zip} {refuse : Option ZipErrorCode} (hflags : z'.flags = z.flags)
    (hafl : z'.afl = z.afl) (hch : z'.chAfl = z.chAfl) : EditFrame z (z.edit refuse z') := by
  have hrefused (h : z.readOnly = true) : z.edit refuse z' = z.fail .rdonly := if_pos h
  rcases edit_cases z refuse z' with ⟨code, hfail⟩ | ⟨-, hok⟩
  · exact ⟨by rw [hfail]; rfl, by rw [hfail]; rfl, by rw [hfail]; rfl, hrefused⟩
  · exact ⟨by rw [hok]; exact hflags, by rw [hok]; exact hafl, by rw [hok]; exact hch, hrefused⟩

theorem editFrame_pendingOnly {z : Zip} {r : Int × Zip} (h : PendingOnly z r) : EditFrame z r := by
  refine ⟨h.same (f := Zip.flags) (fun _ => rfl) fun _ _ => rfl, h.same (f := Zip.afl) (fun _ => rfl) fun _ _ => rfl,
    h.same (f := Zip.chAfl) (fun _ => rfl) fun _ _ => rfl, fun hread => ?_⟩
  obtain ⟨code, rfl, hcode⟩ | ⟨hwritable, -⟩ := h
  · rw [hcode hread]
  · cases hread.symm.trans hwritable

theorem editFrame_run (X : Extern) (z : Zip) {c : ZipCall} (hc : c.isEdit = true) :
    EditFrame z (c.run X z) := by
  cases c with
  | fileAdd name source flags => exact editFrame_pendingOnly (fileAdd_pendingOnly z name source flags)
  | dirAdd name => exact editFrame_pendingOnly (dirAdd_pendingOnly z name)
  | rename index name =>
    rw [ZipCall.run, rename_eq_edit]
    exact editFrame_edit rfl rfl rfl
  | fileReplace index source =>
    rw [fileReplace_eq_edit]
    exact editFrame_edit rfl rfl rfl
  | setDefaultPassword | setArchiveFlag | unchange | unchangeAll | unchangeArchive | openEntry
  | readEntry => exact absurd hc Bool.false_ne_true
  | _ => exact editFrame_edit rfl rfl rfl

theorem setArchiveFlag_cases (z : Zip) (flag value : Int32) :
    (∃ code, z.setArchiveFlag flag value = z.fail code) ∨ z.setArchiveFlag flag value = (0, z) ∨
    (¬ (flag = zipAflRdonly ∧ value ≠ 0 ∧ z.chAfl &&& zipAflRdonly = 0 ∧ !z.pending.isEmpty) ∧
      z.setArchiveFlag flag value = (0, { z with
        chAfl := if value ≠ 0 then z.chAfl ||| flag else z.chAfl &&& ~~~flag })) := by
  unfold Zip.setArchiveFlag
  split
  · exact .inl ⟨_, rfl⟩
  · dsimp only
    generalize (if value ≠ 0 then z.chAfl ||| flag else z.chAfl &&& ~~~flag) = newFlags
    split
    · exact .inr (.inl rfl)
    · split
      · exact .inl ⟨_, rfl⟩
      · split
        · exact .inl ⟨_, rfl⟩
        · exact .inr (.inr ⟨‹_›, rfl⟩)

theorem or_and_eq_zero {a b c : Int32} : (a ||| b) &&& c = 0 ↔ a &&& c = 0 ∧ b &&& c = 0 := by
  rw [← Int32.toBitVec_inj, ← Int32.toBitVec_inj, ← Int32.toBitVec_inj, Int32.toBitVec_and,
    Int32.toBitVec_or, Int32.toBitVec_and, Int32.toBitVec_and, BitVec.and_or_distrib_right]
  exact BitVec.or_eq_zero_iff

theorem and_and_eq_zero {a b c : Int32} (h : a &&& c = 0) : (a &&& b) &&& c = 0 := by
  rw [Int32.and_assoc, Int32.and_comm b c, ← Int32.and_assoc, h, Int32.zero_and]

theorem step_flags (X : Extern) (z : Zip) (c : ZipCall) :
    (step X z c).flags = z.flags ∧ (step X z c).afl = z.afl := by
  by_cases hc : c.isEdit = true
  · have hframe := editFrame_run X z hc
    exact ⟨hframe.flags, hframe.afl⟩
  · cases c with
    | setArchiveFlag flag value =>
      show (z.setArchiveFlag flag value).2.flags = _ ∧ (z.setArchiveFlag flag value).2.afl = _
      rcases setArchiveFlag_cases z flag value with ⟨code, h⟩ | h | ⟨-, h⟩ <;> rw [h] <;>
        exact ⟨rfl, rfl⟩
    | setDefaultPassword password => cases password <;> exact ⟨rfl, rfl⟩
    | unchange index =>
      simp only [step, ZipCall.run, Zip.unchange]
      split <;> exact ⟨rfl, rfl⟩
    | unchangeAll | unchangeArchive | openEntry | readEntry => exact ⟨rfl, rfl⟩
    | _ => exact absurd rfl hc

/-- The read-only flag is not set but by a call that sets it, on a handle that was opened for
writing. -/
theorem step_chAfl {z : Zip} {c : ZipCall} (hafl : z.afl &&& zipAflRdonly = 0)
    (hch : z.chAfl &&& zipAflRdonly = 0) (hc : ¬ SetsReadOnly z c) :
    (step X z c).chAfl &&& zipAflRdonly = 0 := by
  by_cases hedit : c.isEdit = true
  · have hframe := editFrame_run X z hedit
    rw [step, hframe.chAfl]
    exact hch
  · cases c with
    | setArchiveFlag flag value =>
      show (z.setArchiveFlag flag value).2.chAfl &&& zipAflRdonly = 0
      rcases setArchiveFlag_cases z flag value with ⟨code, h⟩ | h | ⟨hguard, h⟩
      · rw [h]
        exact hch
      · rw [h]
        exact hch
      · rw [h]
        show (if value ≠ 0 then z.chAfl ||| flag else z.chAfl &&& ~~~flag) &&& zipAflRdonly = 0
        split
        · rename_i hvalue
          refine or_and_eq_zero.mpr ⟨hch, Classical.byContradiction fun hflag => hc ⟨hvalue, hflag, ?_⟩⟩
          intro hrd
          refine Classical.byContradiction fun hne => hguard ⟨hrd, hvalue, hch, ?_⟩
          rw [Bool.not_eq_true] at hne
          rw [hne]
          rfl
        · exact and_and_eq_zero hch
    | setDefaultPassword password => cases password <;> exact hch
    | unchange index =>
      simp only [step, ZipCall.run, Zip.unchange]
      split <;> exact hch
    | unchangeAll | unchangeArchive => exact hafl
    | openEntry | readEntry => exact hch
    | _ => exact absurd rfl hedit

/-- A call that sets the read-only flag of a handle that was opened for writing does set it. -/
theorem step_setsReadOnly {z : Zip} {c : ZipCall} (hafl : z.afl &&& zipAflRdonly = 0)
    (hch : z.chAfl &&& zipAflRdonly = 0) (hc : SetsReadOnly z c) :
    (step X z c).chAfl &&& zipAflRdonly ≠ 0 := by
  cases c with
  | setArchiveFlag flag value =>
    obtain ⟨hvalue, hflag, hempty⟩ := hc
    have hnew : (z.chAfl ||| flag) &&& zipAflRdonly ≠ 0 := fun h => hflag (or_and_eq_zero.mp h).2
    have htorrent : flag ≠ zipAflIsTorrentzip := fun h => hflag (h ▸ by decide)
    have hne : z.chAfl ||| flag ≠ z.chAfl := fun h => hnew (by rw [h]; exact hch)
    have hguard : ¬ (flag = zipAflRdonly ∧ value ≠ 0 ∧ z.chAfl &&& zipAflRdonly = 0 ∧
        !z.pending.isEmpty) := fun ⟨hrd, _, _, hpending⟩ => by simp [hempty hrd] at hpending
    have hrun : z.setArchiveFlag flag value = (0, { z with chAfl := z.chAfl ||| flag }) := by
      unfold Zip.setArchiveFlag
      rw [if_neg htorrent, if_pos hvalue]
      dsimp only
      rw [if_neg hne, if_neg (not_not.mpr hafl), if_neg hguard]
    show (z.setArchiveFlag flag value).2.chAfl &&& zipAflRdonly ≠ 0
    rw [hrun]
    exact hnew
  | _ => exact hc.elim

/-! ## The two kinds of handles -/

theorem isEmpty_iff {p : PendingOps} : p.isEmpty = true ↔ p = .default := by
  cases p
  simp [PendingOps.isEmpty, PendingOps.default, and_assoc]

theorem unchangeEntry_default (a : Archive) (k : Nat) : unchangeEntry a .default k = .default := by
  unfold unchangeEntry
  split <;> rfl

/-- A handle that was opened read-only has no pending edits. -/
structure OpenedReadOnly (z : Zip) : Prop where
  readOnly : z.readOnly = true
  pending : z.pending = .default

theorem openedReadOnly_step {z : Zip} (h : OpenedReadOnly z) (c : ZipCall) :
    OpenedReadOnly (step X z c) := by
  refine ⟨?_, ?_⟩
  · rw [Zip.readOnly, (step_flags X z c).1]
    exact h.readOnly
  · by_cases hc : c.isEdit = true
    · rw [step, (editFrame_run X z hc).refused h.readOnly]
      exact h.pending
    · cases c with
      | setArchiveFlag flag value => exact (setArchiveFlag_pending z flag value).trans h.pending
      | setDefaultPassword password => cases password <;> exact h.pending
      | unchange index =>
        simp only [step, ZipCall.run, Zip.unchange]
        split
        · exact h.pending
        · show unchangeEntry z.archive z.pending index = .default
          rw [h.pending, unchangeEntry_default]
      | unchangeAll => rfl
      | unchangeArchive =>
        show { z.pending with archiveComment := none } = PendingOps.default
        rw [h.pending]
        rfl
      | openEntry | readEntry => exact h.pending
      | _ => exact absurd rfl hc

theorem flagGuarded_of_openedReadOnly {z : Zip} (h : OpenedReadOnly z) : FlagGuarded X z := by
  refine ⟨fun _ => isEmpty_iff.mpr h.pending, fun _ c hc => ?_⟩
  rw [(editFrame_run X z hc).refused h.readOnly]
  exact ⟨rfl, rfl, rfl⟩

/-- A handle that was opened for writing, with the read-only flag not set. -/
structure Unflagged (z : Zip) : Prop where
  writable : z.readOnly = false
  afl : z.afl &&& zipAflRdonly = 0
  chAfl : z.chAfl &&& zipAflRdonly = 0

theorem unflagged_step {z : Zip} {c : ZipCall} (h : Unflagged z) (hc : ¬ SetsReadOnly z c) :
    Unflagged (step X z c) := by
  obtain ⟨hflags, hafl⟩ := step_flags X z c
  refine ⟨?_, by rw [hafl]; exact h.afl, step_chAfl h.afl h.chAfl hc⟩
  rw [Zip.readOnly, hflags]
  exact h.writable

theorem flagGuarded_of_unflagged {z : Zip} (h : Unflagged z) : FlagGuarded X z :=
  ⟨fun hset => absurd h.chAfl hset, fun hset => absurd h.chAfl hset⟩

/-- A handle that was opened for writing accepts edits whatever its archive flags are. -/
theorem not_flagGuarded {z : Zip} (hw : z.readOnly = false) (hch : z.chAfl &&& zipAflRdonly ≠ 0) :
    ¬ FlagGuarded X z := by
  intro h
  have hrefused := (h.refused hch (.setArchiveComment none 0) rfl).failed
  have hrun : (z.setArchiveComment none 0).1 = 0 := by
    unfold Zip.setArchiveComment Zip.edit
    rw [hw]
    rfl
  exact absurd (hrun.symm.trans hrefused) (by decide)

/-- The read-only flag guards the handle in every state of a run exactly when the archive was opened
read-only, or no call sets the flag. -/
theorem flagGuarded_iff (X : Extern) (a : Archive) (flags : Int32) (calls : List ZipCall) :
    Throughout (step X) (FlagGuarded X) (makeZip a flags) calls ↔
      flags &&& zipRdonly ≠ 0 ∨
        Along (step X) (fun z c => ¬ SetsReadOnly z c) (makeZip a flags) calls := by
  by_cases hflags : flags &&& zipRdonly = 0
  · have hstart : Unflagged (makeZip a flags) :=
      ⟨by simp [Zip.readOnly, makeZip, hflags], by simp [makeZip, hflags], by simp [makeZip, hflags]⟩
    have hkeep (z : Zip) (c : ZipCall) (h : Unflagged z) (hc : ¬ SetsReadOnly z c) :
        Unflagged (step X z c) := unflagged_step h hc
    have hbad (z : Zip) (c : ZipCall) (h : Unflagged z) (hc : ¬ ¬ SetsReadOnly z c) :
        ¬ FlagGuarded X (step X z c) := by
      refine not_flagGuarded ?_ (step_setsReadOnly h.afl h.chAfl (not_not.mp hc))
      rw [Zip.readOnly, (step_flags X z c).1]
      exact h.writable
    have hiff : Throughout (step X) (FlagGuarded X) (makeZip a flags) calls ↔
        Along (step X) (fun z c => ¬ SetsReadOnly z c) (makeZip a flags) calls :=
      throughout_iff_along (fun _ => flagGuarded_of_unflagged) hkeep hbad hstart calls
    exact hiff.trans ⟨.inr, fun h => h.resolve_left (not_not.mpr hflags)⟩
  · have hstart : OpenedReadOnly (makeZip a flags) := ⟨by simp [Zip.readOnly, makeZip, hflags], rfl⟩
    refine ⟨fun _ => .inl hflags, fun _ => ?_⟩
    have hrun : Along (step X) (fun _ _ => True) (makeZip a flags) calls :=
      Along.of_forall fun _ _ => trivial
    have hstep (z : Zip) (c : ZipCall) (h : OpenedReadOnly z) (_ : True) : OpenedReadOnly (step X z c) :=
      openedReadOnly_step h c
    exact hrun.throughout (fun _ => flagGuarded_of_openedReadOnly) hstep hstart

/-- The flag is set while no edit is pending, and the delete that follows is accepted. -/
theorem flag_not_guarded :
    ∃ a, Archive.open { kind := .vec, bytes := sampleArchive } = .ok a ∧
      ¬ FlagGuarded reference
        (runAll reference [.setArchiveFlag zipAflRdonly 1] (makeZip a 0)) := by
  obtain ⟨a, ha, hp⟩ := exists_ok (x := Archive.open { kind := .vec, bytes := sampleArchive })
    (p := fun a => decide
      ((runAll reference [.setArchiveFlag zipAflRdonly 1] (makeZip a 0)).chAfl &&& zipAflRdonly ≠ 0 ∧
        ((runAll reference [.setArchiveFlag zipAflRdonly 1] (makeZip a 0)).delete 0).1 = 0))
    (by decide +kernel)
  obtain ⟨hset, hdelete⟩ := of_decide_eq_true hp
  refine ⟨a, ha, fun h => ?_⟩
  have hrefused := (h.refused hset (.delete 0) rfl).failed
  exact absurd (hdelete.symm.trans hrefused) (by decide)

end Kzip.Impl
