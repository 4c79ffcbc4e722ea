import Kzip.Lib.Custody
import Kzip.Lib.Throttle
import Kzip.Proof.Progress
import Kzip.Proof.Session
import Kzip.Spec.Callbacks

/-!
# What callbacks see

A close with callbacks gives what the close without them gives, unless the cancel callback asks to cancel, and
the progress callback is told of fractions that grow from 0 to 1 (`zipClose_monitored`). At the checkpoints
of a write it is told of those that are due (`play_recorded_callbacks`).
-/

namespace Kzip.Impl

open Lib Lib.Utf8 Kzip.Spec

variable {X : Extern} {σ : Type} {D : Doubles}

theorem fractions_append (log log' : List CallbackEvent) :
    fractions (log ++ log') = fractions log ++ fractions log' := List.filterMap_append

theorem answers_append (log log' : List CallbackEvent) :
    answers (log ++ log') = answers log ++ answers log' := List.filterMap_append

/-! ## Fractions -/

theorem fraction_bounds (D : Doubles) (completed total : UInt64) :
    0 ≤ fraction D completed total ∧ fraction D completed total ≤ 1 := by
  unfold fraction
  split
  · exact ⟨zero_le_one, le_refl 1⟩
  · exact ⟨le_max_left _ _, max_le zero_le_one (min_le_right _ _)⟩

theorem fraction_mono (D : Doubles) {completed completed' : UInt64} (total : UInt64)
    (h : completed ≤ completed') : fraction D completed total ≤ fraction D completed' total := by
  unfold fraction
  split
  · exact le_refl 1
  · rename_i htotal
    have hone : (1 : ℚ) ≤ total.toNat := by
      have : 0 < total.toNat := Nat.pos_of_ne_zero fun h => htotal (UInt64.toNat_inj.mp h)
      exact_mod_cast this
    have htotal' : 0 ≤ D.round total.toNat := by
      rw [← D.round_eq D.zero]
      exact D.round_mono (zero_le_one.trans hone)
    have hcompleted : D.round completed.toNat ≤ D.round completed'.toNat :=
      D.round_mono (by exact_mod_cast UInt64.le_iff_toNat_le.mp h)
    have hfrac := D.round_mono (div_le_div_of_nonneg_right hcompleted htotal')
    exact max_le_max (le_refl 0) (min_le_min hfrac (le_refl 1))

/-! ## The calls at the checkpoints -/

section
variable (cs : Callbacks σ) (progressTag cancelTag : Nat)

/-- The events are of callbacks that are registered. -/
def Callbacks.Live : CallbackEvent → Prop
  | .told tag _ => cs.progress.isSome ∧ tag = progressTag
  | .polled tag _ => cs.cancel.isSome ∧ tag = cancelTag
  | .freed _ => False

/-- What the progress callback is told at a checkpoint. -/
def toldEvents (D : Doubles) (p : ProgressReg σ) (frac last : ℚ) : List CallbackEvent :=
  if p.due D last frac then [.told progressTag frac] else []

/-- What is done at a checkpoint. -/
def pollEvents (D : Doubles) (frac last : ℚ) (cancel : Bool) : List CallbackEvent :=
  (if cs.cancel.isSome then [.polled cancelTag cancel] else []) ++
    cs.progress.elim [] fun p => toldEvents progressTag D p frac last

theorem progress_poll_recorded (p : ProgressReg σ) (za : Zip) (completed total : UInt64) (captured : σ)
    (log : List CallbackEvent) (last : ℚ) :
    let r := p.poll D za completed total (captured, last)
    (p.recorded progressTag).poll D za completed total ((captured, log), last) =
      ((r.1, log ++ toldEvents progressTag D p (fraction D completed total) last), r.2) := by
  intro r
  have hsame : (p.recorded progressTag).due D last (fraction D completed total) =
      p.due D last (fraction D completed total) := rfl
  by_cases hdue : p.due D last (fraction D completed total) = true
  · simp only [r, ProgressReg.poll, hsame, toldEvents, if_pos hdue]
    rfl
  · simp only [r, ProgressReg.poll, hsame, toldEvents, if_neg hdue, List.append_nil]

theorem poll_recorded (za : Zip) (completed total : UInt64) (captured : σ) (log : List CallbackEvent) (last : ℚ) :
    let r := cs.poll D za completed total (captured, last)
    (cs.recorded progressTag cancelTag).poll D za completed total ((captured, log), last) =
      (r.1, (r.2.1, log ++ pollEvents cs progressTag cancelTag D (fraction D completed total) last r.1),
        r.2.2) := by
  rcases cs with ⟨_ | p, _ | c⟩
  · simp [Callbacks.poll, Callbacks.recorded, pollEvents]
  · simp [Callbacks.poll, Callbacks.recorded, pollEvents, CancelReg.recorded]
  · simp [Callbacks.poll, Callbacks.recorded, pollEvents, progress_poll_recorded]
  · simp [Callbacks.poll, Callbacks.recorded, pollEvents, CancelReg.recorded, progress_poll_recorded]

/-- The state after a checkpoint: the fraction that was last told of. -/
theorem poll_last (za : Zip) (completed total : UInt64) (captured : σ) (last : ℚ) :
    (cs.poll D za completed total (captured, last)).2.2 = cs.progress.elim last fun p =>
      if p.due D last (fraction D completed total) then fraction D completed total else last := by
  rcases cs with ⟨_ | p, _ | c⟩
  · rfl
  · rfl
  · simp only [Callbacks.poll, ProgressReg.poll, Option.elim_some]
    split <;> rfl
  · simp only [Callbacks.poll, ProgressReg.poll, Option.elim_some]
    split <;> rfl

/-- The events of a write say what its reports say: the answers of the cancel callback, and the fractions that
are due. -/
structure Says (D : Doubles) (last : ℚ) (reports : List Report) (events : List CallbackEvent) : Prop where
  answers : answers events = if cs.cancel.isSome then reports.map (·.cancel) else []
  quiet : cs.cancel = none → Uncancelled reports
  fractions : fractions events = cs.progress.elim [] fun p =>
    throttle (p.due D) last (reports.map fun r => fraction D r.completed r.total)
  live : ∀ e ∈ events, cs.Live progressTag cancelTag e

theorem says_nil (last : ℚ) : Says cs progressTag cancelTag D last [] [] where
  answers := by split <;> rfl
  quiet := fun _ => nofun
  fractions := by cases cs.progress <;> rfl
  live := nofun

theorem says_cons {last : ℚ} (report : Report) {reports : List Report} {events : List CallbackEvent}
    (hquiet : cs.cancel = none → report.cancel = false)
    (h : Says cs progressTag cancelTag D (cs.progress.elim last fun p =>
      if p.due D last (fraction D report.completed report.total) then
        fraction D report.completed report.total else last) reports events) :
    Says cs progressTag cancelTag D last (report :: reports)
      (pollEvents cs progressTag cancelTag D (fraction D report.completed report.total) last report.cancel ++
        events) where
  answers := by
    have htold (p : ProgressReg σ) (frac : ℚ) : answers (toldEvents progressTag D p frac last) = [] := by
      unfold toldEvents
      split <;> rfl
    rw [answers_append, h.answers]
    rcases cs with ⟨_ | p, _ | c⟩
    · rfl
    · rfl
    · exact congrArg (· ++ []) (htold p _)
    · exact congrArg (fun l => report.cancel :: (l ++ _)) (htold p _)
  quiet := fun hnone => List.forall_mem_cons.mpr ⟨hquiet hnone, h.quiet hnone⟩
  fractions := by
    have hpolled (c : Option (CancelReg σ)) :
        fractions (if c.isSome then [CallbackEvent.polled cancelTag report.cancel] else []) = [] := by
      cases c <;> rfl
    rw [pollEvents, fractions_append, fractions_append, hpolled, List.nil_append, h.fractions]
    cases hp : cs.progress with
    | none => rfl
    | some p =>
      simp only [Option.elim_some, List.map_cons, throttle, toldEvents]
      split <;> rfl
  live := fun e he => by
    rcases List.mem_append.mp he with he | he
    · rcases List.mem_append.mp he with he | he
      · split at he
        · rename_i hc
          rw [List.mem_singleton.mp he]
          exact ⟨hc, rfl⟩
        · cases he
      · cases hp : cs.progress with
        | none =>
          rw [hp] at he
          cases he
        | some p =>
          rw [hp, Option.elim_some, toldEvents] at he
          split at he
          · rw [List.mem_singleton.mp he]
            exact ⟨Option.isSome_of_eq_some hp, rfl⟩
          · cases he
    · exact h.live e he

/-- The events of the checkpoints of a write. -/
theorem play_callbacks (za : Zip) (total completed : UInt64) (captured : σ) (log : List CallbackEvent) (last : ℚ)
    (ns : List UInt64) :
    let calls := play (cs.poll D za) total completed (captured, last) ns
    ∃ events, play ((cs.recorded progressTag cancelTag).poll D za) total completed ((captured, log), last) ns =
        (calls.1, (calls.2.1, log ++ events), calls.2.2) ∧
      Says cs progressTag cancelTag D last calls.1 events := by
  induction ns generalizing completed captured log last with
  | nil => exact ⟨[], by rw [List.append_nil]; rfl, says_nil ..⟩
  | cons n ns ih =>
    have hrecorded := poll_recorded (D := D) cs progressTag cancelTag za (clampedAdd completed n total) total
      captured log last
    have hlast := poll_last (D := D) cs za (clampedAdd completed n total) total captured last
    have hquiet : cs.cancel = none →
        (cs.poll D za (clampedAdd completed n total) total (captured, last)).1 = false := by
      intro hnone
      rcases cs with ⟨_ | p, _ | c⟩
      · rfl
      · cases hnone
      · rfl
      · cases hnone
    rcases hcall : cs.poll D za (clampedAdd completed n total) total (captured, last) with ⟨_ | _, captured', last'⟩
    · simp only [hcall] at hrecorded hlast
      subst hlast
      obtain ⟨events, hevents, hsays⟩ := ih (clampedAdd completed n total) captured'
        (log ++ pollEvents cs progressTag cancelTag D (fraction D (clampedAdd completed n total) total) last
          false) _
      rw [play_continue hrecorded, play_continue hcall, hevents, List.append_assoc]
      exact ⟨_, rfl, says_cons cs progressTag cancelTag ⟨clampedAdd completed n total, total, false⟩
        (fun _ => rfl) hsays⟩
    · simp only [hcall] at hrecorded hquiet
      rw [play_cancel hrecorded, play_cancel hcall]
      refine ⟨_, by rw [List.append_nil], says_cons cs progressTag cancelTag _ hquiet (says_nil ..)⟩

/-! ## Writing with callbacks -/

/-- The fractions that are told at the end of a write. -/
def outroFractions : Result Vec → List ℚ
  | .ok _ => [1]
  | .error _ => []

/-- What the events of a write tell, which gives `result`, and `quiet` without callbacks. -/
structure Watched (D : Doubles) (quiet result : Result Vec) (events : List CallbackEvent) : Prop where
  uncancelled : true ∉ answers events → result = quiet
  cancelled : ∀ before after, answers events = before ++ true :: after →
    result = .error (.err .cancelled) ∧ after = []
  nondecreasing : (fractions events).Pairwise (· ≤ ·)
  bounded : ∀ frac ∈ fractions events, 0 ≤ frac ∧ frac ≤ 1
  started : ∀ frac ∈ (fractions events).head?, frac = 0
  finished : cs.progress.isSome → ∀ out, result = .ok out → (fractions events).getLast? = some 1
  throttled : ∀ p ∈ cs.progress, ∃ written, written.IsChain (fun last frac => p.due D last frac = true) ∧
    fractions events = written ++ outroFractions result
  live : ∀ e ∈ events, cs.Live progressTag cancelTag e

theorem watched_nil {quiet result : Result Vec} (hresult : result = quiet)
    (hfinished : cs.progress.isSome → ∀ out, result ≠ .ok out) :
    Watched cs progressTag cancelTag D quiet result [] where
  uncancelled := fun _ => hresult
  cancelled := fun before after h => by simp [answers] at h
  nondecreasing := .nil
  bounded := nofun
  started := nofun
  finished := fun hp out hout => absurd hout (hfinished hp out)
  throttled := fun p hp => by
    cases result with
    | ok out => exact absurd rfl (hfinished (Option.isSome_of_eq_some hp) out)
    | error e => exact ⟨[], .nil, rfl⟩
  live := nofun

/-- The write succeeds if the one without callbacks does and is not cancelled. -/
theorem Watched.makes_iff {quiet result : Result Vec} {events : List CallbackEvent}
    (h : Watched cs progressTag cancelTag D quiet result events) :
    (true ∉ answers events ∧ ∃ out, quiet = .ok out) ↔ ∃ out, result = .ok out := by
  constructor
  · rintro ⟨hno, out, hout⟩
    exact ⟨out, (h.uncancelled hno).trans hout⟩
  · rintro ⟨out, hout⟩
    have hno : true ∉ answers events := by
      intro hyes
      obtain ⟨before, after, hsplit⟩ := List.append_of_mem hyes
      have herror := (h.cancelled before after hsplit).1
      rw [hout] at herror
      cases herror
    exact ⟨hno, out, (h.uncancelled hno).symm.trans hout⟩

/-- The cancel callback answered as the reports say. -/
theorem says_cancels {last : ℚ} {reports : List Report} {events : List CallbackEvent}
    (h : Says cs progressTag cancelTag D last reports events) :
    true ∈ answers events ↔ ∃ r ∈ reports, r.cancel = true := by
  rw [h.answers]
  cases hc : cs.cancel with
  | none =>
    simp only [Option.isSome_none, Bool.false_eq_true, if_false, List.not_mem_nil, false_iff, not_exists,
      not_and]
    intro r hr hcancel
    rw [h.quiet hc r hr] at hcancel
    cases hcancel
  | some c => simp

/-- The fractions of a write: the first is 0, and the others are those that are due of what the reports tell. -/
theorem told_fractions (p : ProgressReg σ) {reports : List Report} (total : UInt64)
    (htotal : ∀ r ∈ reports, r.total = total)
    (hsorted : reports.Pairwise fun r r' => r.completed ≤ r'.completed) :
    let told := 0 :: throttle (p.due D) 0 (reports.map fun r => fraction D r.completed r.total)
    told.Pairwise (· ≤ ·) ∧ (∀ frac ∈ told, 0 ≤ frac ∧ frac ≤ 1) ∧
      told.IsChain fun last frac => p.due D last frac = true := by
  intro told
  have hbounds : ∀ frac ∈ reports.map fun r => fraction D r.completed r.total, 0 ≤ frac ∧ frac ≤ 1 := by
    intro frac hfrac
    obtain ⟨r, -, rfl⟩ := List.mem_map.mp hfrac
    exact fraction_bounds D r.completed r.total
  have hsub := throttle_sublist (p.due D) 0 (reports.map fun r => fraction D r.completed r.total)
  have hmap : (reports.map fun r => fraction D r.completed r.total).Pairwise (· ≤ ·) := by
    refine List.pairwise_map.mpr (hsorted.imp_of_mem fun {r r'} hr hr' hle => ?_)
    rw [htotal r hr, htotal r' hr']
    exact fraction_mono D total hle
  refine ⟨.cons (fun frac hfrac => (hbounds frac (hsub.subset hfrac)).1) (hmap.sublist hsub), ?_,
    throttle_due (p.due D) 0 _⟩
  intro frac hfrac
  rcases List.mem_cons.mp hfrac with rfl | hfrac
  · exact ⟨le_refl 0, zero_le_one⟩
  · exact hbounds frac (hsub.subset hfrac)

/-- Telling the progress callback. -/
def tellEvents (frac : ℚ) : List CallbackEvent := cs.progress.elim [] fun _ => [.told progressTag frac]

theorem tell_recorded (za : Zip) (frac : ℚ) (captured : σ) (log : List CallbackEvent) :
    (cs.recorded progressTag cancelTag).tell za frac (captured, log) =
      (cs.tell za frac captured, log ++ tellEvents cs progressTag frac) := by
  rcases cs with ⟨_ | p, c⟩
  · simp [Callbacks.recorded, Callbacks.tell, tellEvents]
  · rfl

theorem answers_tellEvents (frac : ℚ) : answers (tellEvents cs progressTag frac) = [] := by
  unfold tellEvents
  cases cs.progress <;> rfl

theorem live_tellEvents (frac : ℚ) : ∀ e ∈ tellEvents cs progressTag frac, cs.Live progressTag cancelTag e := by
  unfold tellEvents
  cases hp : cs.progress with
  | none => exact nofun
  | some p => exact List.forall_mem_singleton.mpr ⟨Option.isSome_of_eq_some hp, rfl⟩

/-- The last fraction is told if the write succeeds. -/
def outroEvents : Result Vec → List CallbackEvent
  | .ok _ => tellEvents cs progressTag 1
  | .error _ => []

theorem answers_outroEvents (result : Result Vec) : answers (outroEvents cs progressTag result) = [] := by
  cases result with
  | ok out => exact answers_tellEvents cs progressTag 1
  | error e => rfl

theorem live_outroEvents (result : Result Vec) :
    ∀ e ∈ outroEvents cs progressTag result, cs.Live progressTag cancelTag e := by
  cases result with
  | ok out => exact live_tellEvents cs progressTag cancelTag 1
  | error e => exact nofun

/-- The events of a write: 0, what is due at the checkpoints, and 1 at the end. -/
def writeEvents (result : Result Vec) (events : List CallbackEvent) : List CallbackEvent :=
  tellEvents cs progressTag 0 ++ events ++ outroEvents cs progressTag result

theorem answers_writeEvents (result : Result Vec) (events : List CallbackEvent) :
    answers (writeEvents cs progressTag result events) = answers events := by
  rw [writeEvents, answers_append, answers_append, answers_tellEvents, answers_outroEvents, List.nil_append,
    List.append_nil]

theorem fractions_writeEvents {reports : List Report} {events : List CallbackEvent}
    (h : Says cs progressTag cancelTag D 0 reports events) (result : Result Vec) :
    fractions (writeEvents cs progressTag result events) = cs.progress.elim [] fun p =>
      (0 :: throttle (p.due D) 0 (reports.map fun r => fraction D r.completed r.total)) ++
        outroFractions result := by
  rw [writeEvents, fractions_append, fractions_append, h.fractions, tellEvents]
  cases hp : cs.progress with
  | none => cases result <;> simp [outroEvents, tellEvents, hp, fractions]
  | some p => cases result <;> simp [outroEvents, tellEvents, hp, fractions, outroFractions,
      CallbackEvent.fraction]

theorem live_writeEvents {reports : List Report} {events : List CallbackEvent}
    (h : Says cs progressTag cancelTag D 0 reports events) (result : Result Vec) :
    ∀ e ∈ writeEvents cs progressTag result events, cs.Live progressTag cancelTag e := by
  intro e he
  rcases List.mem_append.mp he with he | he
  · rcases List.mem_append.mp he with he | he
    · exact live_tellEvents cs progressTag cancelTag 0 e he
    · exact h.live e he
  · exact live_outroEvents cs progressTag cancelTag result e he

section
variable {reports : List Report} {events : List CallbackEvent} {full result : Result Vec}

theorem write_uncancelled (h : Says cs progressTag cancelTag D 0 reports events)
    (hresult : result = (verdict reports >>= fun _ => full)) (hno : true ∉ answers events) :
    result = full := by
  have hquiet : Uncancelled reports := fun r hr =>
    Bool.eq_false_iff.mpr fun hcancel => hno ((says_cancels cs progressTag cancelTag h).mpr ⟨r, hr, hcancel⟩)
  rw [hresult, verdict_ok.mpr hquiet, ok_bind]

theorem write_cancelled (h : Says cs progressTag cancelTag D 0 reports events)
    (hresult : result = (verdict reports >>= fun _ => full))
    (hstop : ∀ pre r post, reports = pre ++ r :: post → r.cancel = true → post = [])
    {before after : List Bool} (hanswers : answers events = before ++ true :: after) :
    result = .error (.err .cancelled) ∧ after = [] := by
  rw [h.answers] at hanswers
  split at hanswers
  · obtain ⟨pre, rest, hreports, rfl, hrest⟩ := List.map_eq_append_iff.mp hanswers
    obtain ⟨r, post, rfl, hr, rfl⟩ := List.map_eq_cons_iff.mp hrest
    have hmem : r ∈ reports := hreports ▸ List.mem_append_right _ List.mem_cons_self
    rw [hstop pre r post hreports hr, hresult, verdict_cancelled hmem hr, error_bind]
    exact ⟨rfl, rfl⟩
  · simp at hanswers

/-- What is told at the end of a write comes after what was told during it. -/
theorem told_outro {told : List ℚ} (hmono : told.Pairwise (· ≤ ·)) (hbounds : ∀ frac ∈ told, 0 ≤ frac ∧ frac ≤ 1)
    (result : Result Vec) :
    (told ++ outroFractions result).Pairwise (· ≤ ·) ∧
      ∀ frac ∈ told ++ outroFractions result, 0 ≤ frac ∧ frac ≤ 1 := by
  cases result with
  | error e =>
    rw [outroFractions, List.append_nil]
    exact ⟨hmono, hbounds⟩
  | ok out =>
    refine ⟨List.pairwise_append.mpr ⟨hmono, List.pairwise_singleton .., fun frac hfrac one hone => ?_⟩,
      fun frac hfrac => ?_⟩
    · rw [List.mem_singleton.mp hone]
      exact (hbounds frac hfrac).2
    · rcases List.mem_append.mp hfrac with hfrac | hone
      · exact hbounds frac hfrac
      · rw [List.mem_singleton.mp hone]
        exact ⟨zero_le_one, le_refl 1⟩

theorem watched_write (h : Says cs progressTag cancelTag D 0 reports events)
    (hresult : result = (verdict reports >>= fun _ => full)) (total : UInt64)
    (htotal : ∀ r ∈ reports, r.total = total)
    (hsorted : reports.Pairwise fun r r' => r.completed ≤ r'.completed)
    (hstop : ∀ pre r post, reports = pre ++ r :: post → r.cancel = true → post = []) :
    Watched cs progressTag cancelTag D full result (writeEvents cs progressTag result events) := by
  have hfractions := fractions_writeEvents cs progressTag cancelTag h result
  have hlive := live_writeEvents cs progressTag cancelTag h result
  have huncancelled : true ∉ answers (writeEvents cs progressTag result events) → result = full := by
    rw [answers_writeEvents]
    exact write_uncancelled cs progressTag cancelTag h hresult
  have hcancelled : ∀ before after, answers (writeEvents cs progressTag result events) = before ++ true :: after →
      result = .error (.err .cancelled) ∧ after = [] := by
    rw [answers_writeEvents]
    exact fun before after => write_cancelled cs progressTag cancelTag h hresult hstop
  cases hp : cs.progress with
  | none =>
    rw [hp, Option.elim_none] at hfractions
    refine ⟨huncancelled, hcancelled, ?_, ?_, ?_, ?_, ?_, hlive⟩
    · rw [hfractions]
      exact .nil
    · rw [hfractions]
      exact nofun
    · rw [hfractions]
      exact nofun
    · intro hsome
      rw [hp] at hsome
      cases hsome
    · intro p hp'
      rw [hp] at hp'
      cases hp'
  | some p =>
    rw [hp, Option.elim_some] at hfractions
    obtain ⟨hmono, hbounds, hchain⟩ := told_fractions (D := D) p total htotal hsorted
    obtain ⟨hnondecreasing, hbounded⟩ := told_outro hmono hbounds result
    refine ⟨huncancelled, hcancelled, ?_, ?_, ?_, ?_, ?_, hlive⟩
    · rw [hfractions]
      exact hnondecreasing
    · rw [hfractions]
      exact hbounded
    · rw [hfractions]
      intro frac hfrac
      exact (Option.some.inj hfrac).symm
    · intro _ out hout
      rw [hfractions, hout]
      exact List.getLast?_concat
    · intro p' hp'
      obtain rfl : p = p' := Option.some.inj (hp.symm.trans hp')
      exact ⟨_, hchain, hfractions⟩

end

/-! ## Closing with callbacks -/

theorem materialize_eq (sched : Nat → Schedule) (z : Zip) :
    z.materialize X sched = (z.writeInput X sched >>= fun i =>
      writeArchiveFull X (i.1.map (·.1)) .default i.2.1 (i.1.map (·.2)) i.2.2) := by
  unfold Zip.materialize Zip.writeInput
  cases z.plan X sched with
  | error e => rfl
  | ok plan =>
    simp only [ok_bind]
    split
    · cases z.password <;> rfl
    · rfl

/-- A write with callbacks, up to the fraction that is told at its end. -/
theorem write_recorded (za : Zip) (files : List ArchiveFile) (pw : Bytes) (methods : List UInt16)
    (archiveComment : Bytes) (captured : σ) (log : List CallbackEvent) : ∃ result captured' last events,
    writeArchiveFullWithProgress X files .default pw methods archiveComment (some (cs.poll D za))
      (cs.tell za 0 captured, 0) = (result, captured', last) ∧
    writeArchiveFullWithProgress X files .default pw methods archiveComment
      (some ((cs.recorded progressTag cancelTag).poll D za))
      ((cs.recorded progressTag cancelTag).tell za 0 (captured, log), 0) =
        (result, (captured', log ++ (tellEvents cs progressTag 0 ++ events)), last) ∧
    Watched cs progressTag cancelTag D (writeArchiveFull X files .default pw methods archiveComment) result
      (writeEvents cs progressTag result events) := by
  obtain ⟨events, hevents, hsays⟩ := play_callbacks (D := D) cs progressTag cancelTag za (totalLength files) 0
    (cs.tell za 0 captured) (log ++ tellEvents cs progressTag 0) 0
    (writeCheckpoints X files .default pw methods archiveComment)
  have hplain := writeArchiveFullWithProgress_some (X := X) files .default pw methods archiveComment
    (cs.poll D za) (cs.tell za 0 captured, 0)
  have hlogged := writeArchiveFullWithProgress_some (X := X) files .default pw methods archiveComment
    ((cs.recorded progressTag cancelTag).poll D za) ((cs.tell za 0 captured, log ++ tellEvents cs progressTag 0), 0)
  simp only [hevents] at hlogged hplain
  rw [← tell_recorded cs progressTag cancelTag, List.append_assoc] at hlogged
  exact ⟨_, _, _, events, hplain, hlogged, watched_write cs progressTag cancelTag hsays rfl (totalLength files)
    (fun r hr => (play_bounds UInt64.zero_le (cs.tell za 0 captured, (0 : ℚ)) _ r hr).1)
    (play_nondecreasing ..) fun pre r post => play_cancelled⟩

/-- `materialize` with callbacks gives what it gives without a log, and the events of the log tell of it. -/
theorem materializeWith_recorded (sched : Nat → Schedule) (z : Zip) (captured : σ) (log : List CallbackEvent) :
    let run := z.materializeWith D X sched cs captured
    ∃ events, z.materializeWith D X sched (cs.recorded progressTag cancelTag) (captured, log) =
        (run.1, run.2, log ++ events) ∧
      Watched cs progressTag cancelTag D (z.materialize X sched) run.1 events := by
  intro run
  rw [materialize_eq]
  cases hinput : z.writeInput X sched with
  | error e =>
    have hrun : run = (.error e, captured) := by
      simp only [run, Zip.materializeWith, hinput]
    refine ⟨[], ?_, watched_nil cs progressTag cancelTag ?_ ?_⟩
    · rw [hrun]
      simp only [Zip.materializeWith, hinput, List.append_nil]
    · rw [hrun]
      rfl
    · intro _ out hout
      rw [hrun] at hout
      cases hout
  | ok input =>
    obtain ⟨plan, pw, archiveComment⟩ := input
    rw [ok_bind]
    by_cases hnone : (cs.progress.isNone && cs.cancel.isNone) = true
    · have hnone' : ((cs.recorded progressTag cancelTag).progress.isNone &&
          (cs.recorded progressTag cancelTag).cancel.isNone) = true := by
        simpa only [Callbacks.recorded, Option.isNone_map] using hnone
      have hrun : run = (writeArchiveFull X (plan.map (·.1)) .default pw (plan.map (·.2)) archiveComment,
          captured) := by
        simp only [run, Zip.materializeWith, hinput, hnone, if_true]
      refine ⟨[], ?_, watched_nil cs progressTag cancelTag ?_ ?_⟩
      · rw [hrun]
        simp only [Zip.materializeWith, hinput, hnone', if_true, List.append_nil]
      · rw [hrun]
      · intro hsome
        rw [Bool.and_eq_true, Option.isNone_iff_eq_none] at hnone
        rw [hnone.1] at hsome
        cases hsome
    · have hsome : ¬((cs.recorded progressTag cancelTag).progress.isNone &&
          (cs.recorded progressTag cancelTag).cancel.isNone) = true := by
        simpa only [Callbacks.recorded, Option.isNone_map] using hnone
      obtain ⟨result, captured', last, events, hplain, hlogged, hwatched⟩ := write_recorded (X := X) (D := D) cs
        progressTag cancelTag z (plan.map (·.1)) pw (plan.map (·.2)) archiveComment captured log
      refine ⟨writeEvents cs progressTag result events, ?_, ?_⟩
      · simp only [run, Zip.materializeWith, hinput, if_neg hnone, if_neg hsome, hplain, hlogged, writeEvents]
        cases result with
        | ok bytes => simp only [tell_recorded, outroEvents, List.append_assoc]
        | error e => simp only [outroEvents, List.append_nil]
      · have hresult : run.1 = result := by
          simp only [run, Zip.materializeWith, hinput, if_neg hnone, hplain]
          cases result <;> rfl
        rw [hresult]
        exact hwatched

/-- The tag of a callback whose user data is to be freed. -/
def hookTag (udFree : Option (σ → σ)) (tag : Nat) : List Nat := if udFree.isSome then [tag] else []

/-- The tags of the callbacks whose user data is to be freed. -/
def hookTags : List Nat :=
  hookTag (cs.progress.bind (·.udFree)) progressTag ++ hookTag (cs.cancel.bind (·.udFree)) cancelTag

/-- The hooks that are run when the handle is dropped. -/
def dropEvents : List CallbackEvent := (hookTags cs progressTag cancelTag).map .freed

theorem freeUd_recorded (udFree : Option (σ → σ)) (tag : Nat) (captured : σ) (log : List CallbackEvent) :
    freeUd (udFree.map (recordedHook tag)) (captured, log) =
      (freeUd udFree captured, log ++ (hookTag udFree tag).map .freed) := by
  cases udFree with
  | none => simp [freeUd, hookTag]
  | some f => rfl

theorem progress_hook : (cs.recorded progressTag cancelTag).progress.bind (·.udFree) =
    (cs.progress.bind (·.udFree)).map (recordedHook progressTag) := by
  rcases cs with ⟨_ | p, c⟩ <;> rfl

theorem cancel_hook : (cs.recorded progressTag cancelTag).cancel.bind (·.udFree) =
    (cs.cancel.bind (·.udFree)).map (recordedHook cancelTag) := by
  rcases cs with ⟨p, _ | c⟩ <;> rfl

theorem drop_recorded (captured : σ) (log : List CallbackEvent) :
    (cs.recorded progressTag cancelTag).drop (captured, log) =
      (cs.drop captured, log ++ dropEvents cs progressTag cancelTag) := by
  rw [Callbacks.drop, progress_hook, cancel_hook, freeUd_recorded, freeUd_recorded, dropEvents, hookTags,
    List.map_append, List.append_assoc]
  rfl

theorem answers_dropEvents : answers (dropEvents cs progressTag cancelTag) = [] := by
  unfold answers dropEvents
  rw [List.filterMap_map]
  exact List.filterMap_eq_nil_iff.mpr fun _ _ => rfl

theorem fractions_dropEvents : fractions (dropEvents cs progressTag cancelTag) = [] := by
  unfold fractions dropEvents
  rw [List.filterMap_map]
  exact List.filterMap_eq_nil_iff.mpr fun _ _ => rfl

/-- What a close that writes comes to, from what `materialize` gives. -/
def closeResult (outcome : WriteOutcome) (files : Files) (h : Handle) : Result Vec → Int × Files × Option Handle
  | .error (.err _) => (-1, files, none)
  | .error .panic => (-1, files, some h)
  | .ok bytes =>
    match h.path with
    | none => (-1, files, none)
    | some path =>
      let (done, files) := writeFile outcome files path bytes
      (if done then 0 else -1, files, none)

/-- The handle is dropped unless the close panics. -/
def dropUnlessPanic (result : Result Vec) (captured : σ) : σ :=
  match result with
  | .error .panic => captured
  | _ => cs.drop captured

/-- The events of the hooks, if the handle is dropped. -/
def closeEvents (result : Result Vec) : List CallbackEvent :=
  match result with
  | .error .panic => []
  | _ => dropEvents cs progressTag cancelTag

section
variable {sched : Nat → Schedule} {outcome : WriteOutcome} {files : Files} {h : Handle}

theorem zipClose_eq (hwrite : h.shouldWrite = true) :
    zipClose X sched outcome files h = closeResult outcome files h (h.zip.materialize X sched) := by
  have hno : ¬(!h.shouldWrite) = true := by rw [hwrite]; exact Bool.false_ne_true
  exact if_neg hno

theorem zipCloseWith_eq (hwrite : h.shouldWrite = true) (captured : σ) :
    zipCloseWith D X sched outcome files h cs captured =
      (closeResult outcome files h (h.zip.materializeWith D X sched cs captured).1,
        dropUnlessPanic cs (h.zip.materializeWith D X sched cs captured).1
          (h.zip.materializeWith D X sched cs captured).2) := by
  have hno : ¬(!h.shouldWrite) = true := by rw [hwrite]; exact Bool.false_ne_true
  rw [zipCloseWith, if_neg hno]
  rcases h.zip.materializeWith D X sched cs captured with ⟨(_ | _) | bytes, captured⟩
  · rfl
  · rfl
  · cases hpath : h.path <;> simp only [closeResult, hpath, dropUnlessPanic]

end

theorem dropUnlessPanic_recorded (result : Result Vec) (captured : σ) (log : List CallbackEvent) :
    dropUnlessPanic (cs.recorded progressTag cancelTag) result (captured, log) =
      (dropUnlessPanic cs result captured, log ++ closeEvents cs progressTag cancelTag result) := by
  rcases result with (_ | _) | bytes
  · exact drop_recorded ..
  · simp [dropUnlessPanic, closeEvents]
  · exact drop_recorded ..

theorem answers_closeEvents (result : Result Vec) : answers (closeEvents cs progressTag cancelTag result) = [] := by
  unfold closeEvents
  split
  · rfl
  · exact answers_dropEvents ..

theorem fractions_closeEvents (result : Result Vec) :
    fractions (closeEvents cs progressTag cancelTag result) = [] := by
  unfold closeEvents
  split
  · rfl
  · exact fractions_dropEvents ..

/-- A close that writes, with a log: the events of the write, then those of the hooks. -/
theorem zipCloseWith_recorded (X : Extern) (D : Doubles) (sched : Nat → Schedule) (outcome : WriteOutcome)
    (files : Files) {h : Handle} (hwrite : h.shouldWrite = true) (captured : σ) (log : List CallbackEvent) :
    let run := h.zip.materializeWith D X sched cs captured
    ∃ events, Watched cs progressTag cancelTag D (h.zip.materialize X sched) run.1 events ∧
      zipCloseWith D X sched outcome files h (cs.recorded progressTag cancelTag) (captured, log) =
        (closeResult outcome files h run.1, dropUnlessPanic cs run.1 run.2,
          log ++ (events ++ closeEvents cs progressTag cancelTag run.1)) := by
  intro run
  obtain ⟨events, hevents, hwatched⟩ := materializeWith_recorded (X := X) (D := D) cs progressTag cancelTag
    sched h.zip captured log
  refine ⟨events, hwatched, ?_⟩
  rw [zipCloseWith_eq _ hwrite, hevents, dropUnlessPanic_recorded, List.append_assoc]

section
variable {sched : Nat → Schedule} {files : Files} {h : Handle}

/-- What the callbacks see of a close that writes is what they see of the write. -/
theorem Watched.monitors {result : Result Vec} {events : List CallbackEvent}
    (hwatched : Watched cs progressTag cancelTag D (h.zip.materialize X sched) result events)
    (hwrite : h.shouldWrite = true) (outcome : WriteOutcome) :
    Monitors X D sched files h cs (closeResult outcome files h (h.zip.materialize X sched))
      (closeResult outcome files h result) (events ++ closeEvents cs progressTag cancelTag result) := by
  have hanswers : answers (events ++ closeEvents cs progressTag cancelTag result) = answers events := by
    rw [answers_append, answers_closeEvents, List.append_nil]
  have hfractions : fractions (events ++ closeEvents cs progressTag cancelTag result) = fractions events := by
    rw [fractions_append, fractions_closeEvents, List.append_nil]
  refine ⟨?_, ?_, ?_, ?_, ?_, ?_, ?_⟩
  · rw [hanswers]
    exact fun hno => congrArg (closeResult outcome files h) (hwatched.uncancelled hno)
  · rw [hanswers]
    intro before after hsplit
    obtain ⟨hresult, hafter⟩ := hwatched.cancelled before after hsplit
    rw [hresult]
    exact ⟨rfl, hafter⟩
  · rw [hfractions]
    exact hwatched.nondecreasing
  · rw [hfractions]
    exact hwatched.bounded
  · rw [hfractions]
    exact hwatched.started
  · rw [hfractions, hanswers]
    exact fun hsome _ hno out hout => hwatched.finished hsome out ((hwatched.uncancelled hno).trans hout)
  · intro p hp
    obtain ⟨written, hchain, htold⟩ := hwatched.throttled p hp
    have hmakes := hwatched.makes_iff
    rw [hfractions, Makes, hanswers]
    refine ⟨written, hchain, fun hmade => ?_, fun hfailed => ?_⟩
    · obtain ⟨out, hout⟩ := hmakes.mp hmade.2
      rw [htold, hout, outroFractions]
    · cases result with
      | ok out => exact absurd ⟨hwrite, hmakes.mpr ⟨out, rfl⟩⟩ hfailed
      | error e => rw [htold, outroFractions, List.append_nil]

/-- Of a close that does not write they see that they are dropped. -/
theorem monitors_unwritten (hwrite : ¬h.shouldWrite = true) (closed : Int × Files × Option Handle) :
    Monitors X D sched files h cs closed closed (dropEvents cs progressTag cancelTag) := by
  have hanswers := answers_dropEvents cs progressTag cancelTag
  have hfractions := fractions_dropEvents cs progressTag cancelTag
  refine ⟨fun _ => rfl, ?_, ?_, ?_, ?_, ?_, ?_⟩
  · rw [hanswers]
    intro before after hsplit
    simp at hsplit
  · rw [hfractions]
    exact .nil
  · rw [hfractions]
    exact nofun
  · rw [hfractions]
    exact nofun
  · exact fun _ hwrite' => absurd hwrite' hwrite
  · rw [hfractions]
    exact fun _ _ => ⟨[], .nil, fun hmade => absurd hmade.1 hwrite, fun _ => rfl⟩

end

/-- Whatever the callbacks do: a close gives what the one without them gives, unless they ask to cancel, and
they see of it what they should. -/
theorem zipClose_monitored (X : Extern) (D : Doubles) (sched : Nat → Schedule) (outcome : WriteOutcome)
    (files : Files) (h : Handle) (captured : σ) :
    let quiet := zipClose X sched outcome files h
    let run := zipCloseWith D X sched outcome files h cs captured
    let logged := zipCloseWith D X sched outcome files h (cs.recorded progressTag cancelTag) (captured, [])
    (logged.1 = run.1 ∧ logged.2.1 = run.2) ∧ Monitors X D sched files h cs quiet run.1 logged.2.2 := by
  intro quiet run logged
  by_cases hwrite : h.shouldWrite = true
  · obtain ⟨events, hwatched, hlogged⟩ := zipCloseWith_recorded cs progressTag cancelTag X D sched
      outcome files hwrite captured []
    have hquiet : quiet = _ := zipClose_eq hwrite
    have hrun : run = _ := zipCloseWith_eq cs hwrite captured
    have hlogged : logged = _ := hlogged
    rw [List.nil_append] at hlogged
    rw [hquiet, hrun, hlogged]
    exact ⟨⟨rfl, rfl⟩, hwatched.monitors cs progressTag cancelTag hwrite outcome⟩
  · have hyes : (!h.shouldWrite) = true := by rw [Bool.eq_false_iff.mpr hwrite]; rfl
    have hquiet : quiet = (0, files, none) := if_pos hyes
    have hrun : run = ((0, files, none), cs.drop captured) := if_pos hyes
    have hlogged : logged = ((0, files, none), (cs.recorded progressTag cancelTag).drop (captured, [])) :=
      if_pos hyes
    rw [drop_recorded, List.nil_append] at hlogged
    rw [hquiet, hrun, hlogged]
    exact ⟨⟨rfl, rfl⟩, monitors_unwritten cs progressTag cancelTag hwrite _⟩

end

/-! ## The life of user data -/

/-- The callbacks after some registrations, with their tags: each was registered with its hook or without. -/
structure Registry (past : List Bool) (cs : Callbacks σ) (progressTag cancelTag : Nat)
    (log : List CallbackEvent) : Prop where
  progress : cs.progress.isSome → past[progressTag]? = some (cs.progress.bind (·.udFree)).isSome
  cancel : cs.cancel.isSome → past[cancelTag]? = some (cs.cancel.bind (·.udFree)).isSome
  custody : Custody .freed CallbackEvent.tag past (hookTags cs progressTag cancelTag) log

variable {past : List Bool} {cs : Callbacks σ} {progressTag cancelTag : Nat} {log : List CallbackEvent}

theorem getElem?_concat {past : List Bool} {i : Nat} {b : Bool} (h : past[i]? = some b) (b' : Bool) :
    (past ++ [b'])[i]? = some b := by
  rw [List.getElem?_append_left (List.getElem?_eq_some_iff.mp h).1]
  exact h

theorem registry_register (h : Registry past cs progressTag cancelTag log) (call : RegCall σ) (captured : σ) :
    ∃ cs' progressTag' cancelTag' captured' log',
      call.run past.length (cs.recorded progressTag cancelTag) (captured, log) =
        (cs'.recorded progressTag' cancelTag', captured', log') ∧
      Registry (past ++ [call.hooked]) cs' progressTag' cancelTag' log' := by
  cases call with
  | progress reg =>
    refine ⟨{ cs with progress := reg }, past.length, cancelTag, freeUd (cs.progress.bind (·.udFree)) captured,
      log ++ (hookTag (cs.progress.bind (·.udFree)) progressTag).map .freed, ?_, ?_, ?_, ?_⟩
    · rw [RegCall.run, Callbacks.registerProgress, progress_hook, freeUd_recorded]
      rfl
    · intro _
      rw [List.getElem?_append_right (Nat.le_refl _), Nat.sub_self]
      rfl
    · exact fun hsome => getElem?_concat (h.cancel hsome) _
    · have hcustody := (h.custody.release fun _ => rfl).acquire (RegCall.progress reg).hooked
      exact hcustody
  | cancel reg =>
    refine ⟨{ cs with cancel := reg }, progressTag, past.length, freeUd (cs.cancel.bind (·.udFree)) captured,
      log ++ (hookTag (cs.cancel.bind (·.udFree)) cancelTag).map .freed, ?_, ?_, ?_, ?_⟩
    · rw [RegCall.run, Callbacks.registerCancel, cancel_hook, freeUd_recorded]
      rfl
    · exact fun hsome => getElem?_concat (h.progress hsome) _
    · intro _
      rw [List.getElem?_append_right (Nat.le_refl _), Nat.sub_self]
      rfl
    · have hcustody := ((h.custody.perm List.perm_append_comm).release fun _ => rfl).acquire
        (RegCall.cancel reg).hooked
      exact hcustody.perm List.perm_append_comm

/-- The callbacks after all registrations. -/
theorem registry_registerFrom (h : Registry past cs progressTag cancelTag log) (calls : List (RegCall σ))
    (captured : σ) : ∃ cs' progressTag' cancelTag' captured' log',
      registerFrom past.length calls (cs.recorded progressTag cancelTag) (captured, log) =
        (cs'.recorded progressTag' cancelTag', captured', log') ∧
      Registry (past ++ calls.map RegCall.hooked) cs' progressTag' cancelTag' log' := by
  induction calls generalizing past cs progressTag cancelTag log captured with
  | nil => exact ⟨cs, progressTag, cancelTag, captured, log, rfl, by rwa [List.map_nil, List.append_nil]⟩
  | cons call calls ih =>
    obtain ⟨cs', progressTag', cancelTag', captured', log', hrun, h'⟩ := registry_register h call captured
    have hnext := ih h' captured'
    rw [List.length_append, List.length_singleton, List.append_assoc] at hnext
    rw [registerFrom, hrun]
    exact hnext

theorem registry_registerAll (calls : List (RegCall σ)) (captured : σ) :
    ∃ cs progressTag cancelTag captured' log,
      registerAll calls captured = (Callbacks.recorded progressTag cancelTag cs, captured', log) ∧
      Registry (calls.map RegCall.hooked) cs progressTag cancelTag log := by
  have hnone : Registry [] (.none : Callbacks σ) 0 0 [] := ⟨nofun, nofun, .start⟩
  exact registry_registerFrom hnone calls captured

theorem released_of_custody {calls : List (RegCall σ)}
    (h : Custody .freed CallbackEvent.tag (calls.map RegCall.hooked) [] log) : Released calls log where
  exactly := fun tag => by
    rw [h.exactly, List.getElem?_map, Option.map_eq_some_iff]
    exact and_iff_left List.not_mem_nil
  final := h.final

/-- Dropping the handle. -/
theorem Registry.drop (h : Registry past cs progressTag cancelTag log) :
    Custody .freed CallbackEvent.tag past [] (log ++ dropEvents cs progressTag cancelTag) := by
  have hcustody : Custody .freed CallbackEvent.tag past (hookTags cs progressTag cancelTag ++ []) log := by
    rw [List.append_nil]
    exact h.custody
  exact hcustody.release fun _ => rfl

/-- Calls of the callbacks that are registered. -/
theorem Registry.events (h : Registry past cs progressTag cancelTag log) {more : List CallbackEvent}
    (hlive : ∀ e ∈ more, cs.Live progressTag cancelTag e) :
    Registry past cs progressTag cancelTag (log ++ more) where
  progress := h.progress
  cancel := h.cancel
  custody := by
    refine h.custody.events (fun e he tag heq => ?_) fun e he hpast => ?_
    · have := hlive e he
      rw [heq] at this
      exact this
    · have hlive := hlive e he
      cases e with
      | told tag frac =>
        obtain ⟨hsome, rfl⟩ := hlive
        have hhook := Option.some.inj ((h.progress hsome).symm.trans hpast)
        refine List.mem_append_left _ ?_
        rw [hookTag, hhook]
        exact List.mem_cons_self
      | polled tag cancel =>
        obtain ⟨hsome, rfl⟩ := hlive
        have hhook := Option.some.inj ((h.cancel hsome).symm.trans hpast)
        refine List.mem_append_right _ ?_
        rw [hookTag, hhook]
        exact List.mem_cons_self
      | freed tag => exact absurd hlive id

/-- Whatever callbacks are registered with a handle, and whatever they do: when the handle is discarded or
closed, the user data of each was freed once, and after the last call of its callback. -/
theorem userData_released (calls : List (RegCall σ)) (captured : σ) :
    let registered := registerAll calls captured
    Released calls (registered.1.drop registered.2).2 ∧
      ∀ X D sched outcome files h,
        (zipCloseWith D X sched outcome files h registered.1 registered.2).1.2.2 = none →
          Released calls (zipCloseWith D X sched outcome files h registered.1 registered.2).2.2 := by
  intro registered
  obtain ⟨cs, progressTag, cancelTag, captured', log, hregistered, hregistry⟩ :=
    registry_registerAll calls captured
  have hregistered : registered = _ := hregistered
  rw [hregistered]
  have hdrop : Released calls (log ++ dropEvents cs progressTag cancelTag) :=
    released_of_custody hregistry.drop
  refine ⟨?_, fun X D sched outcome files h hleft => ?_⟩
  · rw [drop_recorded]
    exact hdrop
  · by_cases hwrite : h.shouldWrite = true
    · obtain ⟨events, hwatched, hclose⟩ :=
        zipCloseWith_recorded cs progressTag cancelTag X D sched outcome files hwrite captured' log
      rw [hclose] at hleft ⊢
      have hevents : closeEvents cs progressTag cancelTag (h.zip.materializeWith D X sched cs captured').1 =
          dropEvents cs progressTag cancelTag := by
        revert hleft
        rcases (h.zip.materializeWith D X sched cs captured').1 with (_ | _) | bytes
        · exact fun _ => rfl
        · exact fun hleft => nomatch hleft
        · exact fun _ => rfl
      rw [hevents, ← List.append_assoc]
      exact released_of_custody (hregistry.events hwatched.live).drop
    · have hyes : (!h.shouldWrite) = true := by rw [Bool.eq_false_iff.mpr hwrite]; rfl
      have hclose : zipCloseWith D X sched outcome files h (cs.recorded progressTag cancelTag) (captured', log) =
          ((0, files, none), (cs.recorded progressTag cancelTag).drop (captured', log)) := if_pos hyes
      rw [hclose, drop_recorded]
      exact hdrop

/-- Doubles that need no rounding. -/
def exactDoubles : Doubles where
  representable := fun _ => True
  round := id
  representable_round := fun _ => trivial
  nearest := fun q v _ => by
    rw [id, sub_self, abs_zero]
    exact abs_nonneg _
  zero := trivial
  one := trivial

/-- A progress callback that is replaced, and a cancel callback, each with a hook. -/
def sampleRegistrations : List (RegCall Nat) :=
  [.progress (some { precision := .finite 0, cb := fun _ _ n => n + 1, udFree := some fun n => n + 10 }),
    .cancel (some { cb := fun _ n => (false, n + 100), udFree := some fun n => n + 1000 }),
    .progress (some { precision := .finite 0, cb := fun _ _ n => n + 2, udFree := some fun n => n + 20 })]

/-- A new archive with one entry is closed with the callbacks. -/
theorem userData_released_sample : ∃ h,
    ((sessionCalls.take 2).foldl (Process.step reference) freshProcess).handle 0 = some h ∧
    Released sampleRegistrations (zipCloseWith exactDoubles reference (fun _ => bytewise) .written (fun _ => none)
      h (registerAll sampleRegistrations 0).1 (registerAll sampleRegistrations 0).2).2.2 := by
  have hcheck : (((sessionCalls.take 2).foldl (Process.step reference) freshProcess).handle 0).any (fun h =>
      h.shouldWrite && (zipCloseWith exactDoubles reference (fun _ => bytewise) .written (fun _ => none) h
        (registerAll sampleRegistrations 0).1 (registerAll sampleRegistrations 0).2).1.2.2.isNone) = true := by
    decide +kernel
  obtain ⟨h, hh, hclosed⟩ := (Option.any_eq_true _ _).mp hcheck
  rw [Bool.and_eq_true, Option.isNone_iff_eq_none] at hclosed
  exact ⟨h, hh, (userData_released sampleRegistrations 0).2 reference exactDoubles (fun _ => bytewise) .written
    (fun _ => none) h hclosed.2⟩

end Kzip.Impl
