import Kzip.Impl.Reference
import Kzip.Proof.File

/-!
# Reads of any lengths

A read into an empty buffer does nothing exactly when the reader has come to its end, and the checks were
made or will pass (`harmless_iff`). If every such read comes there, the reads give the stream of the
reader (`readsStream_iff`), whose end is reported by the first read with room that finds nothing left
(`Reading.last`).
-/

namespace Kzip.Impl

open Lib Kzip.Spec

variable {X : Extern}

/-- A reader on which a read into an empty buffer does nothing: its end was reported, or it has handed
out everything and its checks pass. -/
structure EntryReader.Settled (X : Extern) (r : EntryReader) : Prop where
  no_err : r.integrityErr = none
  at_end : r.finished = true ∨ r.inner.remaining = [] ∧ r.sizeRead = r.expectedSize.toNat ∧
    (r.checkCrc = true → X.crc32 r.crc = r.expectedCrc)

/-! ## Reads into an empty buffer -/

theorem seeked_verify (r : EntryReader) : (r.verify X).2.seeked = r.seeked := by
  simp only [EntryReader.verify]
  split
  · rfl
  split
  · rfl
  split <;> rfl

theorem seeked_afterRead (r : EntryReader) (call : ReadCall) : (afterRead X r call).seeked = r.seeked := by
  simp only [afterRead, EntryReader.read]
  split
  · rfl
  split
  · rfl
  rename_i bs inner _
  have hv := seeked_verify (X := X) { r with inner }
  split
  · split <;> rfl
  split
  · rfl
  split <;> rename_i hverify <;> rw [hverify] at hv
  · exact hv
  · split <;> exact hv

/-- Making the checks early, at the end of the stream and when they pass, is not seen by later reads. -/
theorem readResults_verified {r : EntryReader} (herr : r.integrityErr = none)
    (hrem : r.inner.remaining = []) (hsize : r.sizeRead = r.expectedSize.toNat)
    (hcrc : r.checkCrc = true → X.crc32 r.crc = r.expectedCrc) (later : List ReadCall) :
    readResults X { r with finished := true } later = readResults X r later := by
  -- once a read finds the end, the two readers are the same
  refine outputs_eq_of_related (R := fun a b => a = b ∨ a = { r with finished := true } ∧ b = r)
    (fun a b call hab => ?_) (.inr ⟨rfl, rfl⟩) later
  rcases hab with rfl | ⟨rfl, rfl⟩
  · exact ⟨rfl, .inl rfl⟩
  show ((EntryReader.read X call { b with finished := true }).1 = (b.read X call).1) ∧
    (_ = (b.read X call).2 ∨ _ ∧ (b.read X call).2 = b)
  cases hp : b.inner.pull call with
  | error e =>
    simp only [afterRead, EntryReader.read, herr, hp]
    exact ⟨trivial, .inr ⟨trivial, trivial⟩⟩
  | ok taken =>
    obtain ⟨bs, i⟩ := taken
    obtain ⟨hsplit, hself⟩ := Inner.pull_ok hp
    obtain ⟨rfl, -⟩ := List.append_eq_nil_iff.mp (hsplit.symm.trans hrem)
    obtain rfl := hself rfl
    rw [read_verified herr hp hsize hcrc]
    simp only [afterRead]
    rw [read_finished (X := X) (r := { b with finished := true }) herr hp rfl]
    exact ⟨rfl, .inl rfl⟩

/-- When the checks pass before the end of the stream, the reads that follow tell whether they were made:
a byte is read, and then nothing. -/
theorem longer_seen {r : EntryReader} (herr : r.integrityErr = none) (hseek : r.seeked = false)
    (hfin : r.finished = false) (hsize : r.sizeRead = r.expectedSize.toNat)
    (hrem : r.inner.remaining ≠ []) :
    readResults X { r with finished := true } [⟨1, 0⟩, ⟨0, 0⟩, ⟨0, 0⟩] ≠
      readResults X r [⟨1, 0⟩, ⟨0, 0⟩, ⟨0, 0⟩] := by
  obtain ⟨bs, i, hp, hbs⟩ : ∃ bs i, r.inner.pull ⟨1, 0⟩ = .ok (bs, i) ∧ bs ≠ [] := by
    rcases r.inner.pull_spec (show 0 < (⟨1, 0⟩ : ReadCall).len from Nat.one_pos) with ⟨hnil, -⟩ | ⟨bs, i, hp, hbs, -⟩
    · exact absurd hnil hrem
    · exact ⟨bs, i, hp, hbs⟩
  have hlonger : ¬ ((r.advance i bs).sizeRead = (r.advance i bs).expectedSize.toNat ∧
      ((r.advance i bs).checkCrc = true →
        X.crc32 (r.advance i bs).crc = (r.advance i bs).expectedCrc)) := by
    rintro ⟨hnow, -⟩
    have hnow : r.sizeRead + bs.length = r.expectedSize.toNat := hnow
    have := List.length_pos_iff.mpr hbs
    omega
  have hempty : (r.advance i bs).inner.pull ⟨0, 0⟩ = .ok ([], (r.advance i bs).inner) :=
    Inner.pull_empty _ rfl
  -- after it, the reader that has made its checks is at its end, and the other one refuses
  have hverified := read_finished (X := X) (r := { r.advance i bs with finished := true }) herr hempty rfl
  obtain ⟨e, hrefused⟩ := read_refused (X := X) (r := r.advance i bs) herr hseek hempty hfin hlonger
  intro h
  simp only [readResults, outputs, afterRead, List.cons.injEq, and_true] at h
  obtain ⟨-, hsecond, hthird⟩ := h
  rcases read_taken (X := X) herr hp hbs with ⟨hle, hr⟩ | ⟨hlt, e', bomb, hr⟩ <;>
    rcases read_taken (X := X) (r := { r with finished := true }) herr hp hbs with
      ⟨hle', hr'⟩ | ⟨hlt', e'', bomb', hr'⟩
  · rw [hr, hr'] at hsecond
    exact absurd ((congrArg Prod.fst hverified).symm.trans (hsecond.trans hrefused)) (by simp)
  · exact absurd hlt' (Nat.not_lt.mpr hle)
  · exact absurd hlt (Nat.not_lt.mpr hle')
  · -- the read of the byte failed: its error comes again, and then nothing is read
    have hleft := read_cleared (X := X) (r := { r.advance i bs with finished := true }) herr bomb' ⟨0, 0⟩
    have hright := read_cleared (X := X) (r := r.advance i bs) herr bomb ⟨0, 0⟩
    rw [hr, hr'] at hthird
    have hthird : (EntryReader.read X ⟨0, 0⟩ { r.advance i bs with finished := true }).1 =
        ((r.advance i bs).read X ⟨0, 0⟩).1 :=
      (congrArg (fun s => (EntryReader.read X ⟨0, 0⟩ s).1) hleft).symm.trans
        (hthird.trans (congrArg (fun s => (EntryReader.read X ⟨0, 0⟩ s).1) hright))
    exact absurd ((congrArg Prod.fst hverified).symm.trans (hthird.trans hrefused)) (by simp)

/-- A read into an empty buffer does nothing exactly on a settled reader. If the checks are made before
the end of the stream, then even when they pass a longer stream is taken for a good one. -/
theorem harmless_iff {r : EntryReader} (hseek : r.seeked = false) {call : ReadCall}
    (hlen : call.len = 0) : Harmless X r call ↔ r.Settled X := by
  have hp := r.inner.pull_empty hlen
  constructor
  · intro h
    have herr : r.integrityErr = none := by
      cases he : r.integrityErr with
      | none => rfl
      | some e =>
        have hnothing := h.nothing
        simp only [EntryReader.read, he] at hnothing
        cases hnothing
    refine ⟨herr, ?_⟩
    by_cases hfin : r.finished = true
    · exact .inl hfin
    rw [Bool.not_eq_true] at hfin
    have hchecks : r.sizeRead = r.expectedSize.toNat ∧
        (r.checkCrc = true → X.crc32 r.crc = r.expectedCrc) := by
      by_contra hbad
      obtain ⟨e, he⟩ := read_refused herr hseek hp hfin hbad
      cases he.symm.trans h.nothing
    refine .inr ⟨?_, hchecks⟩
    by_contra hrem
    have hunseen := h.unseen [⟨1, 0⟩, ⟨0, 0⟩, ⟨0, 0⟩]
    rw [show afterRead X r call = { r with finished := true } by
      rw [afterRead, read_verified herr hp hchecks.1 hchecks.2]] at hunseen
    exact longer_seen herr hseek hfin hchecks.1 hrem hunseen
  · rintro ⟨herr, hfin | ⟨hrem, hsize, hcrc⟩⟩
    · have hr := read_finished (X := X) herr hp hfin
      exact ⟨by rw [hr], fun later => by rw [afterRead, hr]⟩
    · have hr := read_verified herr hp hsize hcrc
      exact ⟨by rw [hr], fun later => by rw [afterRead, hr, readResults_verified herr hrem hsize hcrc]⟩

/-! ## Reads after the end -/

/-- A reader that gives no more bytes: nothing is left, or the size limit was passed. -/
def EntryReader.Stopped (r : EntryReader) : Prop :=
  r.inner.remaining = [] ∨ r.sizeLimit < r.sizeRead

/-- The parts of a reader that tell whether it has stopped, or what it is checked against. -/
structure EntryReader.SamePlace (r r' : EntryReader) : Prop where
  inner : r'.inner = r.inner
  sizeRead : r'.sizeRead = r.sizeRead
  expectedSize : r'.expectedSize = r.expectedSize

theorem EntryReader.Stopped.of_samePlace {r r' : EntryReader} (h : r.Stopped) (hs : r.SamePlace r') :
    r'.Stopped := by
  rw [Stopped, sizeLimit, hs.inner, hs.sizeRead, hs.expectedSize]
  exact h

theorem samePlace_verify (r : EntryReader) : r.SamePlace (r.verify X).2 := by
  simp only [EntryReader.verify]
  split
  · exact ⟨rfl, rfl, rfl⟩
  split
  · exact ⟨rfl, rfl, rfl⟩
  split <;> exact ⟨rfl, rfl, rfl⟩

/-- A read that takes no bytes leaves the reader where it is. -/
theorem samePlace_read {r : EntryReader} {call : ReadCall}
    (h : ∀ bs i, r.inner.pull call = .ok (bs, i) → bs = []) :
    bytesRead (r.read X call).1 = [] ∧ r.SamePlace (r.read X call).2 := by
  simp only [EntryReader.read]
  split
  · exact ⟨rfl, rfl, rfl, rfl⟩
  split
  · exact ⟨rfl, rfl, rfl, rfl⟩
  rename_i bs i hp
  obtain rfl := h bs i hp
  obtain rfl := (Inner.pull_ok hp).2 rfl
  have hv := samePlace_verify (X := X) { r with inner := r.inner }
  simp only [List.length_nil, gt_iff_lt, Nat.lt_irrefl, ↓reduceIte]
  split
  · exact ⟨rfl, rfl, rfl, rfl⟩
  split <;> rename_i hverify <;> rw [hverify] at hv
  · exact ⟨rfl, hv⟩
  · split
    · exact ⟨rfl, hv.inner, hv.sizeRead, hv.expectedSize⟩
    · exact ⟨rfl, hv⟩

theorem EntryReader.Stopped.read {r : EntryReader} (h : r.Stopped) (call : ReadCall) :
    bytesRead (r.read X call).1 = [] ∧ (afterRead X r call).Stopped := by
  by_cases hnone : ∀ bs i, r.inner.pull call = .ok (bs, i) → bs = []
  · obtain ⟨hbytes, hplace⟩ := samePlace_read (X := X) hnone
    exact ⟨hbytes, h.of_samePlace hplace⟩
  simp only [not_forall] at hnone
  obtain ⟨bs, i, hp, hbs⟩ := hnone
  rcases h with hrem | hlimit
  · exact absurd (List.append_eq_nil_iff.mp ((Inner.pull_ok hp).1.symm.trans hrem)).1 hbs
  have hmore : r.sizeLimit < (r.advance i bs).sizeRead :=
    Nat.lt_of_lt_of_le hlimit (Nat.le_add_right _ _)
  cases herr : r.integrityErr with
  | some e =>
    rw [afterRead, read_waiting herr]
    exact ⟨rfl, .inr hlimit⟩
  | none =>
    rcases read_taken (X := X) herr hp hbs with ⟨hle, -⟩ | ⟨-, e, bomb, hr⟩
    · omega
    · rw [afterRead, hr]
      exact ⟨rfl, .inr hmore⟩

theorem deliveredBytes_cons (r : EntryReader) (call : ReadCall) (calls : List ReadCall) :
    deliveredBytes X r (call :: calls) =
      bytesRead (r.read X call).1 ++ deliveredBytes X (afterRead X r call) calls := by
  simp only [deliveredBytes, readResults, outputs, List.flatMap_cons]

theorem EntryReader.Stopped.delivered {r : EntryReader} (h : r.Stopped) (calls : List ReadCall) :
    deliveredBytes X r calls = [] := by
  induction calls generalizing r with
  | nil => rfl
  | cons call calls ih =>
    obtain ⟨hbytes, hnext⟩ := h.read (X := X) call
    rw [deliveredBytes_cons, hbytes, ih hnext, List.append_nil]

/-! ## The whole stream -/

/-- A reader that has made its checks, with success, after handing out `out`. -/
structure EntryReader.Verified (X : Extern) (r : EntryReader) (out : Bytes) : Prop where
  finished : r.finished = true
  integrityErr : r.integrityErr = none
  remaining : r.inner.remaining = []
  size : out.length = r.expectedSize.toNat
  crc : r.checkCrc = true → X.crc32 out = r.expectedCrc

/-- A read with room that finds nothing left reports whether the stream passes. -/
theorem read_end {r : EntryReader} {out : Bytes} (h : r.Reading out ∨ r.Verified X out)
    {call : ReadCall} (hp : r.inner.pull call = match r.inner.tailErr with
      | some e => .error e
      | none => .ok ([], r.inner)) :
    (r.Passes X out → (r.read X call).1 = .ok []) ∧
      (¬ r.Passes X out → ∃ e, (r.read X call).1 = .error e) := by
  rcases h with h | h
  · exact h.last hp
  · cases ht : r.inner.tailErr with
    | some e =>
      rw [ht] at hp
      refine ⟨fun hpass => ?_, fun _ => ⟨e, ?_⟩⟩
      · rw [hpass.no_err] at ht
        cases ht
      · simp only [EntryReader.read, h.integrityErr, hp]
    | none =>
      rw [ht] at hp
      exact ⟨fun _ => by rw [read_finished h.integrityErr hp h.finished],
        fun hfail => absurd ⟨ht, h.size, h.crc⟩ hfail⟩

/-- What a run of reads gives from a reader that has handed out `out` on. -/
structure ReadsOn (X : Extern) (r : EntryReader) (out : Bytes) (calls : List ReadCall) : Prop where
  in_order : deliveredBytes X r calls <+: r.inner.remaining
  passes : ∀ o, endReport X r calls = some o → r.Passes X (out ++ r.inner.remaining) →
    o = .ok [] ∧ deliveredBytes X r calls = r.inner.remaining
  fails : ∀ o, endReport X r calls = some o → ¬ r.Passes X (out ++ r.inner.remaining) →
    ∃ e, o = .error e

/-- A read into an empty buffer of a settled reader makes the checks, if they were not made. -/
theorem read_settled {r : EntryReader} {out : Bytes} (h : r.Reading out ∨ r.Verified X out)
    (hsettled : r.Settled X) {call : ReadCall} (hlen : call.len = 0) :
    r.read X call = (.ok [], { r with finished := true }) ∧
      EntryReader.Verified X { r with finished := true } out := by
  have hp := r.inner.pull_empty hlen
  rcases h with h | h
  · rcases hsettled.at_end with hfin | ⟨hrem, hsize, hcrc⟩
    · exact absurd (h.finished.symm.trans hfin) Bool.false_ne_true
    · refine ⟨read_verified h.integrityErr hp hsize hcrc, rfl, h.integrityErr, hrem, ?_, ?_⟩
      · exact h.sizeRead.symm.trans hsize
      · exact h.crc ▸ hcrc
  · refine ⟨?_, rfl, h.integrityErr, h.remaining, h.size, h.crc⟩
    rw [read_finished h.integrityErr hp h.finished, ← h.finished]

/-- A read that is not the end of the stream. -/
theorem ReadsOn.cons {r r' : EntryReader} {out bs : Bytes} {call : ReadCall} {calls : List ReadCall}
    (hr : r.read X call = (.ok bs, r')) (hgoes : call.len = 0 ∨ bs ≠ [])
    (hrem : r.inner.remaining = bs ++ r'.inner.remaining)
    (hpass : ∀ content, r'.Passes X content ↔ r.Passes X content) (h : ReadsOn X r' (out ++ bs) calls) :
    ReadsOn X r out (call :: calls) := by
  have hafter : afterRead X r call = r' := by rw [afterRead, hr]
  have hcons := deliveredBytes_cons (X := X) r call calls
  rw [hafter, hr, bytesRead] at hcons
  have hskip : endReport X r (call :: calls) = endReport X r' calls := by
    rw [endReport, hr, hafter, if_neg fun hroom => hgoes.elim hroom.1 fun hbs => hbs hroom.2]
  have hall : out ++ bs ++ r'.inner.remaining = out ++ r.inner.remaining := by
    rw [hrem, List.append_assoc]
  refine ⟨?_, fun o ho hp => ?_, fun o ho hf => ?_⟩
  · rw [hcons, hrem]
    exact (List.prefix_append_right_inj bs).mpr h.in_order
  · obtain ⟨hnothing, hrest⟩ := h.passes o (hskip ▸ ho) ((hpass _).mpr (hall ▸ hp))
    exact ⟨hnothing, by rw [hcons, hrest, hrem]⟩
  · exact h.fails o (hskip ▸ ho) fun hp => hf (hall ▸ (hpass _).mp hp)

/-- A read with room that gets nothing, and after which the reader has stopped. -/
theorem ReadsOn.last {r : EntryReader} {out : Bytes} {call : ReadCall} (hroom : call.len ≠ 0)
    (hbytes : bytesRead (r.read X call).1 = []) (hstopped : (afterRead X r call).Stopped)
    (hpass : r.Passes X (out ++ r.inner.remaining) →
      (r.read X call).1 = .ok [] ∧ r.inner.remaining = [])
    (hfail : ¬ r.Passes X (out ++ r.inner.remaining) → ∃ e, (r.read X call).1 = .error e)
    (calls : List ReadCall) : ReadsOn X r out (call :: calls) := by
  have hcons := deliveredBytes_cons (X := X) r call calls
  rw [hbytes, hstopped.delivered, List.append_nil] at hcons
  have hreport : endReport X r (call :: calls) = some (r.read X call).1 := by
    rw [endReport, if_pos ⟨hroom, hbytes⟩]
  refine ⟨hcons ▸ List.nil_prefix, fun o ho hp => ?_, fun o ho hf => ?_⟩ <;>
    cases hreport.symm.trans ho
  · exact ⟨(hpass hp).1, hcons.trans (hpass hp).2.symm⟩
  · exact hfail hf

/-- By induction on the reads: until the end is reported, the reader has handed out `out` and has the
rest of the stream left; after that it has stopped. -/
theorem readsOn_of_settled {r : EntryReader} {out : Bytes} (h : r.Reading out ∨ r.Verified X out)
    {calls : List ReadCall}
    (hrun : Along (afterRead X) (fun r call => call.len = 0 → r.Settled X) r calls) :
    ReadsOn X r out calls := by
  induction calls generalizing r out with
  | nil => exact ⟨List.nil_prefix, by simp [endReport], by simp [endReport]⟩
  | cons call calls ih =>
    obtain ⟨hcall, hrest⟩ := hrun
    by_cases hlen : call.len = 0
    · obtain ⟨hr, hverified⟩ := read_settled h (hcall hlen) hlen
      rw [show afterRead X r call = { r with finished := true } by rw [afterRead, hr]] at hrest
      refine .cons hr (.inl hlen) rfl (fun content => ?_) (ih (.inr ?_) hrest)
      · exact ⟨fun hp => ⟨hp.no_err, hp.size, hp.crc⟩, fun hp => ⟨hp.no_err, hp.size, hp.crc⟩⟩
      · rw [List.append_nil]
        exact hverified
    rcases r.inner.pull_spec (Nat.pos_of_ne_zero hlen) with ⟨hrem, hp⟩ | ⟨bs, i, hp, hbs, hrem, htail⟩
    · -- the end of the stream
      obtain ⟨hok, herr⟩ := read_end h hp
      obtain ⟨hbytes, hstopped⟩ := EntryReader.Stopped.read (X := X) (.inl hrem) call
      rw [show out = out ++ r.inner.remaining by rw [hrem, List.append_nil]] at hok herr
      exact .last hlen hbytes hstopped (fun hpass => ⟨hok hpass, hrem⟩) herr calls
    · have hreading : r.Reading out := by
        rcases h with h | h
        · exact h
        · exact absurd (List.append_eq_nil_iff.mp (hrem.symm.trans h.remaining)).1 hbs
      rcases hreading.next (X := X) hp hbs with ⟨hr, hnext⟩ | ⟨hlt, e, hr⟩
      · rw [show afterRead X r call = r.advance i bs by rw [afterRead, hr]] at hrest
        exact .cons hr (.inr hbs) hrem (fun content => passes_advance htail) (ih (.inl hnext) hrest)
      · -- the size limit is passed, so that the stream is longer than expected
        have hstopped : (afterRead X r call).Stopped := by
          rcases read_taken (X := X) hreading.integrityErr hp hbs with ⟨-, hr'⟩ | ⟨hmore, e', bomb, hr'⟩
          · rw [hr'] at hr
            cases hr
          · rw [afterRead, hr']
            exact .inr hmore
        refine .last hlen (by rw [hr, bytesRead]) hstopped (fun hpass => ?_) (fun _ => ⟨e, hr⟩) calls
        have := hpass.size
        have := expectedSize_le_sizeLimit r
        rw [hrem, List.length_append, List.length_append] at *
        omega

/-- The reads of a fresh reader give its stream exactly when every read into an empty buffer comes when
the end was reported or would be. -/
theorem readsStream_iff (i : Inner) (crc : UInt32) (size : UInt64) (check : Bool)
    (calls : List ReadCall) :
    ReadsStream X (.fresh i crc size check) calls ↔
      Along (afterRead X) (fun r call => call.len = 0 → r.Settled X) (.fresh i crc size check) calls := by
  have hsame (r : EntryReader) (call : ReadCall) (h : r.seeked = false) :
      (call.len = 0 → Harmless X r call) ↔ (call.len = 0 → r.Settled X) :=
    forall_congr' fun hlen => harmless_iff h hlen
  have hcongr := @along_congr _ _ (afterRead X) _ _ _
    (fun r call (h : r.seeked = false) => (seeked_afterRead r call).trans h) hsame
    (.fresh i crc size check) rfl calls
  have hreading : (EntryReader.fresh i crc size check).Reading [] :=
    ⟨rfl, rfl, rfl, rfl, rfl, Nat.zero_le _⟩
  constructor
  · exact fun h => hcongr.mp h.empty_reads
  · intro hrun
    obtain ⟨horder, hpass, hfail⟩ := readsOn_of_settled (.inl hreading) hrun
    exact ⟨hcongr.mpr hrun, horder, hpass, hfail⟩

/-- A read into an empty buffer, before anything else, of an entry of one byte. -/
theorem early_empty_read_fails : ¬ ReadsStream reference
    (.fromBuffer [0x61] (reference.crc32 [0x61]) 1 false) [⟨0, 0⟩, ⟨1, 0⟩] := by
  intro h
  have hnothing := (h.empty_reads.1 rfl).nothing
  revert hnothing
  decide +kernel

end Kzip.Impl
