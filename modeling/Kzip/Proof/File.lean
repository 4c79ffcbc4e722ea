import Kzip.Spec.Reads

/-!
# Reading an entry to its end

One read hands out a prefix of what is left (`Inner.pull_spec`), so that whatever the schedule of
reads, reading to the end gives everything that was left, or fails: `readToEnd_fresh` says which.
-/

namespace Kzip.Impl

open Lib

variable {X : Extern}

/-- One read takes a prefix of what is left, which is empty only when nothing is left. -/
theorem Inner.pull_spec (i : Inner) {call : ReadCall} (hlen : 0 < call.len) :
    (i.remaining = [] ∧ i.pull call = match i.tailErr with
      | some e => .error e
      | none => .ok ([], i)) ∨
    ∃ bs i', i.pull call = .ok (bs, i') ∧ bs ≠ [] ∧ i.remaining = bs ++ i'.remaining ∧
      i'.tailErr = i.tailErr := by
  cases i with
  | streaming d =>
    obtain ⟨out, err⟩ := d
    cases out with
    | nil =>
      refine .inl ⟨rfl, ?_⟩
      cases err with
      | none => simp only [pull, tailErr, List.take_nil, List.drop_nil]
      | some e => simp only [pull, tailErr, show call.len ≠ 0 by omega, ↓reduceIte]
    | cons b out =>
      refine .inr ⟨(b :: out).take (min call.len (call.ready + 1)),
        .streaming { out := (b :: out).drop (min call.len (call.ready + 1)), err }, rfl, ?_, ?_, rfl⟩
      · obtain ⟨n, hn⟩ : ∃ n, min call.len (call.ready + 1) = n + 1 :=
          ⟨min call.len (call.ready + 1) - 1, by omega⟩
        rw [hn, List.take_succ_cons]
        exact List.cons_ne_nil _ _
      · exact (List.take_append_drop _ _).symm
  | buffered data pos pooled =>
    by_cases hpos : pos < data.length
    · refine .inr ⟨(data.drop pos).take (min (data.length - pos) call.len),
        .buffered data (pos + min (data.length - pos) call.len) pooled, if_pos hpos, ?_, ?_, rfl⟩
      · rw [← List.length_pos_iff, List.length_take, List.length_drop]
        omega
      · simp only [remaining]
        rw [← List.drop_drop, List.take_append_drop]
    · refine .inl ⟨List.drop_of_length_le (by omega), ?_⟩
      simp only [pull, hpos, ↓reduceIte, tailErr]
  | shared data start stop pos =>
    by_cases hpos : min (start + pos) data.length < min stop data.length
    · refine .inr ⟨_, .shared data start stop (pos + min (min stop data.length -
        min (start + pos) data.length) call.len), if_pos hpos, ?_, ?_, rfl⟩
      · rw [← List.length_pos_iff, List.length_take, List.length_drop]
        omega
      · have hb : min (start + pos) data.length = start + pos := by omega
        have htake : ∀ n, n ≤ min stop data.length - (start + pos) →
            (data.drop (start + pos)).take n = ((data.take stop).drop (start + pos)).take n := by
          intro n hn
          rw [List.drop_take, List.take_take, Nat.min_eq_left (by omega)]
        have hdrop (n : Nat) : (data.take stop).drop (start + (pos + n)) =
            ((data.take stop).drop (start + pos)).drop n := by rw [List.drop_drop, Nat.add_assoc]
        simp only [remaining]
        rw [hb, htake _ (Nat.min_le_left _ _), hdrop, List.take_append_drop]
    · refine .inl ⟨?_, ?_⟩
      · refine List.drop_of_length_le ?_
        rw [List.length_take]
        omega
      · simp only [pull, hpos, ↓reduceIte, tailErr]

theorem Inner.pull_empty (i : Inner) {call : ReadCall} (h : call.len = 0) :
    i.pull call = .ok ([], i) := by
  cases i with
  | streaming d =>
    obtain ⟨out, err⟩ := d
    rcases out with - | ⟨b, out⟩
    · cases err with
      | none => simp [pull]
      | some e => simp [pull, h]
    · simp [pull, h]
  | buffered data pos pooled => simp [pull, h]
  | shared data start stop pos => simp [pull, h]

/-- Whatever a read takes, the rest is left. -/
theorem Inner.pull_ok {i i' : Inner} {call : ReadCall} {bs : Bytes} (h : i.pull call = .ok (bs, i')) :
    i.remaining = bs ++ i'.remaining ∧ (bs = [] → i' = i) := by
  by_cases hlen : call.len = 0
  · cases (i.pull_empty hlen).symm.trans h
    exact ⟨rfl, fun _ => rfl⟩
  · rcases i.pull_spec (Nat.pos_of_ne_zero hlen) with ⟨hrem, hp⟩ | ⟨bs', i'', hp, hbs, hrem, -⟩
    · rw [hp] at h
      cases ht : i.tailErr with
      | some e => rw [ht] at h; cases h
      | none =>
        rw [ht] at h
        cases h
        exact ⟨rfl, fun _ => rfl⟩
    · cases hp.symm.trans h
      exact ⟨hrem, fun hnil => absurd hnil hbs⟩

theorem Inner.remaining_shared (data : Bytes) (start len : Nat) :
    (Inner.shared data start (start + len) 0).remaining = (data.drop start).take len := by
  rw [Inner.remaining, Nat.add_zero, List.drop_take, Nat.add_sub_cancel_left]

/-! ## One read -/

/-- A read that finds an error waiting. -/
theorem read_waiting {r : EntryReader} {call : ReadCall} {e : IoError} (h : r.integrityErr = some e) :
    r.read X call = (.error e, { r with integrityErr := none }) := by
  simp only [EntryReader.read, h]

theorem read_cleared {r : EntryReader} (h : r.integrityErr = none) (e : IoError) (call : ReadCall) :
    (EntryReader.read X call { r with integrityErr := some e }).2 = r := by
  rw [read_waiting (r := { r with integrityErr := some e }) rfl]
  show { r with integrityErr := none } = r
  rw [← h]

/-- A read that takes nothing, from a reader that has made its checks. -/
theorem read_finished {r : EntryReader} {call : ReadCall} (herr : r.integrityErr = none)
    (hp : r.inner.pull call = .ok ([], r.inner)) (hfin : r.finished = true) :
    r.read X call = (.ok [], r) := by
  obtain ⟨inner, crc, expectedCrc, expectedSize, sizeRead, checkCrc, finished, err, seeked⟩ := r
  cases herr
  cases hfin
  dsimp only at hp
  simp [EntryReader.read, hp]

/-- A read that takes nothing, from one whose checks pass. -/
theorem read_verified {r : EntryReader} {call : ReadCall} (herr : r.integrityErr = none)
    (hp : r.inner.pull call = .ok ([], r.inner)) (hsize : r.sizeRead = r.expectedSize.toNat)
    (hcrc : r.checkCrc = true → X.crc32 r.crc = r.expectedCrc) :
    r.read X call = (.ok [], { r with finished := true }) := by
  obtain ⟨inner, crc, expectedCrc, expectedSize, sizeRead, checkCrc, finished, err, seeked⟩ := r
  cases herr
  dsimp only at hp hsize hcrc
  have hok : ¬ (checkCrc = true ∧ X.crc32 crc ≠ expectedCrc) := fun h => h.2 (hcrc h.1)
  cases finished <;> simp [EntryReader.read, hp, EntryReader.verify, hsize, hok]

/-- A read that takes nothing, from one whose checks fail. -/
theorem read_refused {r : EntryReader} {call : ReadCall} (herr : r.integrityErr = none)
    (hseek : r.seeked = false) (hp : r.inner.pull call = .ok ([], r.inner)) (hfin : r.finished = false)
    (hbad : ¬ (r.sizeRead = r.expectedSize.toNat ∧
      (r.checkCrc = true → X.crc32 r.crc = r.expectedCrc))) :
    ∃ e, (r.read X call).1 = .error e := by
  obtain ⟨inner, crc, expectedCrc, expectedSize, sizeRead, checkCrc, finished, err, seeked⟩ := r
  cases herr
  cases hseek
  cases hfin
  dsimp only at hp hbad
  by_cases hsize : sizeRead = expectedSize.toNat
  · have hcrc : checkCrc = true ∧ X.crc32 crc ≠ expectedCrc := by
      by_contra hc
      exact hbad ⟨hsize, fun hcheck => by_contra fun hne => hc ⟨hcheck, hne⟩⟩
    exact ⟨⟨.invalidData, "CRC mismatch"⟩,
      by simp [EntryReader.read, hp, EntryReader.verify, hsize, hcrc]⟩
  · exact ⟨⟨.invalidData, "Size mismatch"⟩,
      by simp [EntryReader.read, hp, EntryReader.verify, hsize]⟩

/-- A read that takes bytes. -/
theorem read_taken {r : EntryReader} {call : ReadCall} {bs : Bytes} {i : Inner}
    (herr : r.integrityErr = none) (hp : r.inner.pull call = .ok (bs, i)) (hbs : bs ≠ []) :
    ((r.advance i bs).sizeRead ≤ r.sizeLimit ∧ r.read X call = (.ok bs, r.advance i bs)) ∨
    (r.sizeLimit < (r.advance i bs).sizeRead ∧ ∃ e bomb,
      r.read X call = (.error e, { r.advance i bs with integrityErr := some bomb })) := by
  have hpos : 0 < bs.length := List.length_pos_iff.mpr hbs
  have hlimit : (r.advance i bs).sizeLimit = r.sizeLimit := rfl
  simp only [EntryReader.read, herr, hp, gt_iff_lt, hpos, ↓reduceIte, hlimit]
  by_cases hle : (r.advance i bs).sizeRead ≤ r.sizeLimit
  · exact .inl ⟨hle, if_neg (by omega)⟩
  · exact .inr ⟨by omega, _, _, if_pos (by omega)⟩

/-! ## A run of reads -/

/-- A reader in the middle of a run of reads: it has handed out `out` without an error. -/
structure EntryReader.Reading (r : EntryReader) (out : Bytes) : Prop where
  crc : r.crc = out
  sizeRead : r.sizeRead = out.length
  finished : r.finished = false
  integrityErr : r.integrityErr = none
  seeked : r.seeked = false
  limit : out.length ≤ r.sizeLimit

/-- What a reader is checked against does not change as it reads. -/
theorem passes_advance {r : EntryReader} {i : Inner} {bs content : Bytes}
    (htail : i.tailErr = r.inner.tailErr) : (r.advance i bs).Passes X content ↔ r.Passes X content :=
  ⟨fun h => ⟨htail ▸ h.no_err, h.size, h.crc⟩, fun h => ⟨htail.trans h.no_err, h.size, h.crc⟩⟩

theorem expectedSize_le_sizeLimit (r : EntryReader) : r.expectedSize.toNat ≤ r.sizeLimit := by
  have h := r.expectedSize.toNat_lt
  rw [EntryReader.sizeLimit]
  omega

/-- The last read of a run: the end of the stream, where the checks are made. -/
theorem EntryReader.Reading.last {r : EntryReader} {out : Bytes} (h : r.Reading out)
    {call : ReadCall} (hp : r.inner.pull call = match r.inner.tailErr with
      | some e => .error e
      | none => .ok ([], r.inner)) :
    (r.Passes X out → (r.read X call).1 = .ok []) ∧
      (¬ r.Passes X out → ∃ e, (r.read X call).1 = .error e) := by
  cases ht : r.inner.tailErr with
  | some e =>
    rw [ht] at hp
    refine ⟨fun hpass => ?_, fun _ => ⟨e, ?_⟩⟩
    · rw [hpass.no_err] at ht
      cases ht
    · simp only [read, h.integrityErr, hp]
  | none =>
    rw [ht] at hp
    refine ⟨fun hpass => ?_, fun hfail => read_refused h.integrityErr h.seeked hp h.finished ?_⟩
    · rw [read_verified h.integrityErr hp (h.sizeRead.trans hpass.size)
        (h.crc.symm ▸ hpass.crc)]
    · exact fun hchecks => hfail ⟨ht, h.sizeRead ▸ hchecks.1, h.crc ▸ hchecks.2⟩

/-- Any other read of a run. -/
theorem EntryReader.Reading.next {r : EntryReader} {out bs : Bytes} {i : Inner} {call : ReadCall}
    (h : r.Reading out) (hp : r.inner.pull call = .ok (bs, i)) (hbs : bs ≠ []) :
    r.read X call = (.ok bs, r.advance i bs) ∧ (r.advance i bs).Reading (out ++ bs) ∨
      r.sizeLimit < (out ++ bs).length ∧ ∃ e, (r.read X call).1 = .error e := by
  have hsize : (r.advance i bs).sizeRead = (out ++ bs).length := by
    rw [List.length_append, ← h.sizeRead]; rfl
  rcases read_taken (X := X) h.integrityErr hp hbs with ⟨hle, hr⟩ | ⟨hlt, e, bomb, hr⟩
  · refine .inl ⟨hr, ?_, hsize, h.finished, h.integrityErr, h.seeked, hsize ▸ hle⟩
    rw [← h.crc]; rfl
  · exact .inr ⟨hsize ▸ hlt, e, by rw [hr]⟩

/-- A run of reads, by induction on what is left: it hands out all of it, or fails. -/
theorem readToEndLoop_spec (sched : Schedule) {n : Nat} (k : Nat) {r : EntryReader} {out : Bytes}
    (h : r.Reading out) (hn : r.inner.remaining.length < n) :
    (r.Passes X (out ++ r.inner.remaining) →
        (r.readToEndLoop X sched n k out).1 = .ok (out ++ r.inner.remaining)) ∧
      (¬ r.Passes X (out ++ r.inner.remaining) →
        ∃ e : IoError, (r.readToEndLoop X sched n k out).1 = .error e.toFault) := by
  induction n generalizing k r out with
  | zero => omega
  | succ n ih =>
    rw [EntryReader.readToEndLoop]
    rcases r.inner.pull_spec (sched.len_pos k) with ⟨hrem, hp⟩ | ⟨bs, i, hp, hbs, hrem, htail⟩
    · rw [hrem, List.append_nil]
      obtain ⟨hok, herr⟩ := h.last (X := X) hp
      refine ⟨fun hpass => ?_, fun hfail => ?_⟩
      · have hr := hok hpass
        revert hr
        cases r.read X (sched.call k) with
        | mk o r' => rintro rfl; rfl
      · obtain ⟨e, hr⟩ := herr hfail
        revert hr
        cases r.read X (sched.call k) with
        | mk o r' => rintro rfl; exact ⟨_, rfl⟩
    · rcases h.next (X := X) hp hbs with ⟨hr, hreading⟩ | ⟨hlt, e, hr⟩
      · rw [hr]
        simp only [hbs, ↓reduceIte]
        have hlen : (r.advance i bs).inner.remaining.length < n := by
          show i.remaining.length < n
          rw [hrem, List.length_append] at hn
          have := List.length_pos_iff.mpr hbs
          omega
        have ih := ih (k + 1) hreading hlen
        have hpass : (r.advance i bs).Passes X (out ++ bs ++ i.remaining) ↔
            r.Passes X (out ++ r.inner.remaining) := by
          rw [passes_advance htail, hrem, List.append_assoc]
        rw [show (r.advance i bs).inner = i from rfl, hpass] at ih
        simpa only [hrem, List.append_assoc] using ih
      · refine ⟨fun hpass => ?_, fun _ => ?_⟩
        · have := hpass.size
          have := expectedSize_le_sizeLimit r
          rw [hrem, List.length_append, List.length_append] at *
          omega
        · revert hr
          cases r.read X (sched.call k) with
          | mk o r' => rintro rfl; exact ⟨_, rfl⟩

/-- Reading a fresh reader to its end: its content if that passes the checks, else an error. -/
theorem readToEnd_fresh {sched : Schedule} {i : Inner} {crc : UInt32} {size : UInt64}
    {check : Bool} {v : Bytes} :
    ((EntryReader.fresh i crc size check).readToEnd X sched).1 = .ok v ↔
      v = i.remaining ∧ i.tailErr = none ∧ v.length = size.toNat ∧
        (check = true → X.crc32 v = crc) := by
  have hreading : (EntryReader.fresh i crc size check).Reading [] :=
    ⟨rfl, rfl, rfl, rfl, rfl, Nat.zero_le _⟩
  obtain ⟨hok, herr⟩ := readToEndLoop_spec (X := X) sched 0 hreading (Nat.lt_succ_self _)
  simp only [List.nil_append] at hok herr
  constructor
  · intro h
    by_cases hpass : (EntryReader.fresh i crc size check).Passes X i.remaining
    · cases (hok hpass).symm.trans h
      exact ⟨rfl, hpass.no_err, hpass.size, hpass.crc⟩
    · obtain ⟨e, he⟩ := herr hpass
      cases he.symm.trans h
  · rintro ⟨rfl, hno, hsize, hcrc⟩
    exact hok ⟨hno, hsize, hcrc⟩

theorem readToEnd_fresh_no_panic (sched : Schedule) (i : Inner) (crc : UInt32) (size : UInt64)
    (check : Bool) : ((EntryReader.fresh i crc size check).readToEnd X sched).1 ≠ .error .panic := by
  have hreading : (EntryReader.fresh i crc size check).Reading [] :=
    ⟨rfl, rfl, rfl, rfl, rfl, Nat.zero_le _⟩
  obtain ⟨hok, herr⟩ := readToEndLoop_spec (X := X) sched 0 hreading (Nat.lt_succ_self _)
  intro h
  by_cases hpass : (EntryReader.fresh i crc size check).Passes X ([] ++ i.remaining)
  · cases (hok hpass).symm.trans h
  · obtain ⟨e, he⟩ := herr hpass
    cases he.symm.trans h

end Kzip.Impl
