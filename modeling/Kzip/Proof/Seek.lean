import Kzip.Impl.Reference
import Kzip.Proof.File
import Kzip.Spec.Seek

/-!
# Random access in memory

A reader whose bytes are in memory shows its content through a cursor (`Shows`). Once it was seeked, each
call keeps it at the cursor (`AtCursor`) and returns what the cursor does, so two readers that show the
same content cannot be told apart (`random_access`).
-/

namespace Kzip.Impl

open Lib Kzip.Spec

variable {X : Extern} {content : Bytes}

/-- The reader takes its bytes from the content at the cursor: a buffer that holds it, or a window of
other bytes. -/
inductive Inner.Shows (content : Bytes) : Inner → Nat → Prop
  | buffered (pos : Nat) (pooled : Bool) : Shows content (.buffered content pos pooled) pos
  | shared {data : Bytes} {start stop : Nat} (pos : Nat) (hstart : start ≤ stop)
    (hstop : stop ≤ data.length) (hdata : (data.take stop).drop start = content) :
    Shows content (.shared data start stop pos) pos

/-- A reader that was seeked and stands at the cursor. -/
structure EntryReader.AtCursor (content : Bytes) (r : EntryReader) (cursor : Nat) : Prop where
  shows : r.inner.Shows content cursor
  cursor_le : cursor ≤ content.length
  sizeRead : r.sizeRead = cursor
  integrityErr : r.integrityErr = none
  seeked : r.seeked = true
  size_le : content.length ≤ r.expectedSize.toNat

theorem length_window {data : Bytes} {start stop : Nat} (hstart : start ≤ stop)
    (hstop : stop ≤ data.length) (hdata : (data.take stop).drop start = content) :
    stop = start + content.length := by
  have hlen := congrArg List.length hdata
  rw [List.length_drop, List.length_take] at hlen
  omega

/-- A read takes the next bytes of the content. -/
theorem Inner.Shows.pull {i : Inner} {cursor : Nat} (h : i.Shows content cursor)
    (hle : cursor ≤ content.length) (call : ReadCall) :
    ∃ i', i.pull call = .ok ((content.drop cursor).take (min call.len (content.length - cursor)), i') ∧
      i'.Shows content (cursor + min call.len (content.length - cursor)) := by
  cases h with
  | buffered pos pooled =>
    by_cases hpos : cursor < content.length
    · simp only [Inner.pull, hpos, ↓reduceIte, Nat.min_comm (content.length - cursor)]
      exact ⟨_, rfl, .buffered ..⟩
    · have hzero : content.length - cursor = 0 := by omega
      simp only [Inner.pull, hpos, ↓reduceIte, hzero, Nat.min_zero, List.take_zero]
      exact ⟨_, rfl, .buffered ..⟩
  | @shared data start stop pos hstart hstop hdata =>
    have hlen := length_window hstart hstop hdata
    have hbegin : min (start + cursor) data.length = start + cursor := by omega
    have hlimit : min stop data.length = stop := by omega
    have hleft : stop - (start + cursor) = content.length - cursor := by omega
    by_cases hpos : start + cursor < stop
    · have hbytes : (data.drop (start + cursor)).take (min call.len (content.length - cursor)) =
          (content.drop cursor).take (min call.len (content.length - cursor)) := by
        have hrest : content.drop cursor = (data.drop (start + cursor)).take (stop - (start + cursor)) := by
          rw [← hdata, List.drop_drop, List.drop_take]
        rw [hrest, List.take_take]
        congr 1
        omega
      simp only [Inner.pull, hbegin, hlimit, hpos, ↓reduceIte, hleft,
        Nat.min_comm (content.length - cursor), hbytes]
      exact ⟨_, rfl, .shared _ hstart hstop hdata⟩
    · have hzero : content.length - cursor = 0 := by omega
      simp only [Inner.pull, hbegin, hlimit, hpos, ↓reduceIte, hzero, Nat.min_zero, List.take_zero]
      exact ⟨_, rfl, .shared _ hstart hstop hdata⟩

/-- A seek brings any reader over the content to the cursor. -/
theorem seek_atCursor {r : EntryReader} {cursor : Nat} (h : r.inner.Shows content cursor)
    (hsize : content.length ≤ r.expectedSize.toNat) (pos : UInt64) :
    (r.seek pos).1 = .ok () ∧ (r.seek pos).2.AtCursor content (min pos.toNat content.length) := by
  obtain ⟨inner, crc, expectedCrc, expectedSize, sizeRead, checkCrc, finished, err, seeked⟩ := r
  dsimp only at h hsize
  cases h with
  | buffered p pooled => exact ⟨rfl, .buffered .., Nat.min_le_right _ _, rfl, rfl, rfl, hsize⟩
  | @shared data start stop p hstart hstop hdata =>
    have hlen := length_window hstart hstop hdata
    have hp : min pos.toNat (stop - start) = min pos.toNat content.length := by omega
    refine ⟨rfl, ?_, Nat.min_le_right _ _, hp, rfl, rfl, hsize⟩
    rw [← hp]
    exact .shared _ hstart hstop hdata

/-- A read at the cursor. Its checks are off, so the end of the content is no error. -/
theorem read_atCursor {r : EntryReader} {cursor : Nat} (h : r.AtCursor content cursor) (call : ReadCall) :
    (r.read X call).1 =
      .ok ((content.drop cursor).take (min call.len (content.length - cursor))) ∧
    (r.read X call).2.AtCursor content (cursor + min call.len (content.length - cursor)) := by
  obtain ⟨i', hpull, hshows⟩ := h.shows.pull h.cursor_le call
  obtain ⟨bs, hbs⟩ : ∃ bs, (content.drop cursor).take (min call.len (content.length - cursor)) = bs :=
    ⟨_, rfl⟩
  have hn : bs.length = min call.len (content.length - cursor) := by
    rw [← hbs, List.length_take, List.length_drop]
    omega
  have hle := h.cursor_le
  rw [hbs] at hpull ⊢
  rw [← hn] at hshows ⊢
  by_cases hnil : bs = []
  · obtain ⟨-, hself⟩ := Inner.pull_ok hpull
    obtain rfl := hself hnil
    obtain ⟨-, -, hread, herr, hseek, hsize⟩ := h
    subst hnil
    obtain ⟨inner, crc, expectedCrc, expectedSize, sizeRead, checkCrc, finished, err, seeked⟩ := r
    dsimp only at *
    subst herr hseek
    cases finished <;> simp only [EntryReader.read, hpull, EntryReader.verify, List.length_nil,
      gt_iff_lt, Nat.lt_irrefl, ↓reduceIte, Bool.false_eq_true]
    all_goals exact ⟨trivial, hshows, hle, hread, rfl, rfl, hsize⟩
  · rcases read_taken (X := X) h.integrityErr hpull hnil with ⟨-, hr⟩ | ⟨hlt, -⟩
    · rw [hr]
      refine ⟨rfl, hshows, by omega, ?_, h.integrityErr, h.seeked, h.size_le⟩
      show r.sizeRead + bs.length = _
      rw [h.sizeRead]
    · -- the content is not larger than what the entry declares
      have hlimit := expectedSize_le_sizeLimit r
      have hsize := h.size_le
      have hread : (r.advance i' bs).sizeRead = cursor + bs.length := by
        rw [← h.sizeRead]
        rfl
      omega

/-- Every call keeps a reader at the cursor, and returns what the cursor does. -/
theorem run_atCursor {r : EntryReader} {cursor : Nat} (h : r.AtCursor content cursor)
    (call : AccessCall) : (call.run X r).2 = (call.spec content cursor).2 ∧
      (call.run X r).1.AtCursor content (call.spec content cursor).1 := by
  cases call with
  | seek pos =>
    obtain ⟨hok, hat⟩ := seek_atCursor h.shows h.size_le pos
    refine ⟨?_, hat⟩
    show ((r.seek pos).1.map fun _ => [], (r.seek pos).2.sizeRead) = _
    rw [hok, hat.sizeRead]
    rfl
  | read call =>
    obtain ⟨hok, hat⟩ := read_atCursor (X := X) h call
    refine ⟨?_, hat⟩
    show ((r.read X call).1, (r.read X call).2.sizeRead) = _
    rw [hok, hat.sizeRead]
    rfl

/-- From the first seek on, a reader in memory does what the cursor does. -/
theorem seeked_follows_cursor {r : EntryReader} {cursor : Nat} (h : r.inner.Shows content cursor)
    (hsize : content.length ≤ r.expectedSize.toNat) (pos : UInt64) (calls : List AccessCall) :
    accessResults X r (.seek pos :: calls) = cursorResults content 0 (.seek pos :: calls) := by
  obtain ⟨hok, hat⟩ := seek_atCursor h hsize pos
  have hfirst : (AccessCall.run X r (.seek pos)).2 = (AccessCall.spec content 0 (.seek pos)).2 := by
    show ((r.seek pos).1.map fun _ => [], (r.seek pos).2.sizeRead) = _
    rw [hok, hat.sizeRead]
    rfl
  have hlater : accessResults X (r.seek pos).2 calls =
      cursorResults content (min pos.toNat content.length) calls :=
    outputs_eq_of_related (R := EntryReader.AtCursor content) (fun _ _ call hr => run_atCursor hr call)
      hat calls
  exact congrArg₂ List.cons hfirst hlater

/-- A buffered reader over the content and a shared one over a window that holds it, in whatever state
they are, do from the first seek on what a cursor in the content does: seeks clamp to its length, reads
return the bytes at the cursor, the position is the cursor, and nothing fails. -/
theorem random_access {b s : EntryReader} {pos pos' start stop : Nat} {pooled : Bool} {data : Bytes}
    (hb : b.inner = .buffered content pos pooled) (hbsize : content.length ≤ b.expectedSize.toNat)
    (hs : s.inner = .shared data start stop pos') (hssize : content.length ≤ s.expectedSize.toNat)
    (hstart : start ≤ stop) (hstop : stop ≤ data.length) (hdata : (data.take stop).drop start = content)
    (first : UInt64) (calls : List AccessCall) :
    accessResults X b (.seek first :: calls) = cursorResults content 0 (.seek first :: calls) ∧
    accessResults X s (.seek first :: calls) = cursorResults content 0 (.seek first :: calls) := by
  have hbuffered : b.inner.Shows content pos := by
    rw [hb]
    exact .buffered ..
  have hshared : s.inner.Shows content pos' := by
    rw [hs]
    exact .shared _ hstart hstop hdata
  exact ⟨seeked_follows_cursor hbuffered hbsize first calls,
    seeked_follows_cursor hshared hssize first calls⟩

theorem random_access_sample :
    accessResults reference (.fromBuffer [1, 2, 3] 0 3 false)
        [.seek 1, .read ⟨2, 0⟩, .seek 9, .read ⟨1, 0⟩] =
      cursorResults [1, 2, 3] 0 [.seek 1, .read ⟨2, 0⟩, .seek 9, .read ⟨1, 0⟩] ∧
    accessResults reference (.fromShared [9, 1, 2, 3, 9] 1 3 0 3)
        [.seek 1, .read ⟨2, 0⟩, .seek 9, .read ⟨1, 0⟩] =
      cursorResults [1, 2, 3] 0 [.seek 1, .read ⟨2, 0⟩, .seek 9, .read ⟨1, 0⟩] :=
  random_access (b := .fromBuffer [1, 2, 3] 0 3 false) (s := .fromShared [9, 1, 2, 3, 9] 1 3 0 3)
    rfl (Nat.le_refl 3) rfl (Nat.le_refl 3) (Nat.le_add_right 1 3) (Nat.le_succ 4) rfl 1 _

end Kzip.Impl
