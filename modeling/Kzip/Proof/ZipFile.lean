import Kzip.Impl.Reference
import Kzip.Lib.Slots
import Kzip.Proof.Close
import Kzip.Proof.Seek
import Kzip.Proof.Session
import Kzip.Proof.WriteSession
import Kzip.Spec.ZipFile

/-!
# Files follow their cursors

A file stands where its cursor does (`Stands`) when it is opened, and after every call on it, whatever its
reader takes its bytes from. What is done to the archive or to other files does not reach it, so that the
replies of a run are those of the table of cursors (`files_follow`).
-/

namespace Kzip.Impl

open Lib Lib.Utf8 Kzip.Spec

variable {X : Extern}

/-! ## Standing at a cursor -/

/-- The reader takes its bytes from the content at the cursor, or has the rest of it still to hand out. -/
inductive Inner.Serves (content : Bytes) (cursor : Nat) : Bool → Inner → Prop
  | held {i : Inner} (hshows : i.Shows content cursor) : Serves content cursor true i
  | streamed : Serves content cursor false (.streaming { out := content.drop cursor, err := none })

/-- The reader stands at the cursor. Until its checks are given up or made, it remembers all that it handed
out, and the content passes them. -/
structure Stands (X : Extern) (r : EntryReader) (v : View) : Prop where
  serves : r.inner.Serves v.content.val v.cursor v.seekable
  cursor_le : v.cursor ≤ v.content.val.length
  sizeRead : r.sizeRead = v.cursor
  size : v.content.val.length = r.expectedSize.toNat
  integrityErr : r.integrityErr = none
  checked : v.checked = true → r.seeked = true ∨ r.finished = true
  unchecked : v.checked = false → r.seeked = false ∧ r.finished = false ∧
    r.crc = v.content.val.take v.cursor ∧ (r.checkCrc = true → X.crc32 v.content.val = r.expectedCrc)

theorem Stands.isSeekable {r : EntryReader} {v : View} (h : Stands X r v) : r.isSeekable = v.seekable := by
  have hserves := h.serves
  unfold EntryReader.isSeekable
  generalize r.inner = i, v.seekable = seekable at hserves
  cases hserves with
  | held hshows => cases hshows <;> rfl
  | streamed => rfl

theorem Inner.pull_streaming (out : Bytes) (call : ReadCall) :
    Inner.pull call (.streaming { out, err := none }) = .ok (out.take (min call.len (call.ready + 1)),
      .streaming { out := out.drop (min call.len (call.ready + 1)), err := none }) := by
  cases out <;> rfl

theorem next_eq (v : View) (call : ReadCall) : ∃ n, v.next call = (v.content.val.drop v.cursor).take n ∧
    (v.seekable = true → n = call.len) ∧ (v.seekable = false → n = min call.len (call.ready + 1)) := by
  refine ⟨_, rfl, fun h => if_pos h, fun h => if_neg ?_⟩
  rw [h]
  exact Bool.false_ne_true

/-- The next bytes are there, and as many as the cursor moves. -/
theorem next_spec {v : View} (hle : v.cursor ≤ v.content.val.length) (call : ReadCall) :
    v.next call = (v.content.val.drop v.cursor).take (v.next call).length ∧
      v.cursor + (v.next call).length ≤ v.content.val.length := by
  have hlen : (v.next call).length ≤ v.content.val.length - v.cursor := by
    rw [View.next, List.length_take, List.length_drop]
    exact Nat.min_le_right _ _
  refine ⟨?_, by omega⟩
  rw [View.next, List.length_take, List.take_eq_take_iff]
  omega

/-- A reader pulls the next bytes, and serves what follows. -/
theorem Inner.Serves.pull {v : View} {i : Inner} (h : i.Serves v.content.val v.cursor v.seekable)
    (hle : v.cursor ≤ v.content.val.length) (call : ReadCall) :
    ∃ i', i.pull call = .ok (v.next call, i') ∧
      i'.Serves v.content.val (v.cursor + (v.next call).length) v.seekable := by
  obtain ⟨n, hnext, hheld, hstreamed⟩ := next_eq v call
  generalize v.seekable = seekable at *
  cases h with
  | held hshows =>
    have htake : v.next call =
        (v.content.val.drop v.cursor).take (min call.len (v.content.val.length - v.cursor)) := by
      rw [hnext, hheld rfl, List.take_eq_take_iff, List.length_drop]
      omega
    have hlen : (v.next call).length = min call.len (v.content.val.length - v.cursor) := by
      rw [htake, List.length_take, List.length_drop]
      omega
    obtain ⟨i', hpull, hshows'⟩ := hshows.pull hle call
    rw [hlen, htake]
    exact ⟨i', hpull, .held hshows'⟩
  | streamed =>
    have hrest : (v.content.val.drop v.cursor).drop n = v.content.val.drop (v.cursor + (v.next call).length) := by
      rw [← List.drop_drop, hnext, List.length_take]
      rcases Nat.le_total n (v.content.val.drop v.cursor).length with hn | hn
      · rw [Nat.min_eq_left hn]
      · rw [Nat.min_eq_right hn, List.drop_length, List.drop_of_length_le hn]
    have hpull := Inner.pull_streaming (v.content.val.drop v.cursor) call
    rw [← hstreamed rfl, ← hnext, hrest] at hpull
    exact ⟨_, hpull, .streamed⟩

/-! ## Calls on a file -/

theorem Stands.finish {r : EntryReader} {v : View} (h : Stands X r v) :
    Stands X { r with finished := true } { v with checked := true } where
  serves := h.serves
  cursor_le := h.cursor_le
  sizeRead := h.sizeRead
  size := h.size
  integrityErr := h.integrityErr
  checked _ := .inr rfl
  unchecked := nofun

/-- A read that takes nothing makes the checks, unless they are given up or made. -/
theorem read_nothing {r : EntryReader} {v : View} (h : Stands X r v) {call : ReadCall}
    (hpull : r.inner.pull call = .ok ([], r.inner)) :
    (v.checked = true ∨ v.cursor = v.content.val.length) ∧ r.read X call = (.ok [], { r with finished := true }) ∨
      ¬ (v.checked = true ∨ v.cursor = v.content.val.length) ∧
        ∃ e, r.read X call = (.error e, { r with finished := true }) := by
  cases hchecked : v.checked with
  | true =>
    refine .inl ⟨.inl rfl, ?_⟩
    have hdone := h.checked hchecked
    have herr := h.integrityErr
    obtain ⟨inner, crc, expectedCrc, expectedSize, sizeRead, checkCrc, finished, err, seeked⟩ := r
    dsimp only at hpull herr hdone
    subst herr
    cases finished with
    | true => simp [EntryReader.read, hpull]
    | false =>
      obtain rfl : seeked = true := hdone.resolve_right Bool.false_ne_true
      simp [EntryReader.read, hpull, EntryReader.verify]
  | false =>
    obtain ⟨hseeked, hfinished, hcrc, hpasses⟩ := h.unchecked hchecked
    by_cases hend : v.cursor = v.content.val.length
    · refine .inl ⟨.inr hend, ?_⟩
      have hall : r.crc = v.content.val := by rw [hcrc, hend, List.take_length]
      exact read_verified h.integrityErr hpull (by rw [h.sizeRead, hend, h.size]) (hall ▸ hpasses)
    · refine .inr ⟨fun hor => hor.elim Bool.false_ne_true hend, ⟨.invalidData, "Size mismatch"⟩, ?_⟩
      have hshort : r.sizeRead ≠ r.expectedSize.toNat := by rwa [h.sizeRead, ← h.size]
      have herr := h.integrityErr
      obtain ⟨inner, crc, expectedCrc, expectedSize, sizeRead, checkCrc, finished, err, seeked⟩ := r
      dsimp only at hpull herr hseeked hfinished hshort
      subst herr hseeked hfinished
      simp [EntryReader.read, hpull, EntryReader.verify, hshort]

theorem next_nil {v : View} (hle : v.cursor ≤ v.content.val.length) {call : ReadCall} :
    v.next call = [] ↔ call.len = 0 ∨ v.cursor = v.content.val.length := by
  have hlen : (v.next call).length = min (if v.seekable then call.len else min call.len (call.ready + 1))
      (v.content.val.length - v.cursor) := by
    rw [View.next, List.length_take, List.length_drop]
  rw [← List.length_eq_zero_iff, hlen]
  split <;> omega

/-- An empty read stumbles where a read that takes nothing would fail. -/
theorem stumbles_iff {v : View} (hle : v.cursor ≤ v.content.val.length) (call : ReadCall) :
    v.stumbles (.read true call) = true ↔
      v.next call = [] ∧ ¬ (v.checked = true ∨ v.cursor = v.content.val.length) := by
  rw [next_nil hle, View.stumbles]
  simp only [Bool.true_and, Bool.and_eq_true, beq_iff_eq, decide_eq_true_eq, Bool.not_eq_true', not_or]
  constructor
  · rintro ⟨⟨hlen, hlt⟩, hchecked⟩
    exact ⟨.inl hlen, by rw [hchecked]; exact Bool.false_ne_true, Nat.ne_of_lt hlt⟩
  · rintro ⟨hnil, hchecked, hne⟩
    exact ⟨⟨hnil.resolve_right hne, Nat.lt_of_le_of_ne hle hne⟩, Bool.eq_false_of_not_eq_true hchecked⟩

/-- A read takes the next bytes, unless it stumbles. -/
theorem read_stands {r : EntryReader} {v : View} (h : Stands X r v) (call : ReadCall) :
    v.stumbles (.read true call) = false ∧
        (∃ r', r.read X call = (.ok (v.next call), r') ∧ Stands X r' (v.read call).2) ∨
      v.stumbles (.read true call) = true ∧
        ∃ e r', r.read X call = (.error e, r') ∧ Stands X r' { v with checked := true } := by
  obtain ⟨i', hpull, hserves⟩ := h.serves.pull h.cursor_le call
  by_cases hnil : v.next call = []
  · have hstumbles := stumbles_iff h.cursor_le call
    rw [hnil] at hpull
    obtain rfl := (Inner.pull_ok hpull).2 rfl
    have hview : (v.read call).2 = { v with checked := true } := by
      simp only [View.read, hnil, List.length_nil, Nat.add_zero, List.isEmpty_nil, Bool.or_true]
    rw [hview, hnil]
    rcases read_nothing h hpull with ⟨hok, hr⟩ | ⟨hshort, e, hr⟩
    · refine .inl ⟨Bool.eq_false_of_not_eq_true fun htrue => (hstumbles.mp htrue).2 hok, _, hr, h.finish⟩
    · exact .inr ⟨hstumbles.mpr ⟨hnil, hshort⟩, e, _, hr, h.finish⟩
  · have hstumbles : v.stumbles (.read true call) = false :=
      Bool.eq_false_of_not_eq_true fun htrue => hnil ((stumbles_iff h.cursor_le call).mp htrue).1
    have hview : (v.read call).2 = { v with cursor := v.cursor + (v.next call).length } := by
      simp only [View.read, List.isEmpty_eq_false_iff.mpr hnil, Bool.or_false]
    obtain ⟨htake, hle⟩ := next_spec h.cursor_le call
    have hread : (r.advance i' (v.next call)).sizeRead = v.cursor + (v.next call).length := by
      rw [← h.sizeRead]
      rfl
    rcases read_taken (X := X) h.integrityErr hpull hnil with ⟨-, hr⟩ | ⟨hlt, -⟩
    · rw [hr, hview]
      refine .inl ⟨hstumbles, _, rfl, hserves, hle, hread, h.size, h.integrityErr, h.checked, fun hchecked => ?_⟩
      obtain ⟨hseeked, hfinished, hcrc, hpasses⟩ := h.unchecked hchecked
      refine ⟨hseeked, hfinished, ?_, hpasses⟩
      show r.crc ++ v.next call = _
      rw [hcrc, List.take_add, ← htake]
    · -- the content is not larger than what the entry declares
      have hlimit := expectedSize_le_sizeLimit r
      have hsize := h.size
      omega

theorem Inner.Shows.remaining {content : Bytes} {i : Inner} {cursor : Nat} (h : i.Shows content cursor) :
    i.remaining = content.drop cursor := by
  cases h with
  | buffered pos pooled => rfl
  | shared pos hstart hstop hdata => rw [Inner.remaining, ← hdata, List.drop_drop]

theorem seek_expectedSize (r : EntryReader) (pos : UInt64) : (r.seek pos).2.expectedSize = r.expectedSize := by
  unfold EntryReader.seek
  split <;> rfl

/-- A reader that can be set anywhere is set to the position, or to the end. -/
theorem seek_stands {r : EntryReader} {v : View} (h : Stands X r v) (hseekable : v.seekable = true)
    (pos : UInt64) :
    (r.seek pos).1 = .ok () ∧
      Stands X (r.seek pos).2 { v with cursor := min pos.toNat v.content.val.length, checked := true } := by
  have hserves := h.serves
  rw [hseekable] at hserves
  cases hserves with
  | held hshows =>
    obtain ⟨hok, hat⟩ := seek_atCursor hshows (Nat.le_of_eq h.size) pos
    refine ⟨hok, ?_, hat.cursor_le, hat.sizeRead, by rw [seek_expectedSize, h.size], hat.integrityErr,
      fun _ => .inl hat.seeked, nofun⟩
    dsimp only
    rw [hseekable]
    exact .held hat.shows

theorem seek_streaming {r : EntryReader} {v : View} (h : Stands X r v) (hseekable : v.seekable = false)
    (pos : UInt64) : ∃ e, r.seek pos = (.error e, r) := by
  have hserves := h.serves
  rw [hseekable] at hserves
  generalize hinner : r.inner = i at hserves
  cases hserves with
  | streamed =>
    rw [EntryReader.seek, hinner]
    exact ⟨_, rfl⟩

theorem Stands.cursor_lt {r : EntryReader} {v : View} (h : Stands X r v) : v.cursor < 2 ^ 63 :=
  Nat.lt_of_le_of_lt h.cursor_le v.content.property

/-- A seek on a file is the seek of its cursor. -/
theorem fseek_stands {f : ZipFile} {v : View} (h : Stands X f.reader v) (offset : Int64) (whence : Int32) :
    (zipFseek X f offset whence).1 = (v.seek offset whence).1.returned ∧ (v.seek offset whence).1.bytes = [] ∧
      Stands X (zipFseek X f offset whence).2.reader (v.seek offset whence).2 := by
  have hcur : (UInt64.ofNat f.reader.position).toNat = v.cursor := by
    rw [EntryReader.position, h.sizeRead, UInt64.toNat_ofNat_of_lt' (show _ < 2 ^ 64 by have := h.cursor_lt; omega)]
  have hsize : f.reader.expectedSize.toNat = v.content.val.length := h.size.symm
  have htarget := @seekTarget_iff X whence offset (UInt64.ofNat f.reader.position) f.reader.expectedSize.toNat
    (hcur ▸ h.cursor_lt) (hsize ▸ v.content.property)
  rw [hcur, hsize] at htarget
  unfold zipFseek View.seek
  dsimp only
  rw [hsize]
  rcases htarget with ⟨n, hn, hlow, hhigh, hs⟩ | ⟨hno, hs⟩
  · have hpos : (UInt64.ofNat n.toNat).toNat = n.toNat :=
      UInt64.toNat_ofNat_of_lt' (show _ < 2 ^ 64 by omega)
    have hfilter : (some n).filter (fun n => decide (0 ≤ n ∧ n < 2 ^ 63)) = some n := by
      rw [Option.filter_some, if_pos (decide_eq_true ⟨hlow, hhigh⟩)]
    rw [hs, hn, hfilter]
    dsimp only
    rw [if_neg (by omega)]
    cases hseekable : v.seekable with
    | true =>
      obtain ⟨hok, hstands⟩ := seek_stands h hseekable (UInt64.ofNat n.toNat)
      rw [hpos, hseekable] at hstands
      rw [if_pos rfl]
      cases hr : f.reader.seek (UInt64.ofNat n.toNat) with
      | mk out reader =>
        rw [hr] at hok hstands
        dsimp only at hok hstands
        subst hok
        exact ⟨rfl, rfl, hstands⟩
    | false =>
      obtain ⟨e, hr⟩ := seek_streaming h hseekable (UInt64.ofNat n.toNat)
      rw [if_neg Bool.false_ne_true, hr]
      exact ⟨rfl, rfl, h⟩
  · have hfilter : (target whence offset v.cursor v.content.val.length).filter
        (fun n => decide (0 ≤ n ∧ n < 2 ^ 63)) = none := by
      refine Option.filter_eq_none_iff.mpr fun n hn hin => hno ⟨n, hn, ?_⟩
      exact of_decide_eq_true hin
    rw [hfilter]
    rcases hs with hs | hs | ⟨m, hm, hs⟩
    · rw [hs]
      exact ⟨rfl, rfl, h⟩
    · rw [hs]
      exact ⟨rfl, rfl, h⟩
    · rw [hs]
      dsimp only
      rw [if_pos hm]
      exact ⟨rfl, rfl, h⟩

/-- A read from a file takes what its cursor does, unless it stumbles. -/
theorem fread_stands {f : ZipFile} {v : View} (h : Stands X f.reader v) (call : ReadCall) :
    v.stumbles (.read true call) = false ∧
        (∃ f', zipFread X f true call = ((v.read call).1.returned, (v.read call).1.bytes, f') ∧
          Stands X f'.reader (v.read call).2) ∨
      v.stumbles (.read true call) = true ∧
        ∃ f', zipFread X f true call = (-1, [], f') ∧ Stands X f'.reader { v with checked := true } := by
  rcases read_stands h call with ⟨hno, r', hr, hstands⟩ | ⟨hyes, e, r', hr, hstands⟩
  · refine .inl ⟨hno, { f with reader := r' }, ?_, hstands⟩
    rw [zipFread, if_pos rfl, hr]
    rfl
  · refine .inr ⟨hyes, ({ f with reader := r' } : ZipFile).setErr .read, ?_, hstands⟩
    rw [zipFread, if_pos rfl, hr]

/-- A file is as the table has it. -/
inductive AsSeen (X : Extern) : Option ZipFile → Option OpenFile → Prop
  | gone : AsSeen X none none
  | unreadable (f : ZipFile) : AsSeen X (some f) (some .unreadable)
  | cursor (f : ZipFile) (v : View) (hstands : Stands X f.reader v) : AsSeen X (some f) (some (.cursor v))

/-- Only closing a file leaves none. -/
theorem op_left (z : Zip) (f : ZipFile) (op : ZipFileOp) :
    op.closes = true ∧ (op.run X z f).1 = ⟨0, []⟩ ∧ (op.run X z f).2.1 = none ∨
      op.closes = false ∧ ∃ f', (op.run X z f).2.1 = some f' := by
  cases op with
  | close => exact .inl ⟨rfl, rfl, rfl⟩
  | read | seek | tell | isSeekable => exact .inr ⟨rfl, _, rfl⟩

/-- A call on a file is answered as its cursor answers it, unless it stumbles. -/
theorem op_stands {f : ZipFile} {v : View} (h : Stands X f.reader v) (z : Zip) (op : ZipFileOp) :
    v.stumbles op = false ∧ (op.run X z f).1 = (v.run op).1 ∧
        AsSeen X (op.run X z f).2.1 ((v.run op).2.map .cursor) ∨
      v.stumbles op = true ∧ (op.run X z f).1 = ⟨-1, []⟩ ∧
        AsSeen X (op.run X z f).2.1 (some (.cursor { v with checked := true })) := by
  cases op with
  | read buf call =>
    cases buf with
    | false => exact .inl ⟨rfl, rfl, .cursor _ v h⟩
    | true =>
      rcases fread_stands h call with ⟨hno, f', hf, hstands⟩ | ⟨hyes, f', hf, hstands⟩
      · refine .inl ⟨hno, ?_, ?_⟩
        · simp only [ZipFileOp.run, View.run, hf, ↓reduceIte]
        · simp only [ZipFileOp.run, View.run, hf, ↓reduceIte]
          exact .cursor f' _ hstands
      · refine .inr ⟨hyes, ?_, ?_⟩
        · simp only [ZipFileOp.run, hf]
        · simp only [ZipFileOp.run, hf]
          exact .cursor f' _ hstands
  | seek offset whence =>
    obtain ⟨hreturned, hbytes, hstands⟩ := fseek_stands h offset whence
    refine .inl ⟨rfl, ?_, .cursor _ _ hstands⟩
    simp only [ZipFileOp.run, View.run, hreturned, ← hbytes]
  | tell =>
    have htell : zipFtell f = v.cursor := by
      rw [zipFtell, EntryReader.position, h.sizeRead, asI64_of_lt h.cursor_lt]
    refine .inl ⟨rfl, ?_, .cursor _ _ h⟩
    simp only [ZipFileOp.run, View.run, htell]
  | isSeekable =>
    refine .inl ⟨rfl, ?_, .cursor _ _ h⟩
    simp only [ZipFileOp.run, View.run, zipFileIsSeekable, h.isSeekable]
  | close => exact .inl ⟨rfl, rfl, .gone⟩

/-! ## Opening -/

/-- A reader that was just opened on a content that passes its checks. -/
theorem fresh_stands {inner : Inner} {crc : UInt32} {size : UInt64} {check : Bool} {content : Vec}
    {seekable : Bool} (hserves : inner.Serves content.val 0 seekable) (hsize : content.val.length = size.toNat)
    (hcrc : check = true → X.crc32 content.val = crc) :
    Stands X (.fresh inner crc size check) { content, cursor := 0, seekable, checked := false } where
  serves := hserves
  cursor_le := Nat.zero_le _
  sizeRead := rfl
  size := hsize
  integrityErr := rfl
  checked := nofun
  unchecked _ := ⟨rfl, rfl, rfl, hcrc⟩

/-- A reader that was opened without a decoder holds all that it has to hand out. -/
theorem openZeroCopy_shows {a : Archive} {d : Dirent} {off : Nat} {o : Result EntryReader × Archive}
    (h : a.openZeroCopy X d off = some o) {r : EntryReader} (hr : o.1 = .ok r) :
    r.inner.Shows r.inner.remaining 0 := by
  simp only [Archive.openZeroCopy, Option.ite_none_right_eq_some] at h
  obtain ⟨-, h⟩ := h
  cases hs : a.openShared d off with
  | some r' =>
    rw [hs] at h
    cases h
    cases hr
    simp only [Archive.openShared, Option.ite_none_right_eq_some] at hs
    obtain ⟨-, hs⟩ := hs
    split at hs
    · rw [Option.ite_none_right_eq_some] at hs
      obtain ⟨hfits, hs⟩ := hs
      cases hs
      exact .shared 0 (Nat.le_add_right _ _) hfits rfl
    · cases hs
  | none =>
    rw [hs] at h
    simp only [Archive.openSlice] at h
    split at h
    · cases h
    · split at h
      · cases h
        cases hr
      · rw [Option.ite_none_right_eq_some] at h
        obtain ⟨-, h⟩ := h
        split at h
        · cases h
          cases hr
        · cases h
          cases hr
          exact .buffered 0 true

/-- Whether an entry with its data at `off` is decoded as a whole. -/
def wholeAt (src : Source) (d : Dirent) (off : Nat) : Bool :=
  d.zeroCopy && src.asSlice.isSome && decide (off + d.compSize.toNat < 2 ^ 64 ∧ off ≤ src.bytes.length)

theorem asSlice_of_sharedData {s : Source} {bs : Bytes} (h : s.sharedData = some bs) : s.asSlice.isSome := by
  obtain ⟨kind, bytes⟩ := s
  cases kind with
  | arc | mmap => rfl
  | vec | file | shared => cases h

theorem openShared_some {a : Archive} {d : Dirent} {off : Nat} {r : EntryReader} (h : a.openShared d off = some r) :
    a.src.asSlice.isSome ∧ off + d.compSize.toNat ≤ a.src.bytes.length := by
  simp only [Archive.openShared, Option.ite_none_right_eq_some] at h
  obtain ⟨-, h⟩ := h
  split at h
  · rename_i shared hshared
    rw [Option.ite_none_right_eq_some] at h
    rw [← Source.sharedData_eq hshared]
    exact ⟨asSlice_of_sharedData hshared, h.1⟩
  · cases h

/-- A sum that comes around is smaller than its first part. -/
theorem addUsize_cases {a b n : Nat} (hb : b < 2 ^ 64) (h : addUsize X a b = .ok n) :
    a + b < 2 ^ 64 ∧ n = a + b ∨ 2 ^ 64 ≤ a + b ∧ n < a := by
  unfold addUsize at h
  split at h
  · cases h
    exact .inl ⟨‹_›, rfl⟩
  · split at h
    · cases h
    · cases h
      refine .inr ⟨by omega, ?_⟩
      omega

theorem openSlice_cases (X : Extern) (a : Archive) (d : Dirent) (off : Nat) :
    a.openSlice X d off = none ∧
        ¬ (a.src.asSlice.isSome ∧ off + d.compSize.toNat < 2 ^ 64 ∧ off ≤ a.src.bytes.length) ∨
      ∃ res, a.openSlice X d off = some res ∧ ((∃ e, res.1 = .error e) ∨
        a.src.asSlice.isSome ∧ off + d.compSize.toNat < 2 ^ 64 ∧ off ≤ a.src.bytes.length) := by
  unfold Archive.openSlice
  cases hslice : a.src.asSlice with
  | none => exact .inl ⟨rfl, fun h => absurd h.1 Bool.false_ne_true⟩
  | some slice =>
    have hbytes : slice.length = a.src.bytes.length := by rw [Source.asSlice_eq hslice]
    dsimp only
    cases hsum : addUsize X off d.compSize.toNat with
    | error e => exact .inr ⟨_, rfl, .inl ⟨e, rfl⟩⟩
    | ok stop =>
      have hstop := addUsize_cases d.compSize.toNat_lt hsum
      dsimp only
      by_cases hle : off ≤ min stop slice.length
      · have hwithin : off + d.compSize.toNat < 2 ^ 64 ∧ off ≤ a.src.bytes.length := by omega
        rw [if_pos hle]
        split
        · exact .inr ⟨_, rfl, .inl ⟨_, rfl⟩⟩
        · exact .inr ⟨_, rfl, .inr ⟨rfl, hwithin⟩⟩
      · rw [if_neg hle]
        refine .inl ⟨rfl, fun h => ?_⟩
        omega

/-- An entry is opened without a decoder that streams just where it is decoded as a whole. -/
theorem openZeroCopy_cases {a : Archive} (hlen : a.src.bytes.length < 2 ^ 63) (X : Extern) (d : Dirent) (off : Nat) :
    a.openZeroCopy X d off = none ∧ wholeAt a.src d off = false ∨
      ∃ res, a.openZeroCopy X d off = some res ∧ ((∃ e, res.1 = .error e) ∨ wholeAt a.src d off = true) := by
  have hwhole : wholeAt a.src d off = true ↔ d.zeroCopy = true ∧ a.src.asSlice.isSome ∧
      off + d.compSize.toNat < 2 ^ 64 ∧ off ≤ a.src.bytes.length := by
    rw [wholeAt, Bool.and_eq_true, Bool.and_eq_true, decide_eq_true_eq, and_assoc]
  unfold Archive.openZeroCopy
  by_cases hzero : d.zeroCopy = true
  · rw [if_pos hzero]
    cases hshared : a.openShared d off with
    | some r =>
      obtain ⟨hslice, hfits⟩ := openShared_some hshared
      exact .inr ⟨_, rfl, .inr (hwhole.mpr ⟨hzero, hslice, by omega, by omega⟩)⟩
    | none =>
      rcases openSlice_cases X a d off with ⟨hnone, hno⟩ | ⟨res, hres, herror | hyes⟩
      · exact .inl ⟨hnone, Bool.eq_false_of_not_eq_true fun h => hno (hwhole.mp h).2⟩
      · exact .inr ⟨res, hres, .inl herror⟩
      · exact .inr ⟨res, hres, .inr (hwhole.mpr ⟨hzero, hyes⟩)⟩
  · rw [if_neg hzero]
    exact .inl ⟨rfl, Bool.eq_false_of_not_eq_true fun h => hzero (hwhole.mp h).1⟩

/-- A reader of an entry holds all of its content, or streams it. -/
theorem openDirent_serves {a : Archive} (hlen : a.src.bytes.length < 2 ^ 63) {index : Nat} {d : Dirent}
    {password : Option Bytes} {r : EntryReader} (h : (a.openDirent X index d password).1 = .ok r)
    (hno : r.inner.tailErr = none) :
    ∃ off, d.findDataOffset a.src = .ok off ∧ r.inner.Serves r.inner.remaining 0 (wholeAt a.src d off) := by
  simp only [Archive.openDirent] at h
  split at h
  · cases h
  · rename_i off hoff
    refine ⟨off, hoff, ?_⟩
    have hsrc : (a.cacheOffset index off).src = a.src := rfl
    rcases openZeroCopy_cases (a := a.cacheOffset index off) hlen X d off with ⟨hz, hwhole⟩ | ⟨res, hz, hwhole⟩
    · rw [hz] at h
      rw [← hsrc, hwhole]
      have hstreaming {dec : Decoded} (hinner : r.inner = .streaming dec) :
          r.inner.Serves r.inner.remaining 0 false := by
        obtain ⟨out, err⟩ := dec
        rw [hinner] at hno ⊢
        obtain rfl : err = none := hno
        exact .streamed
      rcases openStreaming_ok h with ⟨-, dec, rfl⟩ | ⟨-, dec, pw, rfl, -⟩
      · exact hstreaming rfl
      · exact hstreaming rfl
    · rw [hz] at h
      rw [← hsrc]
      rcases hwhole with ⟨e, he⟩ | hyes
      · cases he.symm.trans h
      · rw [hyes]
        exact .held (openZeroCopy_shows hz h)

/-- Whether an entry is decoded as a whole does not change when the archive is used. -/
theorem decodedWhole_grown {opened a : Archive} (hcache : opened.CacheOk) (hgrown : opened.Grown a) {index : Nat}
    {d : Dirent} (hd : a.entries[index]? = some d) {off : Nat} (hoff : d.findDataOffset a.src = .ok off) :
    wholeAt a.src d off = decodedWhole opened index := by
  have hentry : (opened.entries.map uncached)[index]? = some (uncached d) := by
    rw [← hgrown.entries, List.getElem?_map, hd]
    rfl
  rw [List.getElem?_map, Option.map_eq_some_iff] at hentry
  obtain ⟨d', hd', hsame⟩ := hentry
  have hoffset : d'.offset = d.offset := (congrArg Dirent.offset hsame :)
  have hoff' : d'.findDataOffset opened.src = .ok off := by
    rw [findDataOffset_eq hcache (List.mem_of_getElem? hd'), hoffset, ← hgrown.src,
      ← findDataOffset_eq (hgrown.cache hcache) (List.mem_of_getElem? hd)]
    exact hoff
  have hzero : d'.zeroCopy = d.zeroCopy := (congrArg Dirent.zeroCopy hsame :)
  have hsize : d'.compSize = d.compSize := (congrArg Dirent.compSize hsame :)
  rw [decodedWhole, hd', Option.any_some, hoff', wholeAt, hgrown.src, ← hzero, ← hsize]
  rfl

/-- The default password stands in for one that is not given. -/
theorem openDirent_resolve (a : Archive) (index : Nat) (d : Dirent) (password : Option Bytes) :
    (a.openDirent X index d password).1 =
      ({ a with password := none }.openDirent X index d (password.or a.password)).1 := by
  have hstream (a : Archive) (off : Nat) : a.openStreaming X d off password =
      { a with password := none }.openStreaming X d off (password.or a.password) := by
    simp only [Archive.openStreaming, Archive.openAes, Archive.openZipCrypto, Archive.resolvePassword,
      Option.or_none]
  have hzero (a : Archive) (off : Nat) : (a.openZeroCopy X d off).map (fun r => r.1) =
      (({ a with password := none } : Archive).openZeroCopy X d off).map fun r => r.1 :=
    @openZeroCopy_congr X a { a with password := none } d d rfl rfl off
  simp only [Archive.openDirent]
  cases d.findDataOffset a.src with
  | error e => rfl
  | ok off =>
    have hz := hzero (a.cacheOffset index off) off
    have hs := hstream (a.cacheOffset index off) off
    have hcache : { a.cacheOffset index off with password := none } =
        ({ a with password := none } : Archive).cacheOffset index off := rfl
    rw [hcache] at hz hs
    dsimp only
    cases hb : (a.cacheOffset index off).openZeroCopy X d off <;>
      cases ha : (({ a with password := none } : Archive).cacheOffset index off).openZeroCopy X d off <;>
      rw [hb, ha] at hz
    · exact hs
    · cases hz
    · cases hz
    · exact Option.some.inj hz

/-- An archive that was used opens an entry whose content is known as a file that holds it. -/
theorem content_opens {sched : Schedule} {opened a : Archive} (hlen : opened.src.bytes.length < 2 ^ 63)
    (hcache : opened.CacheOk) (hnone : opened.password = none) (hgrown : opened.Grown a) {index : Nat}
    {password : Option Bytes} {content : Vec}
    (hcontent : contentWith X sched opened index (password.or a.password) = some content) :
    (∀ sched', (a.readEntryWithPassword X sched' index password).1 = .ok content.val) ∧
      ∃ d r, a.entries[index]? = some d ∧ (a.openDirent X index d password).1 = .ok r ∧
        Stands X r { content, cursor := 0, seekable := decodedWhole opened index, checked := false } := by
  obtain ⟨v, hread, hv⟩ := bind_ok.mp (toOption_eq_some.mp hcontent)
  have hval := Vec.ofBytes_ok.mp hv
  rw [← hval] at hread
  have hplain (sched' : Schedule) : (({ a with password := none } : Archive).readEntryWithPassword X sched' index
      (password.or a.password)).1 = .ok content.val :=
    @readEntry_again X opened { a with password := none } hcache (hgrown.cache hcache) hgrown.src hgrown.entries
      hnone.symm sched sched' index _ _ hread
  have hopen (sched' : Schedule) : ∃ d inner crc size check, a.entries[index]? = some d ∧
      (a.openDirent X index d password).1 = .ok (.fresh inner crc size check) ∧
      content.val = inner.remaining ∧ inner.tailErr = none ∧ content.val.length = size.toNat ∧
        (check = true → X.crc32 content.val = crc) := by
    obtain ⟨d, inner, crc, size, check, hd, hdirent, hfresh⟩ := readEntry_fresh.mp (hplain sched')
    exact ⟨d, inner, crc, size, check, hd, by rw [openDirent_resolve, hdirent], hfresh⟩
  refine ⟨fun sched' => readEntry_fresh.mpr (hopen sched'), ?_⟩
  obtain ⟨d, inner, crc, size, check, hd, hdirent, hremaining, hno, hsize, hcrc⟩ := hopen sched
  obtain ⟨off, hoff, hserves⟩ := openDirent_serves (hgrown.src ▸ hlen) hdirent hno
  refine ⟨d, _, hd, hdirent, fresh_stands ?_ hsize hcrc⟩
  rw [hremaining, ← decodedWhole_grown hcache hgrown hd hoff]
  exact hserves

/-! ## The table -/

/-- The archive has what the table was made of, and the files stand at their cursors. -/
structure Serving (X : Extern) (sched : Schedule) (opened : Archive) (s : ZipFiles) (t : FileTable) : Prop where
  grown : opened.Grown s.zip.archive
  password : s.zip.archive.password = t.password
  names : t.names = opened.entries.map (·.filename)
  content : t.content = contentWith X sched opened
  whole : t.whole = decodedWhole opened
  length : s.files.length = t.files.length
  files : ∀ f : Nat, AsSeen X s.files[f]?.join t.files[f]?.join

/-- A use of the archive that leaves its default password. -/
structure Keeps (a a' : Archive) : Prop where
  grown : a.Grown a'
  password : a'.password = a.password

theorem keeps_openEntry (X : Extern) (a : Archive) (index : Nat) (password : Option Bytes) :
    Keeps a (a.openEntryWithPassword X index password).2 where
  grown := grown_openEntry X a index password
  password := by
    simp only [Archive.openEntryWithPassword]
    split
    · rfl
    · simp only [Archive.openDirent]
      split
      · rfl
      · split
        · rename_i res hz
          obtain ⟨-, ⟨pool, hpool⟩, -⟩ := openZeroCopy_some (show _ = some (res.1, res.2) from hz)
          rw [hpool]
          rfl
        · rfl

theorem keeps_dropReader (a : Archive) (r : EntryReader) : Keeps a (a.dropReader r) :=
  ⟨grown_dropReader a r, dropReader_password a r⟩

theorem keeps_readEntry (X : Extern) (sched : Schedule) (a : Archive) (index : Nat) (password : Option Bytes) :
    Keeps a (a.readEntryWithPassword X sched index password).2 := by
  have hopen := keeps_openEntry X a index password
  unfold Archive.readEntryWithPassword
  revert hopen
  cases a.openEntryWithPassword X index password with
  | mk o a' =>
    intro hopen
    cases o with
    | error e => exact hopen
    | ok r =>
      have hdrop := keeps_dropReader a' (r.readToEnd X sched).2
      exact ⟨hopen.grown.trans hdrop.grown, hdrop.password.trans hopen.password⟩

theorem run_password (X : Extern) (z : Zip) (c : ZipCall) :
    (c.run X z).2.archive.password = ZipCall.passwordAfter z.archive.password c := by
  have hedit {refuse : Option ZipErrorCode} {z' : Zip} (h : z'.archive = z.archive) :
      (z.edit refuse z').2.archive.password = z.archive.password := by
    rcases edit_cases z refuse z' with ⟨code, hfail⟩ | ⟨-, hok⟩
    · rw [hfail]
      rfl
    · rw [hok]
      exact congrArg _ h
  cases c with
  | fileAdd name source flags => exact congrArg _ (fileAdd_archive z name source flags)
  | dirAdd name =>
    exact congrArg _ ((dirAdd_pendingOnly z name).same (f := Zip.archive) (fun _ => rfl) fun _ _ => rfl)
  | rename index name =>
    rw [ZipCall.run, rename_eq_edit]
    exact hedit rfl
  | fileReplace index source =>
    rw [fileReplace_eq_edit]
    exact hedit rfl
  | setDefaultPassword password => cases password <;> rfl
  | setArchiveFlag flag value =>
    simp only [ZipCall.run, Zip.setArchiveFlag]
    repeat' split
    all_goals rfl
  | unchange index =>
    simp only [ZipCall.run, Zip.unchange]
    split <;> rfl
  | unchangeAll => rfl
  | unchangeArchive => rfl
  | openEntry index password => exact (keeps_openEntry X z.archive index password).password
  | readEntry sched index password => exact (keeps_readEntry X sched z.archive index password).password
  | _ => exact hedit rfl

section
variable {sched : Schedule} {opened : Archive} {s : ZipFiles} {t : FileTable}

/-- An opening of what is wanted: none if there is no such entry, and a file that stands at the start of the
content of the entry if that is known. -/
structure Opens (X : Extern) (sched : Schedule) (opened : Archive) (z : Zip) (wanted : Option (Nat × Option Bytes))
    (decodes : Bool) (r : Option ZipFile × Zip) : Prop where
  keeps : Keeps z.archive r.2.archive
  refused : wanted = none → r.1 = none
  served : ∀ index password content, wanted = some (index, password) →
    contentWith X sched opened index password = some content →
    ∃ f, r.1 = some f ∧ Stands X f.reader
      { content, cursor := 0, seekable := decodes || decodedWhole opened index, checked := false }

theorem Opens.none {z : Zip} {decodes : Bool} {r : Option ZipFile × Zip} (harchive : r.2.archive = z.archive)
    (hr : r.1 = none) : Opens X sched opened z none decodes r where
  keeps := harchive ▸ ⟨.refl _, rfl⟩
  refused _ := hr
  served := nofun

theorem Zip.setFault_archive (z : Zip) (e : Fault) : (z.setFault e).archive = z.archive := by
  cases e <;> rfl

/-- The entry that is asked for, if there is one. -/
def entryWanted (opened : Archive) (index : Nat) (password : Option Bytes) : Option (Nat × Option Bytes) :=
  if index < opened.entries.length then some (index, password) else .none

theorem entries_length {a b : Archive} (h : a.Grown b) : b.entries.length = a.entries.length := by
  have := congrArg List.length h.entries
  rwa [List.length_map, List.length_map] at this

theorem entryWanted_some {index index' : Nat} {password password' : Option Bytes}
    (h : entryWanted opened index password = some (index', password')) :
    index < opened.entries.length ∧ index' = index ∧ password' = password := by
  rw [entryWanted, Option.ite_none_right_eq_some] at h
  cases h.2
  exact ⟨h.1, rfl, rfl⟩

theorem entryWanted_none {index : Nat} {password : Option Bytes} (h : entryWanted opened index password = none)
    {a : Archive} (hgrown : opened.Grown a) : a.entries[index]? = none := by
  refine List.getElem?_eq_none (Nat.le_of_not_lt fun hlt => ?_)
  rw [entries_length hgrown] at hlt
  rw [entryWanted, if_pos hlt] at h
  cases h

theorem opens_index (hlen : opened.src.bytes.length < 2 ^ 63) (hcache : opened.CacheOk)
    (hnone : opened.password = none) {z : Zip} (hgrown : opened.Grown z.archive) (index : Nat) :
    Opens X sched opened z (entryWanted opened index z.archive.password) false (zipFopenIndex X z index) := by
  have hkeeps := keeps_openEntry X z.archive index none
  unfold zipFopenIndex Archive.openEntry
  refine ⟨?_, fun hw => ?_, fun index' password content hw hcontent => ?_⟩
  · revert hkeeps
    cases z.archive.openEntryWithPassword X index none with
    | mk o a =>
      intro hkeeps
      cases o with
      | error e =>
        dsimp only
        rw [Zip.setFault_archive]
        exact hkeeps
      | ok r => exact hkeeps
  · rw [Archive.openEntryWithPassword, entryWanted_none hw hgrown]
  · obtain ⟨-, rfl, rfl⟩ := entryWanted_some hw
    rw [← Option.none_or (o := z.archive.password)] at hcontent
    obtain ⟨-, d, r, hd, hopen, hstands⟩ := content_opens hlen hcache hnone hgrown hcontent
    have hout : (z.archive.openEntryWithPassword X index' none).1 = .ok r := by
      simp only [Archive.openEntryWithPassword, hd, hopen]
    revert hout
    cases z.archive.openEntryWithPassword X index' none with
    | mk o a =>
      intro hout
      dsimp only at hout
      subst hout
      exact ⟨makeZipfileReader r, rfl, hstands⟩

/-- A file of content that was read checks it again. -/
theorem makeZipfile_stands (Z : Zone) {sched' : Schedule} {a a' : Archive} (hkeeps : Keeps a a') {index : Nat}
    {password : Option Bytes} {content : Vec}
    (hread : (a.readEntryWithPassword X sched' index password).1 = .ok content.val) {z : Zip}
    (hz : z.archive = a') :
    ∃ f, makeZipfile Z z content.val index = (some f, z) ∧
      Stands X f.reader { content, cursor := 0, seekable := true, checked := false } := by
  obtain ⟨d, off, hd, -, hsize, hcrc, -⟩ := readEntry_ok hread
  obtain ⟨d', hd', hsame⟩ : ∃ d', a'.entries[index]? = some d' ∧ uncached d' = uncached d := by
    have hentry : (a'.entries.map uncached)[index]? = some (uncached d) := by
      rw [hkeeps.grown.entries, List.getElem?_map, hd]
      rfl
    rwa [List.getElem?_map, Option.map_eq_some_iff] at hentry
  have huncomp : d'.uncompSize = d.uncompSize := (congrArg Dirent.uncompSize hsame :)
  have hsum : d'.crc = d.crc := (congrArg Dirent.crc hsame :)
  have hmethod : d'.encryptionMethod = d.encryptionMethod := (congrArg Dirent.encryptionMethod hsame :)
  unfold makeZipfile Archive.stat Archive.dirent
  rw [hz, hd']
  dsimp only [Option.elim, Option.getD]
  refine ⟨_, rfl, ?_⟩
  by_cases haes : isAesMethod d'.encryptionMethod = true
  · rw [if_pos haes]
    exact fresh_stands (.held (.buffered 0 false)) (huncomp ▸ hsize) nofun
  · rw [if_neg haes]
    have hplain : opensAes d = false := by
      rw [opensAes, ← hmethod, Bool.eq_false_of_not_eq_true haes, Bool.and_false]
    exact fresh_stands (.held (.buffered 0 false)) (huncomp ▸ hsize) fun _ => hsum ▸ hcrc hplain

theorem makeZipfile_archive (Z : Zone) (z : Zip) (data : Bytes) (index : Nat) :
    (makeZipfile Z z data index).2.archive = z.archive := by
  unfold makeZipfile
  dsimp only
  split
  · rfl
  · exact Zip.setFault_archive _ _

theorem opens_decrypted (hlen : opened.src.bytes.length < 2 ^ 63) (hcache : opened.CacheOk)
    (hnone : opened.password = none) {z : Zip} (hgrown : opened.Grown z.archive) (Z : Zone) (sched' : Schedule)
    (index : Nat) (password : Bytes) :
    Opens X sched opened z (entryWanted opened index (some password)) true
      (openDecrypted X Z sched' z index password) := by
  have hkeeps := keeps_readEntry X sched' z.archive index (some password)
  unfold openDecrypted
  refine ⟨?_, fun hw => ?_, fun index' password' content hw hcontent => ?_⟩
  · revert hkeeps
    cases z.archive.readEntryWithPassword X sched' index (some password) with
    | mk o a =>
      intro hkeeps
      cases o with
      | error e =>
        dsimp only
        rw [Zip.setFault_archive]
        exact hkeeps
      | ok data =>
        dsimp only
        rw [makeZipfile_archive]
        exact hkeeps
  · simp only [Archive.readEntryWithPassword, Archive.openEntryWithPassword, entryWanted_none hw hgrown]
  · obtain ⟨-, rfl, rfl⟩ := entryWanted_some hw
    have hcontent : contentWith X sched opened index' ((some password).or z.archive.password) = some content :=
      hcontent
    obtain ⟨hread, -⟩ := content_opens hlen hcache hnone hgrown hcontent
    have hread := hread sched'
    revert hkeeps
    have hread' := hread
    revert hread'
    cases hout : z.archive.readEntryWithPassword X sched' index' (some password) with
    | mk o a =>
      intro hread' hkeeps
      dsimp only at hread'
      subst hread'
      obtain ⟨f, hf, hstands⟩ := makeZipfile_stands Z hkeeps hread (z := { z with archive := a }) rfl
      exact ⟨f, congrArg Prod.fst hf, hstands⟩

/-- Names are looked up in the archive as in the table. -/
theorem nameLocate_eq {a : Archive} (hgrown : opened.Grown a) (name : Str) :
    a.nameLocate name = (opened.entries.map (·.filename)).findIdx? (· == name) := by
  have hnames : a.entries.map (·.filename) = opened.entries.map (·.filename) := by
    have h := congrArg (List.map Dirent.filename) hgrown.entries
    rwa [List.map_map, List.map_map] at h
  rw [← hnames, List.findIdx?_map]
  rfl

theorem entryWanted_found {name : Str} {index : Nat}
    (h : (opened.entries.map (·.filename)).findIdx? (· == name) = some index) (password : Option Bytes) :
    entryWanted opened index password = some (index, password) := by
  obtain ⟨hlt, -⟩ := List.findIdx?_eq_some_iff_getElem.mp h
  rw [List.length_map] at hlt
  exact if_pos hlt

/-- Every opening of the interface is one of what is wanted. -/
theorem opens_run (hlen : opened.src.bytes.length < 2 ^ 63) (hcache : opened.CacheOk) (hnone : opened.password = none)
    (h : Serving X sched opened s t) (o : Opening) :
    Opens X sched opened s.zip (t.wanted o) o.decodes (o.run X s.zip) := by
  have hlocate := nameLocate_eq h.grown
  cases o with
  | byName name =>
    unfold Opening.run zipFopen FileTable.wanted
    dsimp only
    cases cStr name with
    | none => exact .none rfl rfl
    | some name =>
      rw [Option.bind_some, h.names, ← h.password]
      dsimp only
      cases hfind : (opened.entries.map (·.filename)).findIdx? (· == name) with
      | none =>
        rw [hlocate, hfind]
        exact .none rfl rfl
      | some index =>
        rw [hlocate, hfind, Option.map_some, ← entryWanted_found hfind]
        exact opens_index hlen hcache hnone h.grown index
  | byIndex index =>
    have hw : t.wanted (.byIndex index) = entryWanted opened index s.zip.archive.password := by
      rw [FileTable.wanted, h.names, List.length_map, ← h.password]
      rfl
    rw [hw]
    exact opens_index hlen hcache hnone h.grown index
  | encryptedByName Z sched' name password =>
    unfold Opening.run zipFopenEncrypted FileTable.wanted
    dsimp only
    cases cStr name with
    | none => exact .none rfl rfl
    | some name =>
      cases password with
      | none => exact .none rfl rfl
      | some pw =>
        rw [Option.bind_some, Option.bind_some, h.names]
        dsimp only
        cases hfind : (opened.entries.map (·.filename)).findIdx? (· == name) with
        | none =>
          rw [hlocate, hfind]
          exact .none rfl rfl
        | some index =>
          rw [hlocate, hfind, Option.map_some, ← entryWanted_found hfind]
          exact opens_decrypted hlen hcache hnone h.grown Z sched' index pw
  | encryptedByIndex Z sched' index password =>
    cases password with
    | none => exact .none rfl rfl
    | some pw =>
      have hw : t.wanted (.encryptedByIndex Z sched' index (some pw)) = entryWanted opened index (some pw) := by
        rw [FileTable.wanted, Option.bind_some, h.names, List.length_map]
        rfl
      rw [hw]
      exact opens_decrypted hlen hcache hnone h.grown Z sched' index pw

theorem op_keeps (z : Zip) (f : ZipFile) (op : ZipFileOp) : Keeps z.archive (op.run X z f).2.2.archive := by
  cases op with
  | close => exact keeps_dropReader z.archive f.reader
  | read | seek | tell | isSeekable => exact ⟨.refl _, rfl⟩

/-- A file that is opened, or not, and what is promised of it. -/
theorem Serving.append (h : Serving X sched opened s t) {z : Zip} (hkeeps : Keeps s.zip.archive z.archive)
    {file : Option ZipFile} {seen : Option OpenFile} (hseen : AsSeen X file seen) :
    Serving X sched opened { zip := z, files := s.files ++ [file] } { t with files := t.files ++ [seen] } where
  grown := h.grown.trans hkeeps.grown
  password := hkeeps.password.trans h.password
  names := h.names
  content := h.content
  whole := h.whole
  length := by rw [List.length_append, List.length_append, h.length]; rfl
  files f := by
    rw [join_append, join_append, h.length]
    split
    · exact hseen
    · exact h.files f

/-- A call on a file changes that file alone. -/
theorem Serving.set (h : Serving X sched opened s t) {z : Zip} (hkeeps : Keeps s.zip.archive z.archive) (f : Nat)
    {left : Option ZipFile} {seen : Option OpenFile} (hseen : AsSeen X left seen) :
    Serving X sched opened { zip := z, files := s.files.set f left } { t with files := t.files.set f seen } where
  grown := h.grown.trans hkeeps.grown
  password := hkeeps.password.trans h.password
  names := h.names
  content := h.content
  whole := h.whole
  length := by rw [List.length_set, List.length_set, h.length]
  files g := by
    rw [join_set, join_set, h.length]
    split
    · exact hseen
    · exact h.files g

/-- A step of the archive and its files is one that the table allows. -/
theorem serving_step (hlen : opened.src.bytes.length < 2 ^ 63) (hcache : opened.CacheOk)
    (hnone : opened.password = none) (h : Serving X sched opened s t) (c : ZipFileCall) :
    ∃ t', t.Step c (s.step X c).2 t' ∧ Serving X sched opened (s.step X c).1 t' := by
  cases c with
  | call c =>
    obtain ⟨calls, hcalls⟩ := run_archive X s.zip c
    refine ⟨_, .called t c _, ?_, ?_, h.names, h.content, h.whole, h.length, h.files⟩
    · show opened.Grown (c.run X s.zip).2.archive
      rw [hcalls]
      exact h.grown.trans (grown_after X calls _)
    · show (c.run X s.zip).2.archive.password = _
      rw [run_password, h.password]
  | «open» o =>
    have hopens := opens_run hlen hcache hnone h o
    unfold ZipFiles.step
    dsimp only
    cases hw : t.wanted o with
    | none =>
      rw [hopens.refused hw]
      exact ⟨_, .refused t o hw, h.append hopens.keeps .gone⟩
    | some wanted =>
      obtain ⟨index, password⟩ := wanted
      cases hc : t.content index password with
      | none =>
        cases hfile : (o.run X s.zip).1 with
        | none => exact ⟨_, .unreadable t o index password none hw hc (.inl rfl), h.append hopens.keeps .gone⟩
        | some f =>
          exact ⟨_, .unreadable t o index password (some .unreadable) hw hc (.inr rfl),
            h.append hopens.keeps (.unreadable f)⟩
      | some content =>
        obtain ⟨f, hf, hstands⟩ := hopens.served index password content hw (h.content ▸ hc)
        rw [hf]
        refine ⟨_, .opened t o index password content hw hc, h.append hopens.keeps ?_⟩
        rw [h.whole]
        exact .cursor f _ hstands
  | file f op =>
    have hfile := h.files f
    unfold ZipFiles.step
    dsimp only
    generalize hf : s.files[f]?.join = file, hv : t.files[f]?.join = seen at hfile
    cases hfile with
    | gone => exact ⟨t, .absent t f op hv, h⟩
    | unreadable file =>
      dsimp only
      rcases op_left (X := X) s.zip file op with ⟨hcloses, hreply, hleft⟩ | ⟨hopen, file', hleft⟩
      · have hserving := h.set (op_keeps (X := X) s.zip file op) f .gone
        rw [hreply, hleft]
        exact ⟨_, .closed t f op hv hcloses, hserving⟩
      · have hserving := h.set (op_keeps (X := X) s.zip file op) f (.unreadable file')
        have hset : t.files.set f (some .unreadable) = t.files := by rw [← hv, set_join]
        rw [hset] at hserving
        rw [hleft]
        exact ⟨t, .unknown t f op _ hv hopen, hserving⟩
    | cursor file v hstands =>
      dsimp only
      rcases op_stands hstands s.zip op with ⟨hop, hreply, hseen⟩ | ⟨hop, hreply, hseen⟩
      · rw [hreply]
        exact ⟨_, .answered t f op v hv hop, h.set (op_keeps s.zip file op) f hseen⟩
      · rw [hreply]
        exact ⟨_, .stumbled t f op v hv hop, h.set (op_keeps s.zip file op) f hseen⟩

end

/-- In any run of calls on an archive that was just opened, on its entries and on the files that are opened on
them, every file is a cursor in the content of its entry: it reads in pieces of any size what lies behind the
cursor, but for an empty read that stumbles, seeks and tells where it should, and is not told of any call on the
archive or on another file. -/
theorem files_follow (X : Extern) (sched : Schedule) {kind : SourceKind} {bytes : Vec} {a : Archive}
    (hopen : Archive.open { kind, bytes := bytes.val } = .ok a) (flags : Int32) (calls : List ZipFileCall) :
    Allows FileTable.Step (tableOf X sched a) calls
      (outputs (ZipFiles.step X) { zip := makeZip a flags, files := [] } calls) := by
  have hstart : Serving X sched a { zip := makeZip a flags, files := [] } (tableOf X sched a) :=
    ⟨.refl a, (open_parts hopen).2.2, rfl, rfl, rfl, rfl, fun _ => .gone⟩
  have hlen : a.src.bytes.length < 2 ^ 63 := by
    rw [(open_parts hopen).1]
    exact bytes.property
  exact allows_of_simulation (R := Serving X sched a)
    (fun _ _ c h => serving_step hlen (open_cacheOk hopen) (open_parts hopen).2.2 h c) hstart calls

/-- Two files on one entry, one of which is sought in and read while the entry is deleted. -/
def twoReaders : List ZipFileCall :=
  [.open (.byIndex 0), .open (.byName (some [0x61])), .file 0 (.read true ⟨1, 0⟩), .call (.delete 0),
    .file 1 (.seek (-1) seekEnd), .file 1 (.read true ⟨8, 0⟩), .file 0 (.read true ⟨0, 0⟩),
    .file 0 (.read true ⟨8, 0⟩), .file 1 .close, .file 0 .tell]

theorem files_follow_sample : ∃ a, Archive.open { kind := .vec, bytes := sampleArchive } = .ok a ∧
    (contentWith reference bytewise a 0 none).map (·.val) = some [0x68, 0x69] ∧
    Allows FileTable.Step (tableOf reference bytewise a) twoReaders
      (outputs (ZipFiles.step reference) { zip := makeZip a 0, files := [] } twoReaders) := by
  obtain ⟨a, ha, hp⟩ := exists_ok (x := Archive.open { kind := .vec, bytes := sampleArchive })
    (p := fun a => decide ((contentWith reference bytewise a 0 none).map (·.val) = some [0x68, 0x69]))
    (by decide +kernel)
  have hopen : Archive.open { kind := .vec, bytes := (⟨sampleArchive, by decide +kernel⟩ : Vec).val } = .ok a := ha
  exact ⟨a, ha, of_decide_eq_true hp, files_follow reference bytewise hopen 0 twoReaders⟩

end Kzip.Impl
