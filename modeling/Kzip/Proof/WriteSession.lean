import Kzip.Lib.Except
import Kzip.Spec.WriteSession

/-!
# Write sessions

Each call does to a source what it does to the abstract one (`call_follows`), so that over any sequence of
calls (`source_follows`) the content changes at a commit only, and then to the base of the session with its
writes (`Store.content_step`).
-/

namespace Kzip.Impl

open Lib Kzip.Spec

variable {X : Extern}

/-! ## Signed integers -/

/-- A sum of a cursor and an offset; past the largest `i64` it panics or turns negative. -/
theorem addI64_cursor {a : Nat} (ha : a < 2 ^ 63) (offset : Int64) :
    ((a + offset.toInt < 2 ^ 63 ∧ addI64 X (asI64 a) offset.toInt = .ok (a + offset.toInt)) ∨
      2 ^ 63 ≤ a + offset.toInt ∧ (addI64 X (asI64 a) offset.toInt = .error .panic ∨
        ∃ n < 0, addI64 X (asI64 a) offset.toInt = .ok n)) := by
  have hlow := offset.le_toInt
  have hhigh := offset.toInt_lt
  rw [asI64_of_lt ha, addI64]
  by_cases hfits : a + offset.toInt < 2 ^ 63
  · exact .inl ⟨hfits, if_pos (by omega)⟩
  · refine .inr ⟨by omega, ?_⟩
    rw [if_neg (by omega)]
    by_cases hchecks : X.overflowChecks
    · exact .inl (if_pos hchecks)
    · refine .inr ⟨_, ?_, if_neg hchecks⟩
      rw [Int.bmod_def, Int.emod_eq_of_lt (by omega) (by omega), if_neg (by omega)]
      omega

/-! ## Seeking -/

section
variable {whence : Int32} {offset : Int64} {cursor : UInt64} {size : Nat}

/-- The target of a seek is computed; if it is too large, the sum panics or turns negative. -/
theorem seekTarget_cases (hcursor : cursor.toNat < 2 ^ 63) (hsize : size < 2 ^ 63) :
    (target whence offset cursor.toNat size = none ∧
      seekTarget X whence offset cursor size = .ok none) ∨
    ∃ n, target whence offset cursor.toNat size = some n ∧
      ((n < 2 ^ 63 ∧ seekTarget X whence offset cursor size = .ok (some n)) ∨
        2 ^ 63 ≤ n ∧ (seekTarget X whence offset cursor size = .error .panic ∨
          ∃ m < 0, seekTarget X whence offset cursor size = .ok (some m))) := by
  have hsum {a : Nat} (ha : a < 2 ^ 63) : ∃ n, some (a + offset.toInt) = some n ∧
      ((n < 2 ^ 63 ∧ (addI64 X (asI64 a) offset.toInt).map some = .ok (some n)) ∨
        2 ^ 63 ≤ n ∧ ((addI64 X (asI64 a) offset.toInt).map some = .error .panic ∨
          ∃ m < 0, (addI64 X (asI64 a) offset.toInt).map some = .ok (some m))) := by
    refine ⟨_, rfl, ?_⟩
    rcases addI64_cursor (X := X) ha offset with ⟨hlt, h⟩ | ⟨hge, h | ⟨m, hm, h⟩⟩ <;> rw [h]
    · exact .inl ⟨hlt, rfl⟩
    · exact .inr ⟨hge, .inl rfl⟩
    · exact .inr ⟨hge, .inr ⟨m, hm, rfl⟩⟩
  unfold seekTarget target
  by_cases hset : whence = seekSet
  · rw [if_pos hset, if_pos hset]
    exact .inr ⟨_, rfl, .inl ⟨offset.toInt_lt, rfl⟩⟩
  rw [if_neg hset, if_neg hset]
  by_cases hcur : whence = seekCur
  · rw [if_pos hcur, if_pos hcur]
    exact .inr (hsum hcursor)
  rw [if_neg hcur, if_neg hcur]
  by_cases hend : whence = seekEnd
  · rw [if_pos hend, if_pos hend]
    exact .inr (hsum hsize)
  · rw [if_neg hend, if_neg hend]
    exact .inl ⟨rfl, rfl⟩

/-- A seek succeeds exactly when its target can be reached. -/
theorem seekTarget_iff (hcursor : cursor.toNat < 2 ^ 63) (hsize : size < 2 ^ 63) :
    (∃ n, target whence offset cursor.toNat size = some n ∧ 0 ≤ n ∧ n < 2 ^ 63 ∧
      seekTarget X whence offset cursor size = .ok (some n)) ∨
    ¬ Reached (target whence offset cursor.toNat size) ∧
      (seekTarget X whence offset cursor size = .error .panic ∨
        seekTarget X whence offset cursor size = .ok none ∨
        ∃ m < 0, seekTarget X whence offset cursor size = .ok (some m)) := by
  rcases @seekTarget_cases X whence offset cursor size hcursor hsize with
    ⟨ht, hs⟩ | ⟨n, ht, ⟨hlt, hs⟩ | ⟨hge, hs⟩⟩
  · exact .inr ⟨by simp [Reached, ht], .inr (.inl hs)⟩
  · by_cases hn : 0 ≤ n
    · exact .inl ⟨n, ht, hn, hlt, hs⟩
    · refine .inr ⟨?_, .inr (.inr ⟨n, by omega, hs⟩)⟩
      rintro ⟨m, hm, hm', -⟩
      cases ht.symm.trans hm
      exact hn hm'
  · refine .inr ⟨?_, hs.imp_right .inr⟩
    rintro ⟨m, hm, -, hm'⟩
    cases ht.symm.trans hm
    omega

end

/-! ## The invariant -/

/-- The source is in the state of the store, and no cursor has gone out of bounds. -/
structure Mirrors (s : MemorySource) (t : Store) : Prop where
  repr : Represents s t
  not_layered : s.isLayered = false
  pos_le : t.pos ≤ t.content.length
  cursor_lt : ∀ u, t.session = some u → u.cursor < 2 ^ 63

/-- What a call does: as `CallFollows`, with the invariant kept. -/
structure Steps (X : Extern) (s : MemorySource) (t : Store) (call : SourceCall) : Prop where
  accepted : t.accepts call → (s.call X call).1 = ((t.returns call : Int), t.reads call) ∧
    Mirrors (s.call X call).2 (t.apply call)
  refused : ¬ t.accepts call → (s.call X call).1 = (-1, []) ∧ Mirrors (s.call X call).2 t

section
variable {s : MemorySource} {t : Store}

theorem Mirrors.setErr (h : Mirrors s t) (code : ZipErrorCode) : Mirrors (s.setErr code) t :=
  ⟨⟨h.repr.content, h.repr.pos, h.repr.session, h.repr.write_open⟩, h.not_layered, h.pos_le, h.cursor_lt⟩

/-- The flag, the pending buffer and the session go together. -/
theorem Mirrors.session_cases (h : Mirrors s t) :
    (s.writeOpen = false ∧ s.pending = none ∧ t.session = none) ∨
    ∃ pw u, s.writeOpen = true ∧ s.pending = some pw ∧ t.session = some u ∧ pw.out.val = u.bytes ∧
      pw.offset.toNat = u.cursor ∧ u.cursor < 2 ^ 63 := by
  have hopen := h.repr.write_open
  have hsession := h.repr.session
  cases hp : s.pending with
  | none =>
    rw [hp] at hopen hsession
    exact .inl ⟨hopen, rfl, Option.map_eq_none_iff.mp hsession.symm⟩
  | some pw =>
    rw [hp] at hopen hsession
    obtain ⟨u, hu, hpair⟩ := Option.map_eq_some_iff.mp hsession.symm
    obtain ⟨hbytes, hcursor⟩ := Prod.mk.inj hpair
    exact .inr ⟨pw, u, hopen, rfl, hu, hbytes.symm, hcursor.symm, h.cursor_lt u hu⟩

theorem Mirrors.content_lt (h : Mirrors s t) : t.content.length < 2 ^ 63 := h.repr.content ▸ s.data.property

/-! ## Reading -/

theorem steps_open (h : Mirrors s t) : Steps X s t .open := by
  refine ⟨fun _ => ⟨rfl, ⟨h.repr.content, rfl, h.repr.session, h.repr.write_open⟩, h.not_layered,
    Nat.zero_le _, h.cursor_lt⟩, fun hno => absurd trivial hno⟩

/-- A read moves the cursor over the bytes that it finds. -/
theorem MemorySource.read_pos (s : MemorySource) (len : UInt64) :
    (s.read len).2.pos.toNat = s.pos.toNat + min (s.data.val.length - s.pos.toNat) len.toNat := by
  have hlen := s.data.property
  have hpos := UInt64.toNat_lt s.pos
  show (s.pos + UInt64.ofNat _).toNat = _
  rw [UInt64.toNat_add, UInt64.toNat_ofNat']
  omega

theorem steps_read (h : Mirrors s t) (len : UInt64) : Steps X s t (.read len) := by
  refine ⟨fun _ => ?_, fun hno => absurd trivial hno⟩
  have hcontent := h.content_lt
  have hpos := h.pos_le
  have hbs : (s.data.val.drop s.pos.toNat).take (min (s.data.val.length - s.pos.toNat) len.toNat) =
      (t.content.drop t.pos).take len.toNat := by
    rw [h.repr.content, h.repr.pos, List.take_eq_take_iff, List.length_drop]
    omega
  have hlen : ((t.content.drop t.pos).take len.toNat).length =
      min (t.content.length - t.pos) len.toNat := by
    rw [List.length_take, List.length_drop, Nat.min_comm]
  have hret : asI64 ((t.content.drop t.pos).take len.toNat).length =
      (min (t.content.length - t.pos) len.toNat : Nat) := by
    rw [hlen, asI64_of_lt (by omega)]
  simp only [MemorySource.call, zipSourceRead, MemorySource.read, hbs, hret]
  refine ⟨rfl, ?_⟩
  rw [if_neg (by omega)]
  refine ⟨⟨h.repr.content, ?_, h.repr.session, h.repr.write_open⟩, h.not_layered, ?_, h.cursor_lt⟩
  · show (s.read len).2.pos.toNat = _
    rw [s.read_pos, h.repr.content, h.repr.pos]
    rfl
  · show t.pos + min (t.content.length - t.pos) len.toNat ≤ t.content.length
    omega

theorem steps_seek (h : Mirrors s t) (offset : Int64) (whence : Int32) :
    Steps X s t (.seek offset whence) := by
  have hcontent := h.content_lt
  have hpos := h.pos_le
  have hseek := @seekTarget_iff X whence offset s.pos s.data.val.length (by rw [h.repr.pos]; omega)
    s.data.property
  rw [h.repr.pos, h.repr.content] at hseek
  rcases hseek with ⟨n, ht, hn, hlt, hs⟩ | ⟨hno, hs⟩
  · refine ⟨fun _ => ?_, fun hno => absurd ⟨n, ht, hn, hlt⟩ hno⟩
    simp only [MemorySource.call, zipSourceSeek, MemorySource.seek, h.repr.content, hs,
      if_neg (Int.not_lt.mpr hn), guarded, Int.lt_irrefl, ↓reduceIte]
    refine ⟨rfl, ⟨h.repr.content, ?_, h.repr.session, h.repr.write_open⟩, h.not_layered, ?_, h.cursor_lt⟩
    · rw [toNat_min, UInt64.toNat_ofNat_of_lt' (show _ < 2 ^ 64 by omega),
        UInt64.toNat_ofNat_of_lt' (show _ < 2 ^ 64 by omega), Store.apply, ht, Option.getD_some]
    · exact Nat.min_le_right _ _
  · refine ⟨fun hyes => absurd hyes hno, fun _ => ?_⟩
    rcases hs with hs | hs | ⟨m, hm, hs⟩
    · simp only [MemorySource.call, zipSourceSeek, MemorySource.seek, h.repr.content, hs, guarded]
      exact ⟨rfl, h⟩
    · simp only [MemorySource.call, zipSourceSeek, MemorySource.seek, h.repr.content, hs, guarded]
      exact ⟨rfl, h.setErr _⟩
    · simp only [MemorySource.call, zipSourceSeek, MemorySource.seek, h.repr.content, hs, if_pos hm,
        guarded]
      exact ⟨rfl, h.setErr _⟩

/-! ## Starting a session -/

/-- The state after a session is started. -/
theorem Mirrors.start (h : Mirrors s t) {pw : PendingWrite} {u : Session} (hbytes : pw.out.val = u.bytes)
    (hcursor : pw.offset.toNat = u.cursor) (hlt : u.cursor < 2 ^ 63) :
    Mirrors { s with pending := some pw, writeOpen := true } { t with session := some u } := by
  refine ⟨⟨h.repr.content, h.repr.pos, ?_, rfl⟩, h.not_layered, h.pos_le, ?_⟩
  · show some (pw.out.val, pw.offset.toNat) = some (u.bytes, u.cursor)
    rw [hbytes, hcursor]
  · intro v hv
    cases hv
    exact hlt

theorem steps_beginWrite (h : Mirrors s t) : Steps X s t .beginWrite := by
  have hlayered : ¬ s.isLayered = true := by simp [h.not_layered]
  rcases h.session_cases with ⟨hclosed, -, hsession⟩ | ⟨pw, u, hopen, -, hsession, -⟩
  · refine ⟨fun _ => ?_, fun hno => absurd hsession hno⟩
    have hcall : zipSourceBeginWrite s =
        (0, { s with pending := some .default, writeOpen := true }.setErr .ok) := by
      rw [zipSourceBeginWrite, if_neg hlayered, if_neg (by simp [hclosed])]
      rfl
    have hstart : Mirrors { s with pending := some .default, writeOpen := true }
        { t with session := some { base := [], writes := [], cursor := 0 } } := h.start rfl rfl (by decide)
    rw [MemorySource.call, hcall]
    exact ⟨rfl, hstart.setErr .ok⟩
  · refine ⟨fun hyes => ?_, fun _ => ?_⟩
    · rw [Store.accepts, hsession] at hyes
      cases hyes
    · rw [MemorySource.call, zipSourceBeginWrite, if_neg hlayered, if_pos hopen]
      exact ⟨rfl, h.setErr _⟩

theorem steps_beginWriteCloning (h : Mirrors s t) (n : UInt64) : Steps X s t (.beginWriteCloning n) := by
  have hlayered : ¬ s.isLayered = true := by simp [h.not_layered]
  rcases h.session_cases with ⟨hclosed, -, hsession⟩ | ⟨pw, u, hopen, -, hsession, -⟩
  · by_cases hn : n.toNat ≤ s.data.val.length
    · refine ⟨fun _ => ?_, fun hno => absurd ⟨hsession, h.repr.content ▸ hn⟩ hno⟩
      have hcall : zipSourceBeginWriteCloning s n = (0, { s with
          pending := some { out := ⟨s.data.val.take n.toNat,
            Nat.lt_of_le_of_lt (List.length_take_le' _ _) s.data.property⟩, offset := n },
          writeOpen := true }) := by
        rw [zipSourceBeginWriteCloning, if_neg hlayered, if_neg (by simp [hclosed]),
          MemorySource.beginWriteCloning, if_neg (Nat.not_lt.mpr hn)]
        rfl
      rw [MemorySource.call, hcall]
      refine ⟨rfl, h.start ?_ rfl (Nat.lt_of_le_of_lt hn s.data.property)⟩
      show s.data.val.take n.toNat = t.content.take n.toNat
      rw [h.repr.content]
    · refine ⟨fun hyes => absurd (h.repr.content ▸ hyes.2) hn, fun _ => ?_⟩
      rw [MemorySource.call, zipSourceBeginWriteCloning, if_neg hlayered, if_neg (by simp [hclosed]),
        MemorySource.beginWriteCloning, if_pos (Nat.lt_of_not_le hn)]
      exact ⟨rfl, h.setErr _⟩
  · refine ⟨fun hyes => ?_, fun _ => ?_⟩
    · rw [Store.accepts, hsession] at hyes
      cases hyes.1
    · rw [MemorySource.call, zipSourceBeginWriteCloning, if_neg hlayered, if_pos hopen]
      exact ⟨rfl, h.setErr _⟩

/-! ## Writing -/

/-- A write splices its bytes into the pending buffer, unless that grows too large. -/
theorem PendingWrite.write_cases (pw : PendingWrite) {bs : Bytes} {len : UInt64}
    (hlen : len.toNat = bs.length) (hbs : bs.length < 2 ^ 63) (hcursor : pw.offset.toNat < 2 ^ 63) :
    ((splice 0 pw.out.val pw.offset.toNat bs).length < 2 ^ 63 ∧ ∃ pw', pw.write bs len = .ok pw' ∧
      pw'.out.val = splice 0 pw.out.val pw.offset.toNat bs ∧
      pw'.offset.toNat = pw.offset.toNat + bs.length) ∨
    ¬ (splice 0 pw.out.val pw.offset.toNat bs).length < 2 ^ 63 ∧ pw.write bs len = .error .panic := by
  have hstop : (saturatingAddU64 pw.offset len).toNat = pw.offset.toNat + bs.length := by
    rw [saturatingAddU64, hlen, Nat.min_eq_left (by omega),
      UInt64.toNat_ofNat_of_lt' (show _ < 2 ^ 64 by omega)]
  have hgrown : (if pw.offset.toNat + bs.length > pw.out.val.length
      then padTo 0 (pw.offset.toNat + bs.length) pw.out.val else pw.out.val) =
      padTo 0 (pw.offset.toNat + bs.length) pw.out.val := by
    split
    · rfl
    · exact (padTo_of_le 0 (by omega)).symm
  rw [PendingWrite.write]
  simp only [hstop, hgrown, splice_padTo, Vec.ofBytes]
  by_cases hfits : (splice 0 pw.out.val pw.offset.toNat bs).length < 2 ^ 63
  · rw [dif_pos hfits]
    exact .inl ⟨hfits, _, rfl, rfl, hstop⟩
  · rw [dif_neg hfits]
    exact .inr ⟨hfits, rfl⟩

theorem Session.bytes_write (u : Session) (bs : Bytes) :
    (u.write bs).bytes = splice 0 u.bytes u.cursor bs := by
  rw [Session.bytes, Session.write, List.foldl_append]
  rfl

/-- The pending buffer is replaced. -/
theorem Mirrors.replace (h : Mirrors s t) {pw pw' : PendingWrite} {u' : Session}
    (hpending : s.pending = some pw) (hbytes : pw'.out.val = u'.bytes)
    (hcursor : pw'.offset.toNat = u'.cursor) (hlt : u'.cursor < 2 ^ 63) :
    Mirrors { s with pending := some pw' } { t with session := some u' } := by
  have hopen : s.writeOpen = true := by rw [h.repr.write_open, hpending]; rfl
  have hstart := h.start hbytes hcursor hlt
  rwa [← hopen] at hstart

/-- A write that the backend gets to. -/
theorem steps_written (h : Mirrors s t) {pw : PendingWrite} {u : Session} (hpending : s.pending = some pw)
    (hsession : t.session = some u) (hout : pw.out.val = u.bytes) (hoffset : pw.offset.toNat = u.cursor)
    (hcursor : u.cursor < 2 ^ 63) {data : WriteData} {len : UInt64}
    (hlen : len.toNat = (WriteData.toBytes data).length)
    (hbs : (WriteData.toBytes data).length < 2 ^ 63) (hdata : ∀ len, data = .null len → len = 0)
    (hok : ∀ pw', pw.write (WriteData.toBytes data) len = .ok pw' →
      zipSourceWrite s data = (((WriteData.toBytes data).length : Int), { s with pending := some pw' }))
    (herror : ∀ e, pw.write (WriteData.toBytes data) len = .error e → zipSourceWrite s data = (-1, s)) :
    Steps X s t (.write data) := by
  rcases pw.write_cases hlen hbs (hoffset ▸ hcursor) with ⟨hfits, pw', hpw, hout', hoffset'⟩ | ⟨hbig, hpw⟩
  · rw [hout, hoffset] at hfits hout'
    have happly : t.apply (.write data) = { t with session := some (u.write (WriteData.toBytes data)) } := by
      rw [Store.apply, hsession]
      rfl
    refine ⟨fun _ => ?_, fun hno => absurd ⟨u, hsession, hdata, hfits⟩ hno⟩
    rw [MemorySource.call, hok pw' hpw, happly]
    refine ⟨rfl, h.replace hpending (by rw [hout', Session.bytes_write]) (by rw [hoffset', hoffset]; rfl) ?_⟩
    rw [length_splice] at hfits
    exact Nat.lt_of_le_of_lt (Nat.le_max_right _ _) hfits
  · rw [hout, hoffset] at hbig
    refine ⟨fun hyes => ?_, fun _ => ?_⟩
    · obtain ⟨v, hv, -, hfits⟩ := hyes
      cases hsession.symm.trans hv
      exact absurd hfits hbig
    · rw [MemorySource.call, herror _ hpw]
      exact ⟨rfl, h⟩

theorem steps_write (h : Mirrors s t) (data : WriteData) : Steps X s t (.write data) := by
  rcases h.session_cases with ⟨hclosed, -, hsession⟩ |
    ⟨pw, u, hopen, hpending, hsession, hout, hoffset, hcursor⟩
  · refine ⟨fun hyes => ?_, fun _ => ?_⟩
    · obtain ⟨u, hu, -⟩ := hyes
      cases hsession.symm.trans hu
    · rw [MemorySource.call, zipSourceWrite, if_pos (by simp [hclosed])]
      exact ⟨rfl, h.setErr _⟩
  have hnotclosed : ¬ (!s.writeOpen) = true := by simp [hopen]
  rcases data with len | bs
  · by_cases hzero : len = 0
    · subst hzero
      refine steps_written h hpending hsession hout hoffset hcursor (show (0 : UInt64).toNat = 0 from rfl) (by decide)
        (fun len hlen => by cases hlen; rfl) ?_ ?_
      · intro pw' hpw
        rw [WriteData.toBytes] at hpw
        rw [zipSourceWrite, if_neg hnotclosed, MemorySource.write, hpending]
        simp only [hpw, asI64_of_lt (show (0 : UInt64).toNat < 2 ^ 63 by decide)]
        rfl
      · intro e hpw
        rw [WriteData.toBytes] at hpw
        rw [zipSourceWrite, if_neg hnotclosed, MemorySource.write, hpending]
        simp only [hpw]
        rfl
    · have hpos : len > 0 := UInt64.pos_iff_ne_zero.mpr hzero
      refine ⟨fun hyes => ?_, fun _ => ?_⟩
      · obtain ⟨-, -, hnull, -⟩ := hyes
        exact absurd (hnull len rfl) hzero
      · have hcall : zipSourceWrite s (.null len) = (-1, (s.setErr .inval).setErr .write) := by
          rw [zipSourceWrite, if_neg hnotclosed, MemorySource.write, hpending]
          simp only [if_pos hpos]
          rfl
        rw [MemorySource.call, hcall]
        exact ⟨rfl, (h.setErr _).setErr _⟩
  · refine steps_written h hpending hsession hout hoffset hcursor
      (UInt64.toNat_ofNat_of_lt' (Nat.lt_trans bs.property (by decide))) bs.property (by simp) ?_ ?_
    · intro pw' hpw
      rw [WriteData.toBytes] at hpw
      rw [zipSourceWrite, if_neg hnotclosed, MemorySource.write, hpending]
      simp only [hpw, asI64_of_lt bs.property, if_neg (Int.not_lt.mpr (Int.natCast_nonneg _))]
      rfl
    · intro e hpw
      rw [WriteData.toBytes] at hpw
      rw [zipSourceWrite, if_neg hnotclosed, MemorySource.write, hpending]
      simp only [hpw]

/-- A seek in an open session reaches its target, or fails and leaves the session alone. -/
theorem steps_seekTarget (h : Mirrors s t) {pw : PendingWrite} {u : Session} (hpending : s.pending = some pw)
    (hsession : t.session = some u) (hout : pw.out.val = u.bytes) (hoffset : pw.offset.toNat = u.cursor)
    (hcursor : u.cursor < 2 ^ 63) {offset : Int64} {whence : Int32} (hlayered : ¬ s.isLayered = true)
    (hpass : ¬ ((!s.writeOpen) = true ∨ whence ≠ seekSet ∧ whence ≠ seekCur ∧ whence ≠ seekEnd)) :
    Steps X s t (.seekWrite offset whence) := by
  have haccepts : t.accepts (.seekWrite offset whence) ↔
      Reached (target whence offset u.cursor u.bytes.length) := by
    rw [Store.accepts]
    constructor
    · rintro ⟨v, hv, hreached⟩
      cases hsession.symm.trans hv
      exact hreached
    · exact fun hreached => ⟨u, hsession, hreached⟩
  have hseek := @seekTarget_iff X whence offset pw.offset pw.out.val.length (hoffset ▸ hcursor)
    pw.out.property
  rw [hoffset, hout, ← haccepts] at hseek
  rcases hseek with ⟨n, ht, hn, hlt, hs⟩ | ⟨hno, hs⟩
  · have happly : t.apply (.seekWrite offset whence) =
        { t with session := some { u with cursor := n.toNat } } := by
      rw [Store.apply, hsession, Option.map_some, ht, Option.getD_some]
    refine ⟨fun _ => ?_, fun hno => absurd (haccepts.mpr ⟨n, ht, hn, hlt⟩) hno⟩
    have hcall : zipSourceSeekWrite X s offset whence =
        (0, { s with pending := some { pw with offset := UInt64.ofNat n.toNat } }) := by
      rw [zipSourceSeekWrite, if_neg hlayered, if_neg hpass, MemorySource.seekWrite, hpending]
      simp only [hout, hs, if_neg (Int.not_lt.mpr hn)]
      rfl
    rw [MemorySource.call, hcall, happly]
    refine ⟨rfl, h.replace hpending hout ?_ ?_⟩
    · exact UInt64.toNat_ofNat_of_lt' (show _ < 2 ^ 64 by omega)
    · show n.toNat < 2 ^ 63
      omega
  · refine ⟨fun hyes => absurd hyes hno, fun _ => ?_⟩
    have hcall : ∃ s', zipSourceSeekWrite X s offset whence = (-1, s') ∧ Mirrors s' t := by
      rw [zipSourceSeekWrite, if_neg hlayered, if_neg hpass, MemorySource.seekWrite, hpending]
      rcases hs with hs | hs | ⟨m, hm, hs⟩
      · simp only [hout, hs]
        exact ⟨s, rfl, h⟩
      · simp only [hout, hs]
        exact ⟨s.setErr .inval, rfl, h.setErr _⟩
      · simp only [hout, hs, if_pos hm]
        exact ⟨s.setErr .inval, rfl, h.setErr _⟩
    obtain ⟨s', hs', hmirrors⟩ := hcall
    rw [MemorySource.call, hs']
    exact ⟨rfl, hmirrors⟩

theorem steps_seekWrite (h : Mirrors s t) (offset : Int64) (whence : Int32) :
    Steps X s t (.seekWrite offset whence) := by
  have hlayered : ¬ s.isLayered = true := by simp [h.not_layered]
  rcases h.session_cases with ⟨hclosed, -, hsession⟩ |
    ⟨pw, u, hopen, hpending, hsession, hout, hoffset, hcursor⟩
  · refine ⟨fun hyes => ?_, fun _ => ?_⟩
    · obtain ⟨u, hu, -⟩ := hyes
      cases hsession.symm.trans hu
    · rw [MemorySource.call, zipSourceSeekWrite, if_neg hlayered, if_pos (.inl (by simp [hclosed]))]
      exact ⟨rfl, h.setErr _⟩
  by_cases hwhence : whence ≠ seekSet ∧ whence ≠ seekCur ∧ whence ≠ seekEnd
  · have htarget : target whence offset u.cursor u.bytes.length = none := by
      rw [target, if_neg hwhence.1, if_neg hwhence.2.1, if_neg hwhence.2.2]
    refine ⟨fun hyes => ?_, fun _ => ?_⟩
    · obtain ⟨v, hv, n, hn, -⟩ := hyes
      cases hsession.symm.trans hv
      cases htarget.symm.trans hn
    · rw [MemorySource.call, zipSourceSeekWrite, if_neg hlayered, if_pos (.inr hwhence)]
      exact ⟨rfl, h.setErr _⟩
  · refine steps_seekTarget h hpending hsession hout hoffset hcursor hlayered ?_
    rintro (hclosed | hbad)
    · simp [hopen] at hclosed
    · exact hwhence hbad

theorem steps_tellWrite (h : Mirrors s t) : Steps X s t .tellWrite := by
  have hlayered : ¬ s.isLayered = true := by simp [h.not_layered]
  rcases h.session_cases with ⟨hclosed, -, hsession⟩ |
    ⟨pw, u, hopen, hpending, hsession, -, hoffset, hcursor⟩
  · refine ⟨fun hyes => by simp [Store.accepts, hsession] at hyes, fun _ => ?_⟩
    rw [MemorySource.call, zipSourceTellWrite, if_neg hlayered, if_pos (by simp [hclosed])]
    exact ⟨rfl, h.setErr _⟩
  · refine ⟨fun _ => ?_, fun hno => absurd (by simp [Store.accepts, hsession]) hno⟩
    rw [MemorySource.call, zipSourceTellWrite, if_neg hlayered, if_neg (by simp [hopen]),
      MemorySource.tellWrite, hpending]
    simp only [hoffset, asI64_of_lt hcursor, Store.returns, hsession]
    exact ⟨rfl, h⟩

/-! ## Ending a session -/

theorem steps_commitWrite (h : Mirrors s t) : Steps X s t .commitWrite := by
  have hlayered : ¬ s.isLayered = true := by simp [h.not_layered]
  rcases h.session_cases with ⟨hclosed, -, hsession⟩ | ⟨pw, u, hopen, hpending, hsession, hout, -⟩
  · refine ⟨fun hyes => by simp [Store.accepts, hsession] at hyes, fun _ => ?_⟩
    rw [MemorySource.call, zipSourceCommitWrite, if_neg hlayered, if_pos (by simp [hclosed])]
    exact ⟨rfl, h.setErr _⟩
  · refine ⟨fun _ => ?_, fun hno => absurd (by simp [Store.accepts, hsession]) hno⟩
    have happly : t.apply .commitWrite = { content := u.bytes, pos := 0, session := none } := by
      rw [Store.apply, hsession]
      rfl
    rw [MemorySource.call, zipSourceCommitWrite, if_neg hlayered, if_neg (by simp [hopen]),
      MemorySource.commitWrite, hpending, happly]
    refine ⟨rfl, ⟨hout, rfl, rfl, rfl⟩, h.not_layered, Nat.zero_le _, ?_⟩
    intro v hv
    cases hv

theorem steps_rollbackWrite (h : Mirrors s t) : Steps X s t .rollbackWrite := by
  have hlayered : ¬ s.isLayered = true := by simp [h.not_layered]
  refine ⟨fun _ => ⟨rfl, ?_⟩, fun hno => absurd trivial hno⟩
  show Mirrors (zipSourceRollbackWrite s) { t with session := none }
  rcases h.session_cases with ⟨hclosed, hpending, -⟩ | ⟨pw, u, hopen, -⟩
  · rw [zipSourceRollbackWrite, if_neg hlayered, if_pos (by simp [hclosed])]
    refine ⟨⟨h.repr.content, h.repr.pos, ?_, h.repr.write_open⟩, h.not_layered, h.pos_le, ?_⟩
    · rw [hpending]
      rfl
    · intro v hv
      cases hv
  · rw [zipSourceRollbackWrite, if_neg hlayered, if_neg (by simp [hopen])]
    refine ⟨⟨h.repr.content, h.repr.pos, rfl, rfl⟩, h.not_layered, h.pos_le, ?_⟩
    intro v hv
    cases hv

/-! ## Runs -/

theorem call_steps (h : Mirrors s t) (call : SourceCall) : Steps X s t call := by
  cases call with
  | «open» => exact steps_open h
  | read len => exact steps_read h len
  | seek offset whence => exact steps_seek h offset whence
  | beginWrite => exact steps_beginWrite h
  | beginWriteCloning n => exact steps_beginWriteCloning h n
  | write data => exact steps_write h data
  | seekWrite offset whence => exact steps_seekWrite h offset whence
  | tellWrite => exact steps_tellWrite h
  | commitWrite => exact steps_commitWrite h
  | rollbackWrite => exact steps_rollbackWrite h

theorem call_follows (h : Mirrors s t) (call : SourceCall) : CallFollows X s t call :=
  let hsteps := call_steps (X := X) h call
  ⟨fun hyes => ⟨(hsteps.accepted hyes).1, (hsteps.accepted hyes).2.repr⟩,
    fun hno => ⟨(hsteps.refused hno).1, (hsteps.refused hno).2.repr⟩⟩

theorem step_mirrors (h : Mirrors s t) (call : SourceCall) : Mirrors (s.call X call).2 (t.step call) := by
  rw [Store.step]
  split
  next hyes => exact ((call_steps h call).accepted hyes).2
  next hno => exact ((call_steps h call).refused hno).2

end

/-- The content changes at a commit only, and then to the bytes of the session. -/
theorem Store.content_step (t : Store) (call : SourceCall) :
    (t.step call).content = t.content ∨
      call = .commitWrite ∧ ∃ u, t.session = some u ∧ (t.step call).content = u.bytes := by
  by_cases hyes : t.accepts call
  · rw [Store.step, if_pos hyes]
    cases call with
    | commitWrite =>
      obtain ⟨u, hu⟩ := Option.isSome_iff_exists.mp hyes
      refine .inr ⟨rfl, u, hu, ?_⟩
      rw [Store.apply, hu]
      rfl
    | _ => exact .inl rfl
  · rw [Store.step, if_neg hyes]
    exact .inl rfl

theorem run_follows (calls : List SourceCall) :
    ∀ {s : MemorySource} {t : Store}, Mirrors s t → RunFollows X s t calls := by
  induction calls with
  | nil => exact fun h => h.repr
  | cons call calls ih => exact fun h => ⟨h.repr, call_follows h call, ih (step_mirrors h call)⟩

/-- Any sequence of calls on a new source does to it what it does to the abstract one. -/
theorem source_follows (X : Extern) (content : Vec) (calls : List SourceCall) :
    RunFollows X (.new content) { content := content.val, pos := 0, session := none } calls := by
  refine run_follows calls ⟨⟨rfl, rfl, rfl, rfl⟩, rfl, Nat.zero_le _, ?_⟩
  intro u hu
  cases hu

end Kzip.Impl
