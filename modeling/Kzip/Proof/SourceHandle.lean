import Kzip.Proof.Edit
import Kzip.Proof.WriteSession
import Kzip.Spec.SourceHandle

/-!
# What a failing call leaves behind

`failing_call_intact_iff`: which of the calls that take a source leave it and the archive alone when they
fail. A source in memory is lost where its buffer is moved out, or the source freed, before the last check. A
callback is lost where it is freed or read before that, if it yields other bytes once it has been read.
-/

namespace Kzip.Impl

open Kzip.Spec Lib Lib.Utf8

variable {σ : Type} {C : Callback σ}

/-! ## Reading -/

theorem readAll_eq (rounds : Nat) (s : SourceHandle σ) :
    s.readAll C rounds =
      if (s.dispatchOpen C).1 < 0 then some (.error (.err .read), (s.dispatchOpen C).2)
      else runLoop (readRound C) rounds ((s.dispatchOpen C).2, .nil) := rfl

theorem readAll_unique {s : SourceHandle σ} {rounds rounds' : Nat} {r r' : Result Vec × SourceHandle σ}
    (h : s.readAll C rounds = some r) (h' : s.readAll C rounds' = some r') : r = r' := by
  rw [readAll_eq] at h h'
  split at h
  · rename_i hopen
    rw [if_pos hopen] at h'
    cases h
    cases h'
    rfl
  · rename_i hopen
    rw [if_neg hopen] at h'
    exact runLoop_unique h h'

/-- What a source yields is what reading it gives. -/
theorem yields_iff {s s' : SourceHandle σ} {rounds : Nat} {r : Result Vec}
    (h : s.readAll C rounds = some (r, s')) (bs : Bytes) :
    Yields C s bs ↔ ∃ data, r = .ok data ∧ data.val = bs := by
  constructor
  · rintro ⟨rounds', data, s'', h', rfl⟩
    cases readAll_unique h h'
    exact ⟨data, rfl, rfl⟩
  · rintro ⟨data, rfl, rfl⟩
    exact ⟨rounds, data, s', h, rfl⟩

/-! ### Buffers in memory -/

/-- What the loop of `read_all` keeps: the bytes so far, and those behind the cursor, are the buffer. -/
def Reading (data : Vec) (mtime : Option UInt64) (refcount : Int32) (p : SourceHandle σ × Vec) : Prop :=
  ∃ m, p.1 = { backend := .memory m mtime, refcount } ∧ m.data = data ∧
    p.2.val ++ data.val.drop m.pos.toNat = data.val

theorem readRound_cases {data : Vec} {mtime : Option UInt64} {refcount : Int32} {p : SourceHandle σ × Vec}
    (h : Reading data mtime refcount p) :
    (∃ s', readRound C p = .inr (.ok data, s')) ∨
    ∃ p', readRound C p = .inl p' ∧ Reading data mtime refcount p' ∧
      data.val.length - p'.2.val.length < data.val.length - p.2.val.length := by
  obtain ⟨s, out⟩ := p
  obtain ⟨m, rfl, rfl, hout⟩ := h
  replace hout : out.val ++ m.data.val.drop m.pos.toNat = m.data.val := hout
  obtain ⟨bs, m', hread, hdata, hlen, hsplit⟩ : ∃ bs m', m.read (UInt64.ofNat readBufferSize) = (bs, m') ∧
      m'.data = m.data ∧ bs.length = min (m.data.val.length - m.pos.toNat) readBufferSize ∧
      m.data.val.drop m.pos.toNat = bs ++ m.data.val.drop m'.pos.toNat := by
    refine ⟨(m.read _).1, (m.read _).2, rfl, rfl, ?_, ?_⟩
    · show ((m.data.val.drop m.pos.toNat).take _).length = _
      rw [List.length_take, List.length_drop]
      exact Nat.min_eq_left (Nat.min_le_left _ _)
    · rw [m.read_pos, ← List.drop_drop]
      exact (List.take_append_drop _ _).symm
  have hdispatch : (SourceHandle.mk (.memory m mtime) refcount).dispatchRead C =
      (.ok bs, SourceHandle.mk (.memory m' mtime) refcount) := by
    simp only [SourceHandle.dispatchRead, hread]
  rw [readRound]
  simp only [hdispatch]
  by_cases hbs : bs = []
  · have hend : m.data.val.drop m.pos.toNat = [] := by
      rw [hbs, List.length_nil] at hlen
      have hroom : readBufferSize ≠ 0 := by decide
      exact List.drop_eq_nil_of_le (by omega)
    refine .inl ⟨SourceHandle.dispatchClose C ⟨.memory m' mtime, refcount⟩, ?_⟩
    rw [hend, List.append_nil] at hout
    rw [if_pos hbs, Subtype.ext hout]
  · have hfits : (out.val ++ bs).length < 2 ^ 63 := by
      have hall := congrArg List.length hout
      have hbound := m.data.property
      rw [hsplit, ← List.append_assoc, List.length_append] at hall
      omega
    refine .inr ⟨(SourceHandle.mk (.memory m' mtime) refcount, ⟨out.val ++ bs, hfits⟩), ?_,
      ⟨m', rfl, hdata, ?_⟩, ?_⟩
    · rw [if_neg hbs, if_neg (by omega), Vec.ofBytes, dif_pos hfits]
    · rw [List.append_assoc, ← hsplit, hout]
    · have hpos := List.length_pos_iff.mpr hbs
      have hall := congrArg List.length hout
      rw [hsplit] at hall
      simp only [List.length_append] at hall ⊢
      omega

/-- A buffer is read to its end, however large it is. -/
theorem readAll_memory {s : SourceHandle σ} {m : MemorySource} {mtime : Option UInt64}
    (h : s.backend = .memory m mtime) :
    ∃ rounds s', s.readAll C rounds = some (.ok m.data, s') := by
  obtain ⟨backend, refcount⟩ := s
  obtain rfl : backend = .memory m mtime := h
  have hstart : Reading m.data mtime refcount
      (((SourceHandle.mk (.memory m mtime) refcount).dispatchOpen C).2, .nil) := ⟨_, rfl, rfl, rfl⟩
  obtain ⟨n, ⟨r, s'⟩, -, hn, hr⟩ := exists_leaves
    (Q := fun r : Result Vec × SourceHandle σ => r.1 = .ok m.data)
    (fun p p' hp hround => by
      rcases readRound_cases (C := C) hp with ⟨s', hs'⟩ | ⟨p'', hp'', hkeep⟩
      · cases hs'.symm.trans hround
      · cases hp''.symm.trans hround
        exact hkeep)
    (fun p r hp hround => by
      rcases readRound_cases (C := C) hp with ⟨s', hs'⟩ | ⟨p'', hp'', -⟩
      · cases hs'.symm.trans hround
        rfl
      · cases hp''.symm.trans hround)
    hstart
  obtain rfl : r = .ok m.data := hr
  refine ⟨n, s', ?_⟩
  have hopen : ¬ ((SourceHandle.mk (.memory m mtime) refcount).dispatchOpen C).1 < 0 := Int.lt_irrefl 0
  rw [readAll_eq, if_neg hopen]
  exact runLoop_of_leaves hn (Nat.le_refl n)

theorem yields_memory {s : SourceHandle σ} {m : MemorySource} {mtime : Option UInt64}
    (h : s.backend = .memory m mtime) (bs : Bytes) : Yields C s bs ↔ m.data.val = bs := by
  obtain ⟨rounds, s', hread⟩ := readAll_memory (C := C) h
  rw [yields_iff hread]
  exact ⟨fun ⟨data, heq, hdata⟩ => by cases heq; exact hdata, fun hdata => ⟨_, rfl, hdata⟩⟩

/-- Two sources over the same buffer, with the same count, are the same to their owner. -/
theorem held_memory {s s' : SourceHandle σ} {m m' : MemorySource} {mtime mtime' : Option UInt64}
    (h : s.backend = .memory m mtime) (h' : s'.backend = .memory m' mtime') :
    held C (some s') = held C (some s) ↔ m'.data.val = m.data.val ∧ s'.refcount = s.refcount := by
  simp only [held, Option.map_some, Option.some.injEq, Prod.mk.injEq, funext_iff, eq_iff_iff,
    yields_memory h, yields_memory h']
  refine and_congr_left fun _ => ⟨fun hall => (hall _).mp rfl |>.symm, fun heq bs => by rw [heq]⟩

/-! ### The reference count -/

theorem refcount_dispatchOpen (s : SourceHandle σ) : (s.dispatchOpen C).2.refcount = s.refcount := by
  rw [SourceHandle.dispatchOpen]
  split <;> rfl

theorem refcount_dispatchRead (s : SourceHandle σ) : (s.dispatchRead C).2.refcount = s.refcount := by
  rw [SourceHandle.dispatchRead]
  split <;> rfl

theorem refcount_dispatchClose (s : SourceHandle σ) : (s.dispatchClose C).refcount = s.refcount := by
  rw [SourceHandle.dispatchClose]
  split <;> rfl

theorem refcount_dispatchStat (s : SourceHandle σ) : (s.dispatchStat C).2.refcount = s.refcount := by
  rw [SourceHandle.dispatchStat]
  split <;> rfl

/-- A round leaves the count as it is, whether the loop goes on or not. -/
theorem refcount_readRound (p : SourceHandle σ × Vec) :
    (readRound C p).elim (fun p' => p'.1.refcount) (fun r => r.2.refcount) = p.1.refcount := by
  have hread := refcount_dispatchRead (C := C) p.1
  have hclose := refcount_dispatchClose (C := C) (p.1.dispatchRead C).2
  unfold readRound
  rcases hnext : p.1.dispatchRead C with ⟨r, s⟩
  rw [hnext] at hread hclose
  cases r with
  | error e => exact hclose.trans hread
  | ok bs =>
    dsimp only
    split
    · exact hclose.trans hread
    · split
      · exact hread
      · split <;> exact hread

theorem refcount_readAll {rounds : Nat} {s s' : SourceHandle σ} {r : Result Vec}
    (h : s.readAll C rounds = some (r, s')) : s'.refcount = s.refcount := by
  have hopened := refcount_dispatchOpen (C := C) s
  rw [readAll_eq] at h
  split at h
  · cases h
    exact hopened
  · obtain ⟨n, hn⟩ := leaves_of_runLoop h
    refine hn.invariant (I := fun p => p.1.refcount = s.refcount) (Q := fun r => r.2.refcount = s.refcount)
      (fun p p' hp hround => ?_) (fun p r hp hround => ?_) hopened
    · have hcount := refcount_readRound (C := C) p
      rw [hround] at hcount
      exact hcount.trans hp
    · have hcount := refcount_readRound (C := C) p
      rw [hround] at hcount
      exact hcount.trans hp

/-! ## Taking the bytes of a source -/

theorem takeData_memory {rounds : Nat} {s : SourceHandle σ} {m : MemorySource} {mtime : Option UInt64}
    (h : s.backend = .memory m mtime) :
    s.takeData C rounds =
      some (.ok m.data, { s with backend := .memory { m with data := .nil } mtime }) := by
  rw [SourceHandle.takeData, SourceHandle.takeMemoryData, h]

theorem takeData_callback {rounds : Nat} {s : SourceHandle σ} {ud : σ} (h : s.backend = .callback ud) :
    s.takeData C rounds = s.readAll C rounds := by
  rw [SourceHandle.takeData, SourceHandle.takeMemoryData, h]

/-- What taking the bytes does to a source that its owner then holds otherwise: the buffer was moved out, or
the callback yields something else. -/
theorem takeData_cases {rounds : Nat} {s s' : SourceHandle σ} {r : Result Vec}
    (h : s.takeData C rounds = some (r, s')) (hheld : held C (some s') ≠ held C (some s)) :
    (Movable s ∧ r.toOption ≠ none) ∨ ∃ ud, s.backend = .callback ud ∧ s.readAll C rounds = some (r, s') := by
  cases hb : s.backend with
  | memory m mtime =>
    rw [takeData_memory hb] at h
    cases h
    refine .inl ⟨⟨m, mtime, hb, fun hnil => hheld ?_⟩, fun h => by cases h⟩
    exact (held_memory hb rfl).mpr ⟨hnil.symm, rfl⟩
  | callback ud =>
    rw [takeData_callback hb] at h
    exact .inr ⟨ud, rfl, h⟩

theorem takeData_returns {s : SourceHandle σ} (hends : ReadsEnd C) : ∃ rounds r, s.takeData C rounds = some r := by
  cases hb : s.backend with
  | memory m mtime => exact ⟨0, _, takeData_memory hb⟩
  | callback ud =>
    obtain ⟨rounds, r, h⟩ := hends ud s.refcount
    refine ⟨rounds, r, (takeData_callback hb).trans ?_⟩
    rw [← h, ← hb]

/-! ## Adding and replacing entries -/

/-- A refused call has not got as far as the source, or has taken its bytes, with a result for which it is
refused. The edits are the same. -/
def Refusal (C : Callback σ) (z : Zip) (source : Option (SourceHandle σ)) (fails : Result Vec → Prop)
    (z' : Zip) (source' : Option (SourceHandle σ)) : Prop :=
  z'.pending = z.pending ∧
    (source' = source ∨ ∃ rounds s r s', source = some s ∧ s.takeData C rounds = some (r, s') ∧
      source' = some s' ∧ fails r)

theorem zipFileAdd_refused {rounds : Nat} {z z' : Zip} {name : Option Bytes}
    {source source' : Option (SourceHandle σ)} {flags : UInt32}
    (h : zipFileAdd C rounds z name source flags = some (-1, z', source')) :
    Refusal C z source (fun r => z.readOnly = false ∧
      ∃ n, cStr name = some n ∧ (r.toOption = none ∨ Taken z n flags)) z' source' := by
  unfold zipFileAdd at h
  split at h
  · cases h
    exact ⟨rfl, .inl rfl⟩
  · rename_i hread
    replace hread := Bool.eq_false_iff.mpr hread
    split at h
    · rename_i n s hname
      obtain ⟨⟨data, s'⟩, htake, h⟩ := Option.map_eq_some_iff.mp h
      cases data with
      | error e =>
        cases h
        exact ⟨by cases e <;> rfl, .inr ⟨rounds, s, _, s', rfl, htake, rfl, hread, n, hname, .inl rfl⟩⟩
      | ok data =>
        cases hloc : z.archive.nameLocate n with
        | none =>
          simp only [hloc, Prod.mk.injEq] at h
          omega
        | some idx =>
          simp only [hloc] at h
          split at h
          · simp only [Prod.mk.injEq] at h
            omega
          · rename_i hflag
            cases h
            have htaken : Taken z n flags := ⟨by rw [hloc]; rfl, not_not.mp hflag⟩
            exact ⟨rfl, .inr ⟨rounds, s, _, s', rfl, htake, rfl, hread, n, hname, .inr htaken⟩⟩
    · cases h
      exact ⟨rfl, .inl rfl⟩

theorem zipFileReplace_refused {rounds : Nat} {z z' : Zip} {index : Nat}
    {source source' : Option (SourceHandle σ)}
    (h : zipFileReplace C rounds z index source = some (-1, z', source')) :
    Refusal C z source (fun r => z.readOnly = false ∧ index < z.archive.len ∧ r.toOption = none) z' source' := by
  unfold zipFileReplace at h
  split at h
  · cases h
    exact ⟨rfl, .inl rfl⟩
  · rename_i hread
    replace hread := Bool.eq_false_iff.mpr hread
    split at h
    · cases h
      exact ⟨rfl, .inl rfl⟩
    · rename_i s
      split at h
      · rename_i hindex
        obtain ⟨⟨data, s'⟩, htake, h⟩ := Option.map_eq_some_iff.mp h
        cases data with
        | error e =>
          cases h
          exact ⟨by cases e <;> rfl, .inr ⟨rounds, s, _, s', rfl, htake, rfl, hread, hindex, rfl⟩⟩
        | ok data => cases h
      · cases h
        exact ⟨rfl, .inl rfl⟩

/-- A refusal leaves the source to its owner, unless taking its bytes does not. -/
theorem Refusal.intact {z z' : Zip} {source source' : Option (SourceHandle σ)} {fails : Result Vec → Prop}
    (h : Refusal C z source fails z' source')
    (hmoved : ∀ s r, source = some s → fails r → r.toOption ≠ none → ¬ Movable s)
    (hspent : ∀ s ud, source = some s → s.backend = .callback ud → ¬ Spent C s s fails) :
    held C source' = held C source ∧ z'.pending = z.pending := by
  obtain ⟨hpending, rfl | ⟨rounds, s, r, s', rfl, htake, rfl, hfails⟩⟩ := h
  · exact ⟨rfl, hpending⟩
  · refine ⟨?_, hpending⟩
    by_contra hheld
    rcases takeData_cases htake hheld with ⟨hbuffer, hr⟩ | ⟨ud, hb, hread⟩
    · exact hmoved s r rfl hfails hr hbuffer
    · exact hspent s ud rfl hb ⟨rounds, r, s', hread, hfails, hheld⟩

theorem zipFileAdd_fails {rounds : Nat} {z : Zip} {name : Option Bytes} {n : Str} {flags : UInt32}
    {s s' : SourceHandle σ} {r : Result Vec} (hread : z.readOnly = false) (hname : cStr name = some n)
    (htake : s.takeData C rounds = some (r, s')) (hfails : r.toOption = none ∨ Taken z n flags) :
    ∃ z', zipFileAdd C rounds z name (some s) flags = some (-1, z', some s') := by
  simp only [zipFileAdd, hread, Bool.false_eq_true, if_false, hname, htake, Option.map_some]
  cases r with
  | error e => exact ⟨_, rfl⟩
  | ok data =>
    obtain ⟨hloc, hflag⟩ := hfails.resolve_left fun h => by cases h
    obtain ⟨idx, hidx⟩ := Option.isSome_iff_exists.mp hloc
    simp only [hidx, hflag, ne_eq, not_true_eq_false, if_false]
    exact ⟨_, rfl⟩

theorem zipFileReplace_fails {rounds : Nat} {z : Zip} {index : Nat} {s s' : SourceHandle σ} {r : Result Vec}
    (hread : z.readOnly = false) (hindex : index < z.archive.len) (htake : s.takeData C rounds = some (r, s'))
    (hfails : r.toOption = none) :
    ∃ z', zipFileReplace C rounds z index (some s) = some (-1, z', some s') := by
  simp only [zipFileReplace, hread, Bool.false_eq_true, if_false, if_pos hindex, htake, Option.map_some]
  cases r with
  | error e => exact ⟨_, rfl⟩
  | ok data => cases hfails

/-- The source as the calls on the handle see it, when reading it gives this. -/
def SourceHandle.asSource (s : SourceHandle σ) (data : Result Vec) : ZipSource :=
  match s.backend with
  | .memory m _ => .memory m.data
  | .callback _ => .callback data.toOption

theorem takeData_asSource {rounds : Nat} {s s' : SourceHandle σ} {data : Result Vec}
    (h : s.takeData C rounds = some (data, s')) : (s.asSource data).takeData.1 = data.toOption := by
  cases hb : s.backend with
  | memory m mtime =>
    rw [takeData_memory hb] at h
    cases h
    rw [SourceHandle.asSource, hb]
    rfl
  | callback ud =>
    rw [SourceHandle.asSource, hb]
    rfl

/-- Whatever the backend, the handle changes as it does for a source that is its bytes. -/
theorem zipFileAdd_refines (X : Extern) {rounds : Nat} {z : Zip} {name : Option Bytes} {flags : UInt32}
    {s s' : SourceHandle σ} {data : Result Vec} (h : s.takeData C rounds = some (data, s'))
    (hdata : data ≠ .error .panic) :
    (zipFileAdd C rounds z name (some s) flags).map (fun r => (r.1, r.2.1)) =
      some ((ZipCall.fileAdd name (some (s.asSource data)) flags).run X z) := by
  have htake := takeData_asSource h
  rcases hr : (s.asSource data).takeData with ⟨taken, src⟩
  rw [hr] at htake
  obtain rfl : taken = data.toOption := htake
  simp only [zipFileAdd, ZipCall.run, Zip.fileAdd]
  cases z.readOnly with
  | true => rfl
  | false =>
    cases cStr name with
    | none => rfl
    | some n =>
      simp only [Bool.false_eq_true, if_false, h, Option.map_some, hr]
      cases data with
      | error e =>
        cases e with
        | err code => rfl
        | panic => exact absurd rfl hdata
      | ok data =>
        cases z.archive.nameLocate n with
        | none => rfl
        | some idx =>
          simp only [Except.toOption]
          split <;> rfl

/-! ## Windows -/

/-- A window that starts in the data does not stop before its start. -/
theorem windowStop_ok (X : Extern) {dlen start : UInt64} (len : Int64) (hdlen : dlen.toNat < 2 ^ 63)
    (hstart : start ≤ dlen) : ∃ hi, windowStop X dlen start len = .ok hi ∧ start ≤ hi := by
  rw [windowStop]
  by_cases hall : len = zipLengthUnchecked
  · exact ⟨dlen, if_pos hall, hstart⟩
  by_cases hrest : len < 0
  · exact ⟨dlen, (if_neg hall).trans (if_pos hrest), hstart⟩
  · have hlen : len.toUInt64.toNat < 2 ^ 63 := by
      rw [Int64.toNat_toUInt64_of_le (Int64.not_lt.mp hrest)]
      have hlt : len.toInt < 2 ^ 63 := Int64.toInt_lt len
      show len.toInt.toNat < 2 ^ 63
      omega
    have hle : start.toNat ≤ dlen.toNat := hstart
    have hadd : (start + len.toUInt64).toNat = start.toNat + len.toUInt64.toNat := by
      rw [UInt64.toNat_add]
      omega
    refine ⟨min (start + len.toUInt64) dlen, ?_, ?_⟩
    · rw [if_neg hall, if_neg hrest, addU64, if_pos (by omega)]
      rfl
    · show start ≤ if start + len.toUInt64 ≤ dlen then start + len.toUInt64 else dlen
      split
      · rw [UInt64.le_iff_toNat_le, hadd]
        exact Nat.le_add_right _ _
      · exact hstart

/-- A window is refused exactly when it starts past the end. -/
theorem makeMemorySource_refuses_iff (X : Extern) (data : Vec) (start : UInt64) (len : Int64)
    (mtime : Option UInt64) :
    (∀ w, makeMemorySource (σ := σ) X data start len mtime ≠ .ok (some w)) ↔
      data.val.length < start.toNat := by
  have hlen := data.property
  have hsize : (UInt64.ofNat data.val.length).toNat = data.val.length := by
    rw [UInt64.toNat_ofNat']
    omega
  rw [makeMemorySource]
  by_cases hstart : start ≤ UInt64.ofNat data.val.length
  · obtain ⟨hi, hstop, hhi⟩ := windowStop_ok X len (by omega) hstart
    have hle := UInt64.le_iff_toNat_le.mp hstart
    refine iff_of_false (fun h => ?_) (by omega)
    have hin : ¬ (start > hi ∨ start > UInt64.ofNat data.val.length) :=
      not_or.mpr ⟨UInt64.not_lt.mpr hhi, UInt64.not_lt.mpr hstart⟩
    rw [hstop, Except.map, if_neg hin] at h
    exact h _ rfl
  · have hlt := UInt64.lt_iff_toNat_lt.mp (UInt64.not_le.mp hstart)
    refine iff_of_true (fun w h => ?_) (by omega)
    cases hstop : windowStop X (UInt64.ofNat data.val.length) start len with
    | error e =>
      rw [hstop] at h
      cases h
    | ok hi =>
      rw [hstop, Except.map, if_pos (.inr (UInt64.not_le.mp hstart))] at h
      cases h

theorem free_ne {s s' : SourceHandle σ} (h : s'.refcount = s.refcount) : held C s'.free ≠ held C (some s) := by
  unfold SourceHandle.free
  split
  · exact fun h => by cases h
  · intro hheld
    have hcount : s'.refcount - 1 = s.refcount := congrArg Prod.snd (Option.some.inj hheld)
    grind

/-- A window is refused because the source could not be read, or because it starts past its end. -/
theorem window_failed {X : Extern} {rounds : Nat} {src src' : Option (SourceHandle σ)} {offset : UInt64}
    {len : Int64} {errorp e : Option ZipErrorCode}
    (h : zipSourceWindowCreate X C rounds src offset len errorp = some (none, src', e)) :
    held C src' = held C src ∨
    ∃ s r s', src = some s ∧ (s.dispatchStat C).2.readAll C rounds = some (r, s') ∧
      (r.toOption = none ∧ src' = some s' ∨ ∃ data, r = .ok data ∧ data.val.length < offset.toNat) := by
  cases src with
  | none =>
    cases h
    exact .inl rfl
  | some s =>
    obtain ⟨⟨data, s'⟩, hread, h⟩ := Option.map_eq_some_iff.mp h
    refine .inr ⟨s, data, s', rfl, hread, ?_⟩
    cases data with
    | error e =>
      cases h
      exact .inl ⟨rfl, rfl⟩
    | ok data =>
      refine .inr ⟨data, rfl, ?_⟩
      refine (makeMemorySource_refuses_iff (σ := σ) X data offset len (s.dispatchStat C).1).mp ?_
      intro w hw
      simp only [hw] at h
      cases h

/-- The window past the end of the source has freed it. -/
theorem window_loses (X : Extern) {s : SourceHandle σ} {bs : Bytes} {offset : UInt64} (len : Int64)
    (errorp : Option ZipErrorCode) (hyields : Yields C (s.dispatchStat C).2 bs) (hlen : bs.length < offset.toNat) :
    ∃ rounds src' e, zipSourceWindowCreate X C rounds (some s) offset len errorp = some (none, src', e) ∧
      held C src' ≠ held C (some s) := by
  obtain ⟨rounds, data, s', hread, rfl⟩ := hyields
  have hnone := (makeMemorySource_refuses_iff (σ := σ) X data offset len (s.dispatchStat C).1).mpr hlen
  refine ⟨rounds, s'.free, errorp.map fun _ => .inval, ?_, ?_⟩
  · -- none of the windows that `hnone` excludes
    simp only [zipSourceWindowCreate, hread, Option.map_some]
  · exact free_ne ((refcount_readAll hread).trans (refcount_dispatchStat s))

/-! ## The calls -/

theorem zipFileAdd_returns (hends : ReadsEnd C) (z : Zip) (name : Option Bytes) (source : Option (SourceHandle σ))
    (flags : UInt32) : ∃ rounds r, zipFileAdd C rounds z name source flags = some r := by
  cases source with
  | none =>
    refine ⟨0, ?_⟩
    unfold zipFileAdd
    split
    · exact ⟨_, rfl⟩
    · cases cStr name <;> exact ⟨_, rfl⟩
  | some s =>
    obtain ⟨rounds, d, htake⟩ := takeData_returns (s := s) hends
    refine ⟨rounds, ?_⟩
    unfold zipFileAdd
    split
    · exact ⟨_, rfl⟩
    · cases cStr name with
      | none => exact ⟨_, rfl⟩
      | some n => exact ⟨_, congrArg (Option.map _) htake⟩

theorem zipFileReplace_returns (hends : ReadsEnd C) (z : Zip) (index : Nat) (source : Option (SourceHandle σ)) :
    ∃ rounds r, zipFileReplace C rounds z index source = some r := by
  cases source with
  | none =>
    refine ⟨0, ?_⟩
    unfold zipFileReplace
    split <;> exact ⟨_, rfl⟩
  | some s =>
    obtain ⟨rounds, d, htake⟩ := takeData_returns (s := s) hends
    refine ⟨rounds, ?_⟩
    unfold zipFileReplace
    split
    · exact ⟨_, rfl⟩
    · dsimp only
      split
      · exact ⟨_, congrArg (Option.map _) htake⟩
      · exact ⟨_, rfl⟩

theorem readAll_returns (hends : ReadsEnd C) (s : SourceHandle σ) : ∃ rounds r, s.readAll C rounds = some r := by
  obtain ⟨backend, refcount⟩ := s
  cases backend with
  | memory m mtime =>
    obtain ⟨rounds, s', hread⟩ := readAll_memory (C := C) (s := ⟨.memory m mtime, refcount⟩) rfl
    exact ⟨rounds, _, hread⟩
  | callback ud => exact hends ud refcount

theorem run_returns (hends : ReadsEnd C) (X : Extern) (z : Zip) (source : Option (SourceHandle σ))
    (call : TakingCall) : ∃ rounds o, call.run X C rounds z source = some o := by
  cases call with
  | fileAdd name flags =>
    obtain ⟨rounds, r, hr⟩ := zipFileAdd_returns hends z name source flags
    exact ⟨rounds, _, congrArg (Option.map _) hr⟩
  | fileReplace index =>
    obtain ⟨rounds, r, hr⟩ := zipFileReplace_returns hends z index source
    exact ⟨rounds, _, congrArg (Option.map _) hr⟩
  | dirAdd name => exact ⟨0, _, rfl⟩
  | windowCreate offset len errorp =>
    cases source with
    | none => exact ⟨0, _, rfl⟩
    | some s =>
      obtain ⟨rounds, r, hr⟩ := readAll_returns hends (s.dispatchStat C).2
      exact ⟨rounds, _, congrArg (Option.map _) (congrArg (Option.map _) hr)⟩

/-- The outcomes of the calls that give back a result code. -/
theorem outcome_failed {call : Option (Int × Zip × Option (SourceHandle σ))} {o : Outcome σ}
    (h : call.map (fun r => (⟨r.1 = -1, r.2.2, r.2.1.pending⟩ : Outcome σ)) = some o)
    (hfailed : o.failed = true) :
    ∃ z' source', call = some (-1, z', source') ∧ o.source = source' ∧ o.pending = z'.pending := by
  obtain ⟨⟨r, z', source'⟩, hcall, rfl⟩ := Option.map_eq_some_iff.mp h
  obtain rfl : r = -1 := of_decide_eq_true hfailed
  exact ⟨z', source', hcall, rfl, rfl⟩

theorem run_intact {X : Extern} {rounds : Nat} {z : Zip} {source : Option (SourceHandle σ)}
    {call : TakingCall} {o : Outcome σ} (h : call.run X C rounds z source = some o)
    (hfailed : o.failed = true) (hkeeps : ¬ LosesSource C z source call) :
    held C o.source = held C source ∧ o.pending = z.pending := by
  cases call with
  | fileAdd name flags =>
    obtain ⟨z', source', hcall, hsource, hpending⟩ := outcome_failed h hfailed
    rw [hsource, hpending]
    refine (zipFileAdd_refused hcall).intact (fun s r hs hfails hr hbuffer => hkeeps ?_)
      (fun s ud hs hb hspent => hkeeps ?_)
    · obtain ⟨hread, n, hname, hwhy⟩ := hfails
      exact ⟨hread, n, s, hname, hs, .inl ⟨hbuffer, hwhy.resolve_left hr⟩⟩
    · obtain ⟨rounds, r, s', hreads, ⟨hread, n, hname, hwhy⟩, hheld⟩ := hspent
      exact ⟨hread, n, s, hname, hs, .inr ⟨ud, hb, rounds, r, s', hreads, hwhy, hheld⟩⟩
  | fileReplace index =>
    obtain ⟨z', source', hcall, hsource, hpending⟩ := outcome_failed h hfailed
    rw [hsource, hpending]
    refine (zipFileReplace_refused hcall).intact (fun s r hs hfails hr hbuffer => hr hfails.2.2)
      (fun s ud hs hb hspent => hkeeps ?_)
    obtain ⟨rounds, r, s', hreads, ⟨hread, hindex, hwhy⟩, hheld⟩ := hspent
    exact ⟨hread, hindex, s, ud, hs, hb, rounds, r, s', hreads, hwhy, hheld⟩
  | dirAdd name =>
    cases h
    refine ⟨rfl, ?_⟩
    rcases hasEffect_dirAdd z name with ⟨-, hpending⟩ | ⟨hne, -⟩
    · exact hpending
    · exact absurd (of_decide_eq_true hfailed) hne
  | windowCreate offset len errorp =>
    obtain ⟨⟨w, source', e⟩, hcall, rfl⟩ := Option.map_eq_some_iff.mp h
    obtain rfl : w = none := Option.isNone_iff_eq_none.mp hfailed
    refine ⟨?_, rfl⟩
    rcases window_failed hcall with hheld | ⟨s, r, s', rfl, hread, ⟨hwhy, rfl⟩ | ⟨data, rfl, hlen⟩⟩
    · exact hheld
    · by_contra hheld
      exact hkeeps ⟨s, rfl, .inr ⟨rounds, r, s', hread, hwhy, hheld⟩⟩
    · exact absurd ⟨s, rfl, .inl ⟨data.val, ⟨rounds, data, s', hread, rfl⟩, hlen⟩⟩ hkeeps

theorem run_loses (X : Extern) {z : Zip} {source : Option (SourceHandle σ)} {call : TakingCall}
    (h : LosesSource C z source call) : ∃ rounds o, call.run X C rounds z source = some o ∧
      o.failed = true ∧ held C o.source ≠ held C source := by
  cases call with
  | fileAdd name flags =>
    obtain ⟨hread, n, s, hname, rfl, hwhy⟩ := h
    obtain ⟨rounds, r, s', htake, hfails, hheld⟩ : ∃ rounds r s', s.takeData C rounds = some (r, s') ∧
        (r.toOption = none ∨ Taken z n flags) ∧ held C (some s') ≠ held C (some s) := by
      rcases hwhy with ⟨⟨m, mtime, hb, hne⟩, htaken⟩ | ⟨ud, hb, rounds, r, s', hreads, hfails, hheld⟩
      · refine ⟨0, _, _, takeData_memory hb, .inr htaken, fun hheld => hne ?_⟩
        exact ((held_memory hb rfl).mp hheld).1.symm
      · exact ⟨rounds, r, s', (takeData_callback hb).trans hreads, hfails, hheld⟩
    obtain ⟨z', hcall⟩ := zipFileAdd_fails hread hname htake hfails
    exact ⟨rounds, _, congrArg (Option.map _) hcall, rfl, hheld⟩
  | fileReplace index =>
    obtain ⟨hread, hindex, s, ud, rfl, hb, rounds, r, s', hreads, hfails, hheld⟩ := h
    obtain ⟨z', hcall⟩ := zipFileReplace_fails hread hindex ((takeData_callback hb).trans hreads) hfails
    exact ⟨rounds, _, congrArg (Option.map _) hcall, rfl, hheld⟩
  | windowCreate offset len errorp =>
    obtain ⟨s, rfl, ⟨bs, hyields, hlen⟩ | ⟨rounds, r, s', hreads, hfails, hheld⟩⟩ := h
    · obtain ⟨rounds, src', e, hcall, hne⟩ := window_loses X len errorp hyields hlen
      exact ⟨rounds, _, congrArg (Option.map _) hcall, rfl, hne⟩
    · cases r with
      | ok data => cases hfails
      | error e =>
        refine ⟨rounds, ⟨true, some s', z.pending⟩, ?_, rfl, hheld⟩
        simp only [TakingCall.run, zipSourceWindowCreate, hreads, Option.map_some, Option.isNone_none]
  | dirAdd name => exact h.elim

theorem not_failsIntact {X : Extern} {z : Zip} {source : Option (SourceHandle σ)} {call : TakingCall}
    (h : LosesSource C z source call) : ¬ FailsIntact X C z source call := by
  intro hintact
  obtain ⟨rounds, o, hrun, hfailed, hne⟩ := run_loses X h
  exact hne (hintact rounds o hrun hfailed).1

/-- A call that fails leaves its caller the source and the edits as they were, exactly when it is none of the
calls that lose the source. And every call returns, if its callbacks can be read to an end. -/
theorem failing_call_intact_iff (X : Extern) (C : Callback σ) (z : Zip) (source : Option (SourceHandle σ))
    (call : TakingCall) :
    (ReadsEnd C → ∃ rounds o, call.run X C rounds z source = some o) ∧
      (FailsIntact X C z source call ↔ ¬ LosesSource C z source call) := by
  refine ⟨fun hends => run_returns hends X z source call, fun hintact hloses => not_failsIntact hloses hintact,
    fun hkeeps rounds o hrun hfailed => run_intact hrun hfailed hkeeps⟩

/-- A source over a buffer of one byte. -/
def byteHandle : SourceHandle Nat :=
  { backend := .memory (.new (oneByte 0x6A)) none, refcount := 1 }

/-- A callback that gives one byte and can be opened only once; the data behind it count its commands. -/
def onceCallback : Callback Nat where
  cmdOpen n := (if n = 0 then 0 else -1, n + 1)
  cmdRead _ n := (.ok (if n = 1 then [0x6A] else []), n + 1)
  cmdClose n := n
  cmdStat n := (none, n)

def onceHandle : SourceHandle Nat := { backend := .callback 0, refcount := 1 }

theorem spent_onceHandle {fails : Result Vec → Prop} (h : fails (.ok (oneByte 0x6A))) :
    Spent onceCallback onceHandle onceHandle fails := by
  have hread : onceHandle.readAll onceCallback 1 = some (.ok (oneByte 0x6A), ⟨.callback 3, 1⟩) := rfl
  have hagain : (SourceHandle.mk (.callback 3) 1).readAll onceCallback 0 =
    some (.error (.err .read), ⟨.callback 4, 1⟩) := rfl
  refine ⟨1, _, _, hread, h, fun hheld => ?_⟩
  have hyields : Yields onceCallback ⟨.callback 3, 1⟩ = Yields onceCallback onceHandle :=
    congrArg Prod.fst (Option.some.inj hheld)
  have hbyte : Yields onceCallback onceHandle [0x6A] := ⟨1, _, _, hread, rfl⟩
  rw [← hyields, yields_iff hagain] at hbyte
  obtain ⟨data, hdata, -⟩ := hbyte
  cases hdata

/-- The refused add leaves an empty source or one that cannot be opened again, and the refused window none. -/
theorem source_lost : ∃ a, Archive.open { kind := .vec, bytes := sampleArchive } = .ok a ∧
    ¬ FailsIntact reference onceCallback (makeZip a 0) (some byteHandle) (.fileAdd (some [0x61]) 0) ∧
    ¬ FailsIntact reference onceCallback (makeZip a 0) (some byteHandle) (.windowCreate 2 0 none) ∧
    ¬ FailsIntact reference onceCallback (makeZip a 0) (some onceHandle) (.fileAdd (some [0x61]) 0) := by
  obtain ⟨a, ha, hp⟩ := exists_ok (x := Archive.open { kind := .vec, bytes := sampleArchive })
    (p := fun a => !(makeZip a 0).readOnly && (a.nameLocate ['a']).isSome)
    (by decide +kernel)
  rw [Bool.and_eq_true, Bool.not_eq_true'] at hp
  have htaken : Taken (makeZip a 0) ['a'] 0 := ⟨hp.2, rfl⟩
  have hyields : Yields onceCallback byteHandle [0x6A] := (yields_memory rfl _).mpr rfl
  refine ⟨a, ha, not_failsIntact ⟨hp.1, ['a'], _, by decide, rfl, .inl ⟨⟨_, _, rfl, by decide⟩, htaken⟩⟩,
    not_failsIntact ⟨_, rfl, .inl ⟨_, hyields, by decide⟩⟩,
    not_failsIntact ⟨hp.1, ['a'], _, by decide, rfl, .inr ⟨0, rfl, spent_onceHandle (.inr htaken)⟩⟩⟩

end Kzip.Impl
