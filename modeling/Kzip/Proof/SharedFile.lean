import Kzip.Impl.Reference
import Kzip.Spec.SharedFile

/-!
# Readers that share a file handle are independent

A handle that was moved stands where `last_pos` says (`Moved`), so skipping the seek is right then. The
sentinel that `last_pos` starts with is a position too: it is taken for where the handle stands by a
reader at that position. The readers behave as if each had its own handle exactly when no reader reads
there before the handle was moved (`shared_eq_private_iff`).
-/

namespace Kzip.Impl

open Lib Kzip.Spec

variable {X : Extern}

/-- The handle over this content was not moved yet, or stands where `last_pos` says. -/
structure Moved (content : Vec) (s : SharedFileState) : Prop where
  content : s.file.content = content
  pointer : s.lastPos = 0xFFFFFFFFFFFFFFFF ∨
    s.file.pos = s.lastPos.toNat ∧ s.lastPos.toNat < 2 ^ 63

theorem moveTo_none {content : Vec} {s : SharedFileState} (h : Moved content s) {pos : UInt64}
    (hpos : ¬ pos.toNat < 2 ^ 63) (hs : ¬ (pos = 0xFFFFFFFFFFFFFFFF ∧ s.lastPos = 0xFFFFFFFFFFFFFFFF)) :
    s.moveTo pos = none := by
  have hne : s.lastPos ≠ pos := by
    rintro rfl
    rcases h.pointer with hp | ⟨-, hp⟩
    · exact hs ⟨hp, hp⟩
    · exact hpos hp
  rw [SharedFileState.moveTo, if_pos hne, OsFile.seek, if_neg hpos]
  rfl

theorem moveTo_some {content : Vec} {s : SharedFileState} (h : Moved content s) {pos : UInt64}
    (hpos : pos.toNat < 2 ^ 63) :
    s.moveTo pos = some { file := { content, pos := pos.toNat }, lastPos := pos } := by
  rw [SharedFileState.moveTo]
  split
  · rw [OsFile.seek, if_pos hpos, h.content]
    rfl
  · rename_i heq
    rw [ne_eq, not_not] at heq
    subst heq
    rcases h.pointer with hp | ⟨hp, -⟩
    · rw [hp] at hpos
      exact absurd hpos (by decide)
    · rw [← h.content, ← hp]

/-- A read leaves the pointer inside the file, or where it was. -/
theorem length_read_le (f : OsFile) (len limit : Nat) :
    (f.read len limit).1 = [] ∨ f.pos + (f.read len limit).1.length ≤ f.content.val.length := by
  by_cases h : f.pos < f.content.val.length
  · right
    simp only [OsFile.read, List.length_take, List.length_drop]
    omega
  · left
    simp only [OsFile.read, List.drop_eq_nil_of_le (Nat.le_of_not_lt h), List.take_nil]

/-- A read that does not meet the unmoved handle is that of a private handle. -/
theorem read_private {content : Vec} {s : SharedFileState} (h : Moved content s) (r : SharedFile)
    (hs : ¬ (r.pos = 0xFFFFFFFFFFFFFFFF ∧ s.lastPos = 0xFFFFFFFFFFFFFFFF)) (len limit : Nat) :
    (r.read X s len limit).1 = (privateRead content r.pos len limit).1 ∧
      (r.read X s len limit).2.2.pos = (privateRead content r.pos len limit).2 ∧
      Moved content (r.read X s len limit).2.1 := by
  by_cases hpos : r.pos.toNat < 2 ^ 63
  · have hmove := moveTo_some h hpos
    have hfile : OsFile.seek { content, pos := 0 } r.pos = some { content, pos := r.pos.toNat } :=
      if_pos hpos
    have hlen := length_read_le { content, pos := r.pos.toNat } len limit
    have hread : (OsFile.read { content, pos := r.pos.toNat } len limit).2 = { content, pos :=
        r.pos.toNat + (OsFile.read { content, pos := r.pos.toNat } len limit).1.length } := rfl
    have hcontent := content.property
    rw [SharedFile.read, hmove, privateRead, hfile]
    dsimp only
    rw [hread]
    generalize (OsFile.read { content, pos := r.pos.toNat } len limit).1 = bs at hlen ⊢
    have hend : r.pos.toNat + bs.length < 2 ^ 63 := by
      rcases hlen with hnil | hle
      · rw [hnil]
        exact hpos
      · exact Nat.lt_of_le_of_lt hle hcontent
    have hbs : (UInt64.ofNat bs.length).toNat = bs.length := UInt64.toNat_ofNat_of_lt' (by
      simp only [UInt64.size]
      omega)
    have hsum : (r.pos + UInt64.ofNat bs.length).toNat = r.pos.toNat + bs.length := by
      rw [UInt64.toNat_add, hbs, Nat.mod_eq_of_lt (by omega)]
    have hadd : addU64 X r.pos (UInt64.ofNat bs.length) = .ok (r.pos + UInt64.ofNat bs.length) :=
      if_pos (by rw [hbs]; omega)
    rw [hadd]
    refine ⟨rfl, ?_, rfl, .inr ⟨hsum.symm, ?_⟩⟩
    · rw [← hsum, UInt64.ofNat_toNat]
    · rw [hsum]
      exact hend
  · have hmove := moveTo_none h hpos hs
    have hfile : OsFile.seek { content, pos := 0 } r.pos = none := if_neg hpos
    rw [SharedFile.read, hmove, privateRead, hfile]
    exact ⟨rfl, rfl, h⟩

/-- A read that meets the unmoved handle does not fail as that of a private handle does. -/
theorem read_unmoved {s : SharedFileState} {r : SharedFile} (hr : r.pos = 0xFFFFFFFFFFFFFFFF)
    (hs : s.lastPos = 0xFFFFFFFFFFFFFFFF) (content : Vec) (len limit : Nat) :
    (r.read X s len limit).1 ≠ (privateRead content r.pos len limit).1 := by
  have hmove : s.moveTo r.pos = some s := by
    rw [SharedFileState.moveTo, hs, hr]
    rfl
  have hprivate : (privateRead content r.pos len limit).1 = .error (.err .internal) := by
    rw [hr]
    rfl
  rw [hprivate, SharedFile.read, hmove]
  dsimp only
  unfold addU64
  split_ifs <;> exact fun h => by cases h

/-! ## All readers -/

/-- The readers stand where those with handles of their own do. -/
structure InStep (content : Vec) (w : SharedReaders) (ps : List UInt64) : Prop where
  positions : w.positions = ps
  moved : Moved content w.state

theorem inStep_keep {content : Vec} {w : SharedReaders} (h : Moved content w.state)
    {readers : List SharedFile} {ps : List UInt64} (hps : readers.map (·.pos) = ps) :
    (w.keep readers).2 = (none, ps) ∧ InStep content (w.keep readers).1 ps :=
  ⟨Prod.ext rfl hps, hps, h⟩

theorem getElem?_positions {w : SharedReaders} {ps : List UInt64} (h : w.positions = ps) (i : Nat) :
    ps[i]? = w.readers[i]?.map (·.pos) := by
  rw [← h, SharedReaders.positions, List.getElem?_map]

theorem inStep_step {content : Vec} {w : SharedReaders} {ps : List UInt64} {op : FileOp}
    (h : InStep content w ps) (hop : ¬ ReadsUnmoved w op) :
    (w.step X op).2 = (privateStep content ps op).2 ∧
      InStep content (w.step X op).1 (privateStep content ps op).1 := by
  have hget := getElem?_positions h.positions
  have hmap : w.readers.map (·.pos) = ps := h.positions
  cases op with
  | atOffset offset =>
    exact inStep_keep h.moved (by rw [List.map_append, hmap]; rfl)
  | duplicate i =>
    refine inStep_keep h.moved ?_
    rw [List.map_append, hmap, hget i]
    cases w.readers[i]? <;> rfl
  | duplicateAt i offset =>
    refine inStep_keep h.moved ?_
    rw [List.map_append, hmap, hget i]
    cases w.readers[i]? <;> rfl
  | seek i pos =>
    refine inStep_keep h.moved ?_
    rw [← hmap]
    refine List.ext_getElem? fun j => ?_
    simp only [List.getElem?_map, List.getElem?_modify]
    split <;> cases w.readers[j]? <;> rfl
  | read i len limit =>
    cases hr : w.readers[i]? with
    | none =>
      have hps : ps[i]? = none := by rw [hget i, hr]; rfl
      simp only [SharedReaders.step, privateStep, hr, hps]
      exact inStep_keep h.moved hmap
    | some r =>
      have hps : ps[i]? = some r.pos := by rw [hget i, hr]; rfl
      have hs : ¬ (r.pos = 0xFFFFFFFFFFFFFFFF ∧ w.state.lastPos = 0xFFFFFFFFFFFFFFFF) := by
        rintro ⟨hpos, hlast⟩
        exact hop ⟨by rw [hr, ← hpos], hlast⟩
      obtain ⟨hresult, hpos, hmoved⟩ := read_private (X := X) h.moved r hs len limit
      have hset : (w.readers.set i (r.read X w.state len limit).2.2).map (·.pos) =
          ps.set i (privateRead content r.pos len limit).2 := by
        rw [List.map_set, hmap, hpos]
      simp only [SharedReaders.step, privateStep, hr, hps]
      exact ⟨by rw [hresult, SharedReaders.positions, hset], hset, hmoved⟩

/-- The readers of a file that share a handle behave as if each had its own exactly when no reader at
the last position there is reads before the handle was moved. -/
theorem shared_eq_private_iff (X : Extern) (file : OsFile) (ops : List FileOp) :
    outputs (SharedReaders.step X) { state := file.sharedHandle, readers := [] } ops =
        outputs (privateStep file.content) [] ops ↔
      Along (fun w op => (w.step X op).1) (fun w op => ¬ ReadsUnmoved w op)
        { state := file.sharedHandle, readers := [] } ops := by
  have hstart : InStep file.content { state := file.sharedHandle, readers := [] } [] :=
    ⟨rfl, rfl, .inl rfl⟩
  have hstep (w : SharedReaders) (ps : List UInt64) (op : FileOp) (h : InStep file.content w ps)
      (hop : ¬ ReadsUnmoved w op) : (w.step X op).2 = (privateStep file.content ps op).2 ∧
        InStep file.content (w.step X op).1 (privateStep file.content ps op).1 := inStep_step h hop
  have hbad (w : SharedReaders) (ps : List UInt64) (op : FileOp) (h : InStep file.content w ps)
      (hop : ¬ ¬ ReadsUnmoved w op) : (w.step X op).2 ≠ (privateStep file.content ps op).2 := by
    rw [not_not] at hop
    cases op with
    | read i len limit =>
      obtain ⟨hr, hlast⟩ := hop
      have hps : ps[i]? = some 0xFFFFFFFFFFFFFFFF := by
        rw [getElem?_positions h.positions, hr]
        rfl
      have hne := read_unmoved (X := X) (r := { pos := 0xFFFFFFFFFFFFFFFF }) rfl hlast file.content len
        limit
      simp only [SharedReaders.step, privateStep, hr, hps]
      exact fun heq => hne (Option.some.inj (congrArg Prod.fst heq))
    | _ => exact hop.elim
  exact outputs_eq_iff hstep hbad hstart ops

/-- A reader at the last position there is reads the first byte of the file. -/
theorem unmoved_read : ∃ file : OsFile, ∃ ops : List FileOp,
    outputs (SharedReaders.step reference) { state := file.sharedHandle, readers := [] } ops ≠
      outputs (privateStep file.content) [] ops :=
  ⟨{ content := oneByte 0x61, pos := 0 }, [.atOffset 0xFFFFFFFFFFFFFFFF, .read 0 1 1], by decide⟩

end Kzip.Impl
