import Kzip.Impl.Archive
import Kzip.Proof.Dirent
import Kzip.Proof.File

/-!
# Malformed input is refused without a panic

No step of opening an archive or of reading an entry panics, but for one: the sum of data offset and
compressed size by which the slice of an entry is cut out (`openDirent_panic`).
-/

namespace Kzip.Impl

open Lib Lib.LE

variable {X : Extern}

theorem ok_ne_panic {α : Type} {a : α} : (.ok a : Result α) ≠ .error .panic := by simp

theorem err_ne_panic {α : Type} {code : ZipErrorCode} :
    (.error (.err code) : Result α) ≠ .error .panic := by simp

/-! ## The directory -/

theorem CentralFixed.read_needs : Cursor.Needs CentralFixed.read 42 :=
  (Cursor.Needs.u16 _).bind fun _ => (Cursor.Needs.u16 _).bind fun _ =>
  (Cursor.Needs.u16 _).bind fun _ => (Cursor.Needs.u16 _).bind fun _ =>
  (Cursor.Needs.u16 _).bind fun _ => (Cursor.Needs.u16 _).bind fun _ =>
  (Cursor.Needs.u32 _).bind fun _ => (Cursor.Needs.u32 _).bind fun _ =>
  (Cursor.Needs.u32 _).bind fun _ => (Cursor.Needs.u16 _).bind fun _ =>
  (Cursor.Needs.u16 _).bind fun _ => (Cursor.Needs.u16 _).bind fun _ =>
  (Cursor.Needs.u16 _).bind fun _ => (Cursor.Needs.u16 _).bind fun _ =>
  (Cursor.Needs.u32 _).bind fun _ => (Cursor.Needs.u32 _).bind fun _ => .pure _

theorem take_no_panic {n : Nat} {code : ZipErrorCode} (s : Bytes) :
    Cursor.take n (Fault.err code) s ≠ .error .panic :=
  fun h => nomatch Cursor.FailsOnly.take n (Fault.err code) s _ h

theorem readBytes_no_panic (n : Nat) (s : Bytes) : readBytes n s ≠ .error .panic :=
  Cursor.bind_ne_error (take_no_panic s) fun _ _ _ h => nomatch h

/-- The fixed part is parsed from a buffer of its whole length. -/
theorem parseCentral_no_panic (bs : Bytes) : Dirent.parseCentral bs ≠ .error .panic := by
  refine Cursor.bind_ne_error (take_no_panic bs) fun raw s hraw => ?_
  obtain ⟨-, hlen⟩ := Cursor.take_ok.mp hraw
  split
  · exact err_ne_panic
  · obtain ⟨f, hf⟩ := CentralFixed.read_needs (raw.drop 4) (by rw [List.length_drop, hlen]; decide)
    refine Cursor.bind_ne_error ?_ fun f s _ => ?_
    · rw [Cursor.within, hf]; exact ok_ne_panic
    refine Cursor.bind_ne_error (readBytes_no_panic _ _) fun filename s _ => ?_
    refine Cursor.bind_ne_error (take_no_panic _) fun extra s _ => ?_
    refine Cursor.bind_ne_error (readBytes_no_panic _ _) fun comment s _ => ?_
    exact map_ne_error ofCentral_no_panic

theorem parseEntriesLoop_no_panic (n : Nat) (buf : Bytes) :
    parseEntriesLoop n buf ≠ .error .panic := by
  induction n generalizing buf with
  | zero => exact nofun
  | succ n ih =>
    cases buf with
    | nil => exact nofun
    | cons b bs =>
      rw [parseEntriesLoop]
      cases hp : Dirent.parseCentral (b :: bs) with
      | ok r => exact bind_ne_error (ih _) fun _ _ => nofun
      | error e =>
        cases e with
        | err c => exact nofun
        | panic => exact absurd hp (parseCentral_no_panic _)

theorem readEntries_no_panic (src : Source) (offset cdirSize numEntries : UInt64) :
    readEntries src offset cdirSize numEntries ≠ .error .panic := by
  refine guard_ne_error nofun fun _ => guard_ne_error nofun fun _ => ?_
  split
  · exact nofun
  · refine bind_ne_error (parseEntriesLoop_no_panic _ _) fun _ _ => ?_
    dsimp only
    split <;> exact nofun

theorem cdirAt_no_panic (src : Source) (comment : Lib.Utf8.Str) (n : UInt64) (z : Bool)
    (cdirSize cdirOffset : UInt64) : cdirAt src comment n z cdirSize cdirOffset ≠ .error .panic :=
  bind_ne_error (readEntries_no_panic _ _ _ _) fun _ _ => nofun

theorem finishCdir_no_panic (src : Source) (comment : Lib.Utf8.Str) (n : UInt16) (z : Bool)
    (cdirSize cdirOffset : UInt64) :
    finishCdir src comment n z cdirSize cdirOffset ≠ .error .panic := by
  rw [finishCdir]
  split
  · exact nofun
  · exact cdirAt_no_panic _ _ _ _ _ _

theorem cdirOf_no_panic (src : Source) (comment : Lib.Utf8.Str) (n : UInt16)
    (cdirSize cdirOffset : UInt64) (locator : Option UInt64) :
    cdirOf src comment n cdirSize cdirOffset locator ≠ .error .panic := by
  unfold cdirOf
  split
  · exact finishCdir_no_panic _ _ _ _ _ _
  · split
    · split
      · exact cdirAt_no_panic _ _ _ _ _ _
      · exact finishCdir_no_panic _ _ _ _ _ _
    · exact finishCdir_no_panic _ _ _ _ _ _

theorem firstCdir_no_panic (src : Source) (tail : Bytes) (start : Nat) (cands : List Nat) :
    firstCdir src tail start cands ≠ .error .panic := by
  induction cands with
  | nil => exact nofun
  | cons abs cands ih =>
    refine bind_ne_error ?_ fun o _ => ?_
    · rw [tryParseCdir]
      dsimp only
      split
      · exact nofun
      · split
        · exact nofun
        · split
          · exact nofun
          · exact map_ne_error (cdirOf_no_panic _ _ _ _ _ _)
    · cases o with
      | none => exact ih
      | some cd => exact nofun

theorem readCentralDir_no_panic (src : Source) : readCentralDir src ≠ .error .panic := by
  refine guard_ne_error nofun fun _ => bind_ne_error (firstCdir_no_panic _ _ _ _) fun o _ => ?_
  cases o with
  | none => dsimp only; split <;> exact nofun
  | some cd => exact nofun

theorem open_no_panic (src : Source) : Archive.open src ≠ .error .panic :=
  bind_ne_error (readCentralDir_no_panic src) fun _ _ => nofun

/-! ## Opening an entry -/

theorem readAt_no_panic (s : Source) (pos n : Nat) : s.readAt pos n ≠ .error .panic := by
  refine guard_ne_error nofun fun _ => ?_
  split <;> exact nofun

theorem localHeaderLen_no_panic (src : Source) (offset : Nat) :
    localHeaderLen src offset ≠ .error .panic :=
  bind_ne_error (readAt_no_panic _ _ _) fun _ _ => guard_ne_error nofun fun _ => nofun

theorem findDataOffset_no_panic (d : Dirent) (src : Source) :
    d.findDataOffset src ≠ .error .panic := by
  rw [Dirent.findDataOffset]
  split
  · exact nofun
  · exact localHeaderLen_no_panic _ _

theorem decoderNew_no_panic (src : Bytes) (method : CompressionMethod) (compSize : UInt64) :
    Decoder.new X src method compSize ≠ .error .panic := by
  rw [Decoder.new]
  split <;> exact nofun

theorem decodeSliceInto_no_panic (data : Bytes) (method : CompressionMethod) (compSize : UInt64)
    (out : Bytes) : decodeSliceInto X data method compSize out ≠ .error .panic := by
  simp only [decodeSliceInto]
  split
  · exact err_ne_panic
  · exact guard_ne_error (by decide) fun _ => guard_ne_error (by decide) fun _ => ok_ne_panic

theorem resolvePassword_no_panic (a : Archive) (password : Option Bytes) :
    a.resolvePassword password ≠ .error .panic := by
  rw [Archive.resolvePassword]
  split <;> exact nofun

theorem aesDecryptData_no_panic (password : Bytes) (method : UInt16) (data : Bytes) :
    aesDecryptData X password method data ≠ .error .panic :=
  guard_ne_error nofun fun _ => guard_ne_error nofun fun _ => guard_ne_error nofun fun _ => nofun

theorem openStreaming_no_panic (a : Archive) (d : Dirent) (off : Nat) (password : Option Bytes) :
    a.openStreaming X d off password ≠ .error .panic := by
  rw [Archive.openStreaming]
  split
  · split
    · refine bind_ne_error (resolvePassword_no_panic _ _) fun pw _ => guard_ne_error nofun fun _ => ?_
      refine bind_ne_error (readAt_no_panic _ _ _) fun region _ => ?_
      refine bind_ne_error (aesDecryptData_no_panic _ _ _) fun plain _ => ?_
      exact bind_ne_error (decoderNew_no_panic _ _ _) fun _ _ => nofun
    · refine guard_ne_error nofun fun _ => ?_
      refine bind_ne_error (resolvePassword_no_panic _ _) fun pw _ => ?_
      refine bind_ne_error (readAt_no_panic _ _ _) fun header _ => ?_
      refine guard_ne_error nofun fun _ => guard_ne_error nofun fun _ => ?_
      exact bind_ne_error (decoderNew_no_panic _ _ _) fun _ _ => nofun
  · exact bind_ne_error (decoderNew_no_panic _ _ _) fun _ _ => nofun

/-! ## Reading -/

/-- Cutting out the slice of an entry is what can panic: its end is a sum of two numbers that the
archive gives. -/
theorem openSlice_panic {a : Archive} {d : Dirent} {off : Nat} :
    (∃ a', a.openSlice X d off = some (.error .panic, a')) ↔
      a.src.asSlice.isSome ∧ X.overflowChecks = true ∧ 2 ^ 64 ≤ off + d.compSize.toNat := by
  rw [Archive.openSlice, addUsize]
  cases a.src.asSlice with
  | none => simp
  | some slice =>
    by_cases hfit : off + d.compSize.toNat < 2 ^ 64
    · simp only [hfit, ↓reduceIte, Option.isSome_some, Nat.not_le.mpr hfit, and_false, iff_false,
        not_exists, Option.ite_none_right_eq_some, not_and]
      intro a' _ h
      split at h
      · rename_i e he
        cases h
        exact decodeSliceInto_no_panic _ _ _ _ he
      · cases h
    · by_cases hchecks : X.overflowChecks
      · simp only [hfit, hchecks, ↓reduceIte, Option.isSome_some, Nat.le_of_not_lt hfit, and_self,
          iff_true]
        exact ⟨a, rfl⟩
      · simp only [hfit, hchecks, Bool.false_eq_true, ↓reduceIte, false_and, and_false, iff_false,
          not_exists, Option.ite_none_right_eq_some, not_and]
        intro a' _ h
        split at h
        · rename_i e he
          cases h
          exact decodeSliceInto_no_panic _ _ _ _ he
        · cases h

/-- Opening an entry panics exactly when its slice is asked for past the end of the address space. -/
theorem openDirent_panic {a : Archive} (hlen : a.src.bytes.length < 2 ^ 63) {index : Nat} {d : Dirent}
    {password : Option Bytes} :
    (a.openDirent X index d password).1 = .error .panic ↔
      ∃ off, d.findDataOffset a.src = .ok off ∧ d.zeroCopy = true ∧ a.src.asSlice.isSome ∧
        X.overflowChecks = true ∧ 2 ^ 64 ≤ off + d.compSize.toNat := by
  rw [Archive.openDirent]
  cases hoff : d.findDataOffset a.src with
  | error e =>
    have := findDataOffset_no_panic d a.src
    rw [hoff] at this
    simpa using this
  | ok off =>
    have hshared (r : EntryReader) (h : (a.cacheOffset index off).openShared d off = some r) :
        off + d.compSize.toNat ≤ a.src.bytes.length := by
      simp only [Archive.openShared, Option.ite_none_right_eq_some] at h
      obtain ⟨-, h⟩ := h
      split at h
      · rename_i data hdata
        have hdata : data = a.src.bytes := Source.sharedData_eq hdata
        rw [Option.ite_none_right_eq_some, hdata] at h
        exact h.1
      · cases h
    have hslice := @openSlice_panic X (a.cacheOffset index off) d off
    simp only [Except.ok.injEq, exists_eq_left']
    rw [show a.src.asSlice = (a.cacheOffset index off).src.asSlice from rfl, ← hslice,
      Archive.openZeroCopy]
    by_cases hz : d.zeroCopy
    · simp only [hz, ↓reduceIte, true_and]
      cases hs : (a.cacheOffset index off).openShared d off with
      | some r =>
        have := hshared r hs
        rw [hslice]
        simp only [reduceCtorEq, false_iff, not_and]
        omega
      | none =>
        cases hp : (a.cacheOffset index off).openSlice X d off with
        | none => simp [openStreaming_no_panic]
        | some res =>
          obtain ⟨o, a'⟩ := res
          simp
    · simp [hz, openStreaming_no_panic]

end Kzip.Impl
