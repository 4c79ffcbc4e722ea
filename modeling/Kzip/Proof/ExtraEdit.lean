import Kzip.Proof.Edit
import Kzip.Spec.ExtraEdit

/-!
# Edits of extra fields

The mutations that a handle records find a field by counting those with its id, which is the field at that
position (`removeNth_eq`, `replaceNth_eq`). So they mean what they should, but for the deletion of all
fields by their id (`apply_eq_meaning_iff`).
-/

namespace Kzip.Impl

open Lib Kzip.Spec

/-! ## Positions -/

theorem positionOf_cons (id : UInt16) (n : Nat) (f : ExtraField) (fields : List ExtraField) :
    positionOf id n (f :: fields) =
      if f.1 = id then
        if n = 0 then some 0 else (positionOf id (n - 1) fields).map (· + 1)
      else (positionOf id n fields).map (· + 1) := by
  have htail : ((List.range fields.length).map (· + 1)).filter
      (fun k => (f :: fields)[k]?.any fun f => f.1 == id) =
        ((List.range fields.length).filter fun k => fields[k]?.any fun f => f.1 == id).map (· + 1) := by
    rw [List.filter_map]
    rfl
  rw [positionOf, List.length_cons, List.range_succ_eq_map, List.filter_cons, htail]
  by_cases hf : f.1 = id
  · rw [if_pos (by simp [hf]), if_pos hf]
    cases n with
    | zero => rfl
    | succ n => simp [positionOf]
  · rw [if_neg (by simp [hf]), if_neg hf, List.getElem?_map]
    rfl

theorem removeNth_eq (id : UInt16) (n : Nat) (fields : List ExtraField) :
    removeNth id n fields = ((positionOf id n fields).map fields.eraseIdx).getD fields := by
  induction fields generalizing n with
  | nil => cases n <;> rfl
  | cons f fields ih =>
    rw [positionOf_cons]
    by_cases hf : f.1 = id
    · rw [if_pos hf]
      cases n with
      | zero => simp [removeNth, hf]
      | succ n =>
        simp only [removeNth, hf, ↓reduceIte, ih, Nat.add_one_ne_zero, Nat.add_one_sub_one]
        cases positionOf id n fields <;> simp
    · simp only [removeNth, hf, ↓reduceIte, ih]
      cases positionOf id n fields <;> simp

theorem replaceNth_eq (id : UInt16) (data : Bytes) (n : Nat) (fields : List ExtraField) :
    replaceNth id data n fields = (positionOf id n fields).map fun k => fields.set k (id, data) := by
  induction fields generalizing n with
  | nil => cases n <;> rfl
  | cons f fields ih =>
    rw [positionOf_cons]
    by_cases hf : f.1 = id
    · rw [if_pos hf]
      cases n with
      | zero => simp [replaceNth, hf]
      | succ n =>
        simp only [replaceNth, hf, ↓reduceIte, ih, Nat.add_one_ne_zero, Nat.add_one_sub_one]
        cases positionOf id n fields <;> simp
    · simp only [replaceNth, hf, ↓reduceIte, ih]
      cases positionOf id n fields <;> simp

/-! ## One edit -/

/-- A recorded mutation means what is documented, unless it is to delete all fields by their id and there
is one with an id of its own. -/
theorem apply_eq_meaning_iff (fields : List ExtraField) (op : ExtraFieldOp) :
    op.apply fields = meaning fields op ↔
      ∀ efIdx, op = .deleteById zipExtraFieldAll efIdx → ∀ f ∈ fields, f.1 = zipExtraFieldAll := by
  cases op with
  | set id efIdx data =>
    refine iff_of_true ?_ fun _ h => by cases h
    rw [ExtraFieldOp.apply, meaning, replaceNth_eq]
    split
    · rfl
    · cases positionOf id efIdx.toNat fields <;> rfl
  | delete efIdx => exact iff_of_true rfl fun _ h => by cases h
  | deleteById id efIdx =>
    rw [ExtraFieldOp.apply, meaning, removeNth_eq]
    by_cases hid : id = zipExtraFieldAll
    · rw [if_pos (.inl hid), if_pos hid, List.filter_eq_nil_iff, hid]
      simp
    · have hvacuous : ∀ efIdx', ExtraFieldOp.deleteById id efIdx = .deleteById zipExtraFieldAll efIdx' →
          ∀ f ∈ fields, f.1 = zipExtraFieldAll := by
        rintro efIdx' h
        cases h
        exact absurd rfl hid
      refine iff_of_true ?_ hvacuous
      rw [if_neg hid]
      by_cases hall : efIdx = zipExtraFieldAll
      · rw [if_pos (.inr hall), if_pos hall]
      · rw [if_neg (not_or.mpr ⟨hid, hall⟩), if_neg hall]
        cases positionOf id efIdx.toNat fields <;> rfl

/-- What a call does to the fields of the entry. -/
theorem effectiveExtraFields_run (index : Nat) (z : Zip) (call : ExtraCall) :
    effectiveExtraFields (call.run index z).2.archive (call.run index z).2.pending index =
      if (call.run index z).1 = -1 then effectiveExtraFields z.archive z.pending index
      else call.op.apply (effectiveExtraFields z.archive z.pending index) := by
  have hpush (op : ExtraFieldOp) :
      effectiveExtraFields (z.pushExtraFieldOp index op).archive (z.pushExtraFieldOp index op).pending
        index = op.apply (effectiveExtraFields z.archive z.pending index) := by
    show (valuesAt (pushAt z.pending.extraFieldOps index op) index).foldl ExtraFieldOp.apply _ = _
    rw [valuesAt_pushAt, if_pos rfl, List.foldl_append]
    rfl
  have hedit (refuse : Option ZipErrorCode) (op : ExtraFieldOp) :
      effectiveExtraFields (z.edit refuse (z.pushExtraFieldOp index op)).2.archive
        (z.edit refuse (z.pushExtraFieldOp index op)).2.pending index =
      if (z.edit refuse (z.pushExtraFieldOp index op)).1 = -1 then
        effectiveExtraFields z.archive z.pending index
      else op.apply (effectiveExtraFields z.archive z.pending index) := by
    rcases edit_cases z refuse (z.pushExtraFieldOp index op) with ⟨code, h⟩ | ⟨-, h⟩
    · rw [h]
      rfl
    · rw [h]
      exact hpush op
  cases call <;> exact hedit _ _

/-! ## Runs -/

/-- The handle has the fields that were asked for after every call, exactly when no call asks for all fields
by their id while there is one with an id of its own. -/
theorem extraEdits_iff (index : Nat) (z : Zip) (hfresh : valuesAt z.pending.extraFieldOps index = [])
    (calls : List ExtraCall) :
    Throughout (extraStep index) (AsDocumented index) (z, originalFields z.archive index) calls ↔
      Along (extraStep index) (SparesOthers index) (z, originalFields z.archive index) calls := by
  have hrun (s : Zip × List ExtraField) (call : ExtraCall) (h : AsDocumented index s) :
      AsDocumented index (extraStep index s call) ↔ SparesOthers index s call := by
    rw [AsDocumented, extraStep, effectiveExtraFields_run, SparesOthers]
    rw [AsDocumented] at h
    by_cases hrefused : (call.run index s.1).1 = -1
    · rw [if_pos hrefused, if_pos hrefused]
      exact iff_of_true h fun hne => absurd hrefused hne
    · rw [if_neg hrefused, if_neg hrefused, h, apply_eq_meaning_iff]
      refine ⟨fun hop _ efIdx hcall => hop efIdx (hcall ▸ rfl), fun hcall efIdx hop => ?_⟩
      refine hcall hrefused efIdx ?_
      cases call <;> cases hop
      rfl
  refine throughout_iff_along (fun _ h => h) (fun s call h hc => (hrun s call h).mpr hc)
    (fun s call h hc hnext => hc ((hrun s call h).mp hnext)) ?_ calls
  rw [AsDocumented, effectiveExtraFields, hfresh]
  show _ = originalFields z.archive index
  rw [originalFields]
  cases z.archive.dirent index <;> rfl

/-- The calls that add a field and delete all fields by their id. -/
def deleteAllCalls : List ExtraCall :=
  [.set 0x7777 zipExtraFieldNew (some [1]) 1, .deleteById zipExtraFieldAll zipExtraFieldAll]

/-- The field is still there. -/
theorem extraField_not_deleted : ∃ a, Archive.open { kind := .vec, bytes := sampleArchive } = .ok a ∧
    ¬ Throughout (extraStep 0) (AsDocumented 0) (makeZip a 0, originalFields a 0) deleteAllCalls := by
  obtain ⟨a, ha, hp⟩ := exists_ok (x := Archive.open { kind := .vec, bytes := sampleArchive })
    (p := fun a =>
      let s := deleteAllCalls.foldl (extraStep 0) (makeZip a 0, originalFields a 0)
      decide (effectiveExtraFields s.1.archive s.1.pending 0 ≠ s.2))
    (by decide +kernel)
  exact ⟨a, ha, fun h => of_decide_eq_true hp h.last⟩

theorem extraEdits_sample : ∃ a, Archive.open { kind := .vec, bytes := sampleArchive } = .ok a ∧
    (Throughout (extraStep 0) (AsDocumented 0) (makeZip a 0, originalFields a 0)
        [.set 0x7777 0 (some [1]) 1, .delete 0] ↔
      Along (extraStep 0) (SparesOthers 0) (makeZip a 0, originalFields a 0)
        [.set 0x7777 0 (some [1]) 1, .delete 0]) := by
  obtain ⟨a, ha, -⟩ := exists_ok (x := Archive.open { kind := .vec, bytes := sampleArchive })
    (p := fun _ => true) (by decide +kernel)
  exact ⟨a, ha, extraEdits_iff 0 (makeZip a 0) rfl [.set 0x7777 0 (some [1]) 1, .delete 0]⟩

end Kzip.Impl
