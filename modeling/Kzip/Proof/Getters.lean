import Kzip.Impl.Reference
import Kzip.Proof.Directory
import Kzip.Proof.Flag
import Kzip.Spec.Getters

/-!
# The getters agree with what a close writes

The overlays hold the effective comments and extra fields (`OverlaysCurrent`) as long as every value
fits them and no edit that shows in them is taken back: `zip_unchange` and `zip_unchange_all` leave
the overlays of comments and extra fields as they are. So in such a run the getters of every entry
agree with what a close writes, in every state (`getters_agree`).
-/

namespace Kzip.Impl

open Lib Lib.Utf8 Kzip.Spec

variable {X : Extern}

/-! ## Slots -/

theorem getD_setSlot {α : Type} (slots : List α) (empty x : α) (i j : Nat) :
    (setSlot slots empty i x)[j]?.getD empty = if i = j then x else slots[j]?.getD empty := by
  rw [setSlot, List.getElem?_set]
  by_cases h : i = j
  · subst h
    have hlen : i < (slots ++ List.replicate (i + 1 - slots.length) empty).length := by
      rw [List.length_append, List.length_replicate]
      omega
    rw [if_pos rfl, if_pos hlen, if_pos rfl]
    rfl
  · rw [if_neg h, if_neg h]
    by_cases hj : j < slots.length
    · rw [List.getElem?_append_left hj]
    · rw [List.getElem?_append_right (by omega), List.getElem?_eq_none (by omega : slots.length ≤ j),
        List.getElem?_replicate]
      split <;> rfl

theorem findNth_eq (id : UInt16) (n : Nat) (fields : List ExtraField) :
    findNth id n fields = ((fields.filter fun f => f.1 == id)[n]?).map (·.2) := by
  induction fields generalizing n with
  | nil => cases n <;> rfl
  | cons f fields ih =>
    by_cases h : f.1 = id
    · cases n with
      | zero => simp [findNth, h]
      | succ n => simp [findNth, h, ih]
    · simp [findNth, h, ih]

/-! ## What a call does to the overlays -/

/-- The comment overlay after an effect. -/
def commentsAfter (comments : List (Option Bytes)) : Effect → List (Option Bytes)
  | .record i (.comment comment) =>
    setSlot comments none i (comment.bind fun bs => if bs = [] then none else cString bs)
  | _ => comments

/-- The extra-field overlay after an effect that leaves the handle `z` behind. -/
def fieldsAfter (fields : List (List ExtraField)) (z : Zip) : Effect → List (List ExtraField)
  | .record i (.extraField _) => setSlot fields [] i (effectiveExtraFields z.archive z.pending i)
  | _ => fields

/-- A call that fails leaves the overlays as they are, and one that succeeds refreshes the slots of
its effect. -/
def HasOverlays (z : Zip) (e : Effect) (r : Int × Zip) : Prop :=
  (r.1 = -1 → r.2.comments = z.comments ∧ r.2.extraFields = z.extraFields) ∧
  (r.1 ≠ -1 → r.2.comments = commentsAfter z.comments e ∧
    r.2.extraFields = fieldsAfter z.extraFields r.2 e)

theorem hasOverlays_keep {z : Zip} {e : Effect} {r : Int × Zip} (hcomments : r.2.comments = z.comments)
    (hfields : r.2.extraFields = z.extraFields) (hc : commentsAfter z.comments e = z.comments)
    (hf : fieldsAfter z.extraFields r.2 e = z.extraFields) : HasOverlays z e r :=
  ⟨fun _ => ⟨hcomments, hfields⟩, fun _ => ⟨hcomments.trans hc.symm, hfields.trans hf.symm⟩⟩

theorem hasOverlays_edit {z z' : Zip} {e : Effect} {refuse : Option ZipErrorCode}
    (hc : z'.comments = commentsAfter z.comments e)
    (hf : z'.extraFields = fieldsAfter z.extraFields z' e) : HasOverlays z e (z.edit refuse z') := by
  rcases edit_cases z refuse z' with ⟨code, hfail⟩ | ⟨-, hok⟩
  · rw [hfail]
    exact ⟨fun _ => ⟨rfl, rfl⟩, fun h => absurd rfl h⟩
  · rw [hok]
    exact ⟨fun h => absurd (show (0 : Int) = -1 from h) (by decide), fun _ => ⟨hc, hf⟩⟩

theorem hasOverlays_run (X : Extern) (z : Zip) (c : ZipCall) :
    HasOverlays z (c.effect z.archive) (c.run X z) := by
  cases c with
  | fileAdd name source flags =>
    have heffect : ∀ z' : Zip, commentsAfter z.comments ((ZipCall.fileAdd name source flags).effect z.archive) =
        z.comments ∧ fieldsAfter z.extraFields z' ((ZipCall.fileAdd name source flags).effect z.archive) =
        z.extraFields := by
      intro z'
      simp only [ZipCall.effect]
      split <;> exact ⟨rfl, rfl⟩
    have hpending := fileAdd_pendingOnly z name source flags
    exact hasOverlays_keep (hpending.same (f := Zip.comments) (fun _ => rfl) fun _ _ => rfl)
      (hpending.same (f := Zip.extraFields) (fun _ => rfl) fun _ _ => rfl) (heffect z).1 (heffect _).2
  | dirAdd name =>
    have hpending := dirAdd_pendingOnly z name
    exact hasOverlays_keep (hpending.same (f := Zip.comments) (fun _ => rfl) fun _ _ => rfl)
      (hpending.same (f := Zip.extraFields) (fun _ => rfl) fun _ _ => rfl) rfl rfl
  | rename index name =>
    rw [ZipCall.run, rename_eq_edit]
    exact hasOverlays_edit rfl rfl
  | fileReplace index source =>
    rw [fileReplace_eq_edit]
    exact hasOverlays_edit rfl rfl
  | setArchiveFlag flag value =>
    simp only [ZipCall.run]
    rcases setArchiveFlag_cases z flag value with ⟨code, h⟩ | h | ⟨-, h⟩ <;> rw [h] <;>
      exact hasOverlays_keep rfl rfl rfl rfl
  | setDefaultPassword password => cases password <;> exact hasOverlays_keep rfl rfl rfl rfl
  | unchange index =>
    simp only [ZipCall.run, Zip.unchange]
    split <;> exact hasOverlays_keep rfl rfl rfl rfl
  | unchangeAll | unchangeArchive | openEntry | readEntry => exact hasOverlays_keep rfl rfl rfl rfl
  | _ => exact hasOverlays_edit rfl rfl

/-! ## What an effect does to the effective values -/

/-- The effective comment of the entry at `i` after an effect. -/
def commentAfter (a : Archive) (p : PendingOps) (i : Nat) : Effect → Option Bytes
  | .record j (.comment comment) => if j = i then comment else effectiveComment a p i
  | .unchange j => if j = i then effectiveComment a .default i else effectiveComment a p i
  | .clear => effectiveComment a .default i
  | _ => effectiveComment a p i

/-- The effective extra fields of the entry at `i` after an effect. -/
def extraFieldsAfter (a : Archive) (p : PendingOps) (i : Nat) : Effect → List ExtraField
  | .record j (.extraField op) =>
    if j = i then op.apply (effectiveExtraFields a p i) else effectiveExtraFields a p i
  | .unchange j => if j = i then effectiveExtraFields a .default i else effectiveExtraFields a p i
  | .clear => effectiveExtraFields a .default i
  | _ => effectiveExtraFields a p i

section
variable {a : Archive} {p p' : PendingOps} {e : Effect}

theorem opsAt_apply (h : editsOf p' = e.apply a.len (editsOf p)) (i : Nat) :
    opsAt p' i = (e.apply a.len (editsOf p)).ops i := congrFun (congrArg Edits.ops h) i

theorem effectiveComment_apply (h : editsOf p' = e.apply a.len (editsOf p)) (i : Nat) :
    effectiveComment a p' i = commentAfter a p i e := by
  rw [effectiveComment_eq, opsAt_apply h]
  cases e with
  | record j s =>
    rw [Effect.ops_record, Function.update_apply]
    by_cases hij : i = j
    · subst hij
      rw [if_pos rfl]
      cases s <;> simp only [EntryOps.record, commentAfter, ↓reduceIte, effectiveComment_eq a p] <;> rfl
    · rw [if_neg hij]
      cases s <;> simp only [commentAfter, effectiveComment_eq a p, Ne.symm hij, ↓reduceIte] <;> rfl
  | unchange j =>
    rw [Effect.ops_unchange, Function.update_apply, commentAfter, effectiveComment_eq,
      effectiveComment_eq]
    by_cases hij : i = j
    · rw [if_pos hij, if_pos hij.symm]
      rfl
    · rw [if_neg hij, if_neg (Ne.symm hij)]
      rfl
  | keep | add => exact (effectiveComment_eq a p i).symm
  | clear => exact (effectiveComment_eq a .default i).symm

theorem effectiveExtraFields_apply (h : editsOf p' = e.apply a.len (editsOf p)) (i : Nat) :
    effectiveExtraFields a p' i = extraFieldsAfter a p i e := by
  rw [effectiveExtraFields_eq, opsAt_apply h]
  cases e with
  | record j s =>
    rw [Effect.ops_record, Function.update_apply]
    by_cases hij : i = j
    · subst hij
      rw [if_pos rfl]
      cases s <;> simp only [EntryOps.record, extraFieldsAfter, ↓reduceIte, effectiveExtraFields_eq a p,
        List.foldl_append, List.foldl_cons, List.foldl_nil] <;> rfl
    · rw [if_neg hij]
      cases s <;> simp only [extraFieldsAfter, effectiveExtraFields_eq a p, Ne.symm hij, ↓reduceIte] <;> rfl
  | unchange j =>
    rw [Effect.ops_unchange, Function.update_apply, extraFieldsAfter, effectiveExtraFields_eq,
      effectiveExtraFields_eq]
    by_cases hij : i = j
    · rw [if_pos hij, if_pos hij.symm]
      rfl
    · rw [if_neg hij, if_neg (Ne.symm hij)]
      rfl
  | keep | add => exact (effectiveExtraFields_eq a p i).symm
  | clear => exact (effectiveExtraFields_eq a .default i).symm

end

theorem Archive.Grown.effectiveComment {a b : Archive} (h : a.Grown b) (p : PendingOps) (i : Nat) :
    effectiveComment b p i = effectiveComment a p i := by
  have hbind (c : Archive) : ((c.dirent i).bind fun d =>
        if d.comment = [] then none else some (asBytes d.comment)) =
      ((c.dirent i).map uncached).bind fun d =>
        if d.comment = [] then none else some (asBytes d.comment) := by
    cases c.dirent i <;> rfl
  rw [effectiveComment_eq, effectiveComment_eq, hbind, hbind, h.dirent]

theorem Archive.Grown.effectiveExtraFields {a b : Archive} (h : a.Grown b) (p : PendingOps) (i : Nat) :
    effectiveExtraFields b p i = effectiveExtraFields a p i := by
  have helim (c : Archive) : ((c.dirent i).elim [] fun d => withoutManaged d.extraFields) =
      ((c.dirent i).map uncached).elim [] fun d => withoutManaged d.extraFields := by
    cases c.dirent i <;> rfl
  rw [effectiveExtraFields_eq, effectiveExtraFields_eq, helim, helim, h.dirent]

/-! ## Fields that fit -/

theorem mem_replaceNth {id : UInt16} {data : Bytes} {n : Nat} {fields out : List ExtraField}
    (h : replaceNth id data n fields = some out) : ∀ f ∈ out, f ∈ fields ∨ f = (id, data) := by
  induction fields generalizing n out with
  | nil => cases n <;> cases h
  | cons g fields ih =>
    have hskip {n : Nat} (h : (replaceNth id data n fields).map (g :: ·) = some out) :
        ∀ f ∈ out, f ∈ g :: fields ∨ f = (id, data) := by
      obtain ⟨out', hout, rfl⟩ := Option.map_eq_some_iff.mp h
      intro f hf
      rcases List.mem_cons.mp hf with rfl | hf
      · exact .inl List.mem_cons_self
      · exact (ih hout f hf).imp_left (List.mem_cons_of_mem g)
    unfold replaceNth at h
    split at h
    · cases n with
      | zero =>
        cases h
        intro f hf
        rcases List.mem_cons.mp hf with rfl | hf
        · exact .inr rfl
        · exact .inl (List.mem_cons_of_mem g hf)
      | succ n => exact hskip h
    · exact hskip h

theorem removeNth_sublist (id : UInt16) (n : Nat) (fields : List ExtraField) :
    (removeNth id n fields).Sublist fields := by
  induction fields generalizing n with
  | nil => cases n <;> exact List.Sublist.refl _
  | cons f fields ih =>
    unfold removeNth
    split
    · cases n with
      | zero => exact List.sublist_cons_self f fields
      | succ n => exact (ih n).cons_cons f
    · exact (ih n).cons_cons f

/-- The data that a mutation sets fit a 16-bit length. -/
def ExtraFieldOp.Fits : ExtraFieldOp → Prop
  | .set _ _ data => data.length ≤ 0xFFFF
  | .delete _ | .deleteById _ _ => True

theorem fieldsFit_apply {fields : List ExtraField} (h : FieldsFit fields) {op : ExtraFieldOp}
    (hop : op.Fits) : FieldsFit (op.apply fields) := by
  intro f hf
  cases op with
  | delete efIdx =>
    rw [ExtraFieldOp.apply] at hf
    split at hf
    · cases hf
    · exact h f (List.mem_of_mem_eraseIdx hf)
  | deleteById id efIdx =>
    rw [ExtraFieldOp.apply] at hf
    split at hf
    · exact h f (List.mem_filter.mp hf).1
    · exact h f ((removeNth_sublist id _ fields).subset hf)
  | set id efIdx data =>
    have hadd (hf : f ∈ fields ++ [(id, data)]) : f.2.length ≤ 0xFFFF := by
      rcases List.mem_append.mp hf with hf | hf
      · exact h f hf
      · rw [List.mem_singleton.mp hf]
        exact hop
    rw [ExtraFieldOp.apply] at hf
    split at hf
    · exact hadd hf
    · cases hr : replaceNth id data efIdx.toNat fields with
      | none =>
        rw [hr] at hf
        exact hadd hf
      | some out =>
        rw [hr] at hf
        rcases mem_replaceNth hr f hf with hf | rfl
        · exact h f hf
        · exact hop

theorem length_sliceArg_le (p : Option Bytes) (len : UInt16) : (sliceArg p len.toNat).length ≤ 0xFFFF := by
  have hlen := len.toNat_lt
  rw [sliceArg, List.length_take]
  omega

/-- A call sets the data of a field with a 16-bit length. -/
theorem fits_of_effect {a : Archive} {c : ZipCall} {i : Nat} {op : ExtraFieldOp}
    (h : c.effect a = .record i (.extraField op)) : op.Fits := by
  cases c with
  | fileAdd name source flags =>
    simp only [ZipCall.effect] at h
    split at h <;> cases h
  | fileExtraFieldSet index id efIdx data len =>
    cases h
    exact length_sliceArg_le data len
  | fileExtraFieldDelete | fileExtraFieldDeleteById => cases h; exact trivial
  | _ => cases h

/-! ## The invariant -/

/-- The values of an entry are ones that the getters can report. -/
structure Reportable (a : Archive) (p : PendingOps) (i : Nat) : Prop where
  comment : CString (effectiveComment a p i)
  fit : FieldsFit (effectiveExtraFields a p i)
  few : (effectiveExtraFields a p i).length < 2 ^ 15

/-- The overlays hold the effective values of every index, and the getters can report these. -/
structure OverlaysCurrent (z : Zip) : Prop where
  opened : ∀ i, Reportable z.archive .default i
  reportable : ∀ i, Reportable z.archive z.pending i
  comments : ∀ i, z.comments[i]?.getD none = nonEmpty (effectiveComment z.archive z.pending i)
  fields : ∀ i, z.extraFields[i]?.getD [] = effectiveExtraFields z.archive z.pending i

theorem nonEmpty_some {bs : Bytes} : nonEmpty (some bs) = if bs = [] then none else some bs := by
  by_cases h : bs = [] <;> simp [nonEmpty, Option.filter, h]

/-- What the overlay holds of a comment that it can hold. -/
theorem overlay_comment {comment : Option Bytes} (h : CString comment) :
    (comment.bind fun bs => if bs = [] then none else cString bs) = nonEmpty comment := by
  cases comment with
  | none => rfl
  | some bs =>
    have hnul : cString bs = some bs := if_neg (h bs rfl).1
    rw [nonEmpty_some, Option.bind_some, hnul]

theorem reportable_apply {z : Zip} (h : OverlaysCurrent z) {p : PendingOps} {e : Effect}
    (he : editsOf p = e.apply z.archive.len (editsOf z.pending)) (hr : Refreshed z e)
    (hfits : ∀ i op, e = .record i (.extraField op) → op.Fits) (i : Nat) :
    Reportable z.archive p i := by
  have hpending := h.reportable i
  have hopened := h.opened i
  refine ⟨?_, ?_, ?_⟩
  · rw [effectiveComment_apply he]
    unfold commentAfter
    split
    · split
      · exact hr
      · exact hpending.comment
    · split
      · exact hopened.comment
      · exact hpending.comment
    · exact hopened.comment
    · exact hpending.comment
  · rw [effectiveExtraFields_apply he]
    unfold extraFieldsAfter
    split
    · split
      · exact fieldsFit_apply hpending.fit (hfits _ _ rfl)
      · exact hpending.fit
    · split
      · exact hopened.fit
      · exact hpending.fit
    · exact hopened.fit
    · exact hpending.fit
  · rw [effectiveExtraFields_apply he]
    unfold extraFieldsAfter
    split
    · split
      · rename_i hij
        exact hij ▸ hr
      · exact hpending.few
    · split
      · exact hopened.few
      · exact hpending.few
    · exact hopened.few
    · exact hpending.few

theorem commentsAfter_current {z : Zip} (h : OverlaysCurrent z) {e : Effect} (hr : Refreshed z e)
    (i : Nat) : (commentsAfter z.comments e)[i]?.getD none =
      nonEmpty (commentAfter z.archive z.pending i e) := by
  cases e with
  | record j s =>
    cases s with
    | comment comment =>
      rw [commentsAfter, getD_setSlot, overlay_comment hr, commentAfter]
      split
      · rfl
      · exact h.comments i
    | _ => exact h.comments i
  | unchange j =>
    show z.comments[i]?.getD none = _
    rw [h.comments i, commentAfter]
    split
    · rename_i hij
      exact hij ▸ hr.1
    · rfl
  | clear => exact (h.comments i).trans (hr i).1
  | keep | add => exact h.comments i

theorem fieldsAfter_current {z z' : Zip} (h : OverlaysCurrent z) {e : Effect} (hr : Refreshed z e)
    (hz : ∀ i, effectiveExtraFields z'.archive z'.pending i = extraFieldsAfter z.archive z.pending i e)
    (i : Nat) : (fieldsAfter z.extraFields z' e)[i]?.getD [] =
      extraFieldsAfter z.archive z.pending i e := by
  cases e with
  | record j s =>
    cases s with
    | extraField op =>
      rw [fieldsAfter, getD_setSlot]
      split
      · rename_i hij
        exact hij ▸ hz j
      · rename_i hij
        rw [h.fields i, extraFieldsAfter, if_neg hij]
    | _ => exact h.fields i
  | unchange j =>
    show z.extraFields[i]?.getD [] = _
    rw [h.fields i, extraFieldsAfter]
    split
    · rename_i hij
      exact hij ▸ hr.2
    · rfl
  | clear => exact (h.fields i).trans (hr i).2
  | keep | add => exact h.fields i

theorem overlaysCurrent_step {z : Zip} {c : ZipCall} (h : OverlaysCurrent z) (hc : Shows X z c) :
    OverlaysCurrent (step X z c) := by
  have hgrown : z.archive.Grown (step X z c).archive := grown_call X z c
  have hreportable {p : PendingOps} {i : Nat} (hr : Reportable z.archive p i) :
      Reportable (step X z c).archive p i := by
    refine ⟨?_, ?_, ?_⟩
    · rw [hgrown.effectiveComment]
      exact hr.comment
    · rw [hgrown.effectiveExtraFields]
      exact hr.fit
    · rw [hgrown.effectiveExtraFields]
      exact hr.few
  have hoverlays := hasOverlays_run X z c
  rcases run_cases X z c with ⟨hfail, hp⟩ | ⟨hok, -, he⟩
  · obtain ⟨hcomments, hfields⟩ := hoverlays.1 hfail
    have hp : (step X z c).pending = z.pending := hp
    refine ⟨fun i => hreportable (h.opened i), fun i => ?_, fun i => ?_, fun i => ?_⟩
    · rw [hp]
      exact hreportable (h.reportable i)
    · rw [hgrown.effectiveComment, hp, ← h.comments i]
      exact congrArg (fun l : List (Option Bytes) => l[i]?.getD none) hcomments
    · rw [hgrown.effectiveExtraFields, hp, ← h.fields i]
      exact congrArg (fun l : List (List ExtraField) => l[i]?.getD []) hfields
  · obtain ⟨hcomments, hfields⟩ := hoverlays.2 hok
    have hr := hc.resolve_left hok
    have he : editsOf (step X z c).pending =
        (c.effect z.archive).apply z.archive.len (editsOf z.pending) := he
    have heffective (i : Nat) : effectiveExtraFields (step X z c).archive (step X z c).pending i =
        extraFieldsAfter z.archive z.pending i (c.effect z.archive) := by
      rw [hgrown.effectiveExtraFields, effectiveExtraFields_apply he]
    refine ⟨fun i => hreportable (h.opened i), fun i => ?_, fun i => ?_, fun i => ?_⟩
    · exact hreportable (reportable_apply h he hr (fun i op => fits_of_effect) i)
    · rw [hgrown.effectiveComment, effectiveComment_apply he, ← commentsAfter_current h hr]
      exact congrArg (fun l : List (Option Bytes) => l[i]?.getD none) hcomments
    · rw [heffective, ← fieldsAfter_current h hr heffective]
      exact congrArg (fun l : List (List ExtraField) => l[i]?.getD []) hfields

/-! ## The getters -/

theorem gettersAgree_of_current {z : Zip} (h : OverlaysCurrent z) (i : Nat) : GettersAgree z i := by
  obtain ⟨hrep, hfit, hfew⟩ := h.reportable i
  have hfilter (id : UInt16) := List.length_filter_le (fun f : ExtraField => f.1 == id)
    (effectiveExtraFields z.archive z.pending i)
  refine ⟨h.comments i, ?_, ?_, fun id => ?_, fun id idx => ?_⟩
  · rw [Zip.fileGetComment, h.comments i]
    cases hc : effectiveComment z.archive z.pending i with
    | none => rfl
    | some bs =>
      have hlen := (hrep bs hc).2
      rw [nonEmpty_some]
      split
      · rename_i hnil
        rw [hnil]
        rfl
      · exact Int32.toInt_ofNat_of_lt hlen
  · rw [Zip.fileExtraFieldsCount, h.fields i]
    exact Int16.toInt_ofNat_of_lt hfew
  · rw [Zip.fileExtraFieldsCountById, Zip.countById, h.fields i]
    exact Int16.toInt_ofNat_of_lt (Nat.lt_of_le_of_lt (hfilter id) hfew)
  · rw [Zip.fileExtraFieldGetById, h.fields i, findNth_eq, Option.map_map, Option.map_map]
    refine Option.map_congr fun f hf => ?_
    have hmem : f ∈ effectiveExtraFields z.archive z.pending i :=
      (List.mem_filter.mp (List.mem_of_getElem? hf)).1
    have hlen := hfit f hmem
    show (f.2, (UInt16.ofNat f.2.length).toNat) = (f.2, f.2.length)
    rw [toNat_ofNat_u16 hlen]

/-! ## The handle of an archive that was just opened -/

/-- The comment and the extra fields of a parsed entry come from blocks with 16-bit lengths. -/
theorem parseCentral_parts {bs rest : Bytes} {d : Dirent} (h : Dirent.parseCentral bs = .ok (d, rest)) :
    (asBytes d.comment).length < 2 ^ 31 ∧ FieldsFit d.extraFields ∧ d.extraFields.length < 2 ^ 15 := by
  obtain ⟨f, filename, extra, comment, -, hlen, hd⟩ := parseCentral_ok h
  obtain ⟨fields, v, hfields, -, -, rfl⟩ := ofCentral_ok.mp hd
  obtain ⟨hfit, tail, hraw, -⟩ := parseExtraFields_ok hfields
  have hcomment := length_asBytes_fromUtf8Lossy comment
  have hcommentLen := f.commentLen.toNat_lt
  have hextraLen := f.extraLen.toNat_lt
  have hcount : 4 * fields.length ≤ (rawFields fields).length := length_rawFields_ge fields
  have hextra := congrArg List.length hraw
  rw [List.length_append, hlen.extra] at hextra
  rw [hlen.comment] at hcomment
  refine ⟨?_, hfit, ?_⟩
  · show (asBytes (fromUtf8Lossy comment)).length < 2 ^ 31
    omega
  · show fields.length < 2 ^ 15
    omega

theorem reportable_opened {src : Source} {a : Archive} (h : Archive.open src = .ok a)
    (hnul : ∀ d ∈ a.entries, 0 ∉ asBytes d.comment) (i : Nat) : Reportable a .default i := by
  obtain ⟨cd, hcd, ha⟩ := bind_ok.mp h
  have hread : ∀ d ∈ a.entries, d.IsRead := by
    cases ha
    exact readCentralDir_read hcd
  cases hd : a.dirent i with
  | none =>
    refine ⟨?_, ?_, ?_⟩
    · rw [effectiveComment_eq, hd]
      exact nofun
    · rw [effectiveExtraFields_eq, hd]
      exact nofun
    · rw [effectiveExtraFields_eq, hd]
      exact show 0 < 2 ^ 15 by decide
  | some d =>
    have hmem : d ∈ a.entries := List.mem_of_getElem? hd
    obtain ⟨bs, rest, hparse⟩ := hread d hmem
    obtain ⟨hlen, hfit, hfew⟩ := parseCentral_parts hparse
    refine ⟨?_, ?_, ?_⟩
    · rw [effectiveComment_eq, hd]
      show CString (if d.comment = [] then none else some (asBytes d.comment))
      split
      · exact nofun
      · intro bs hbs
        cases hbs
        exact ⟨hnul d hmem, hlen⟩
    · rw [effectiveExtraFields_eq, hd]
      exact fun f hf => hfit f (List.mem_filter.mp hf).1
    · rw [effectiveExtraFields_eq, hd]
      exact Nat.lt_of_le_of_lt (List.length_filter_le _ _) hfew

theorem overlaysCurrent_makeZip {src : Source} {a : Archive} (h : Archive.open src = .ok a)
    (hnul : ∀ d ∈ a.entries, 0 ∉ asBytes d.comment) (flags : Int32) :
    OverlaysCurrent (makeZip a flags) := by
  have hopened := reportable_opened h hnul
  refine ⟨hopened, hopened, fun i => ?_, fun i => ?_⟩
  · have hcomment := overlay_comment (hopened i).comment
    rw [effectiveComment_eq] at hcomment
    show (a.entries.map fun d => if d.comment = [] then none else cString (asBytes d.comment))[i]?.getD
      none = nonEmpty (effectiveComment a .default i)
    rw [effectiveComment_eq, ← hcomment, List.getElem?_map, Archive.dirent]
    cases a.entries[i]? with
    | none => rfl
    | some d =>
      show (if d.comment = [] then none else cString (asBytes d.comment)) =
        (if d.comment = [] then none else some (asBytes d.comment)).bind _
      split
      · rfl
      · rename_i hne
        have hbytes : asBytes d.comment ≠ [] := asBytes_ne_nil hne
        rw [Option.bind_some, if_neg hbytes]
  · show (a.entries.map fun d => withoutManaged d.extraFields)[i]?.getD [] =
      effectiveExtraFields a .default i
    rw [effectiveExtraFields_eq, List.getElem?_map, Archive.dirent]
    cases a.entries[i]? <;> rfl

/-- In a run whose calls all show in the overlays, on an archive whose comments hold no NUL, the
getters agree with what a close writes in every state. -/
theorem getters_agree (X : Extern) {src : Source} {a : Archive} (h : Archive.open src = .ok a)
    (hnul : ∀ d ∈ a.entries, 0 ∉ asBytes d.comment) (flags : Int32) (calls : List ZipCall)
    (hrun : Along (step X) (Shows X) (makeZip a flags) calls) :
    Throughout (step X) (fun z => ∀ i < z.total, GettersAgree z i) (makeZip a flags) calls := by
  have hstep (z : Zip) (c : ZipCall) (hz : OverlaysCurrent z) (hc : Shows X z c) :
      OverlaysCurrent (step X z c) := overlaysCurrent_step hz hc
  exact hrun.throughout (fun _ hz i _ => gettersAgree_of_current hz i) hstep
    (overlaysCurrent_makeZip h hnul flags)

/-- The calls that set an extra field and a comment of the first entry. -/
def annotateCalls : List ZipCall :=
  [.fileExtraFieldSet 0 0x7777 zipExtraFieldNew (some [1]) 1, .fileSetComment 0 (some [0x78]) 1]

theorem getters_sample : ∃ a, Archive.open { kind := .vec, bytes := sampleArchive } = .ok a ∧
    Throughout (step reference) (fun z => ∀ i < z.total, GettersAgree z i) (makeZip a 0)
      annotateCalls := by
  obtain ⟨a, ha, hp⟩ := exists_ok (x := Archive.open { kind := .vec, bytes := sampleArchive })
    (p := fun a => decide ((∀ d ∈ a.entries, 0 ∉ asBytes d.comment) ∧
      ((ExtraFieldOp.set 0x7777 zipExtraFieldNew [1]).apply (effectiveExtraFields a .default 0)).length <
        2 ^ 15))
    (by decide +kernel)
  obtain ⟨hnul, hfew⟩ := of_decide_eq_true hp
  refine ⟨a, ha, getters_agree reference ha hnul 0 annotateCalls ⟨.inr hfew, .inr ?_, trivial⟩⟩
  intro bs hbs
  cases hbs
  decide

/-- Unchanging an entry whose comment was set leaves the comment in the overlay. -/
theorem getter_stale : ∃ a, Archive.open { kind := .vec, bytes := sampleArchive } = .ok a ∧
    ¬ ∀ i < (runAll reference [.fileSetComment 0 (some [0x78]) 1, .unchange 0] (makeZip a 0)).total,
      GettersAgree (runAll reference [.fileSetComment 0 (some [0x78]) 1, .unchange 0] (makeZip a 0)) i := by
  obtain ⟨a, ha, hp⟩ := exists_ok (x := Archive.open { kind := .vec, bytes := sampleArchive })
    (p := fun a =>
      let z := runAll reference [.fileSetComment 0 (some [0x78]) 1, .unchange 0] (makeZip a 0)
      decide (0 < z.total ∧ (z.fileGetComment 0).1 = some [0x78] ∧
        nonEmpty (effectiveComment z.archive z.pending 0) = none))
    (by decide +kernel)
  obtain ⟨hlt, hgetter, heffective⟩ := of_decide_eq_true hp
  refine ⟨a, ha, fun h => ?_⟩
  have hcomment := (h 0 hlt).comment
  rw [hgetter, heffective] at hcomment
  cases hcomment

end Kzip.Impl
