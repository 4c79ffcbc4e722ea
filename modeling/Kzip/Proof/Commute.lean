import Kzip.Impl.Reference
import Kzip.Lib.Commute
import Kzip.Proof.Close
import Kzip.Proof.Getters
import Kzip.Spec.Commute

/-!
# Edits of different entries commute

What a handle holds is looked at entry by entry (`Zip.view`): the pending edits of the entry and its
slots of the overlays, with what all entries share. An edit of an entry is local to it (`local_run`), so
two edits of different entries commute, up to the order in which the lists hold them. No later call tells
handles with the same views apart (`alike_run`), and neither does a close (`materialize_alike`).
-/

namespace Kzip.Impl

open Lib Kzip.Spec

variable {X : Extern}

/-! ## Views -/

/-- What a handle holds apart from the edits of its entries and from the last error. -/
structure Shared where
  archive : Archive
  archiveComment : Option Bytes
  flags : Int32
  afl : Int32
  chAfl : Int32
  pendingComment : Option Bytes
  password : Option Bytes

def Zip.shared (z : Zip) : Shared :=
  { archive := z.archive, archiveComment := z.archiveComment, flags := z.flags, afl := z.afl,
    chAfl := z.chAfl, pendingComment := z.pending.archiveComment, password := z.password }

/-- What a handle shows of one entry. -/
structure EntryView where
  shared : Shared
  adds : List PendingAdd
  ops : EntryOps
  /-- The slots of the overlays. -/
  comment : Option Bytes
  extraFields : List ExtraField

def Zip.view (i : Nat) (z : Zip) : EntryView :=
  { shared := z.shared, adds := z.pending.adds, ops := opsAt z.pending i,
    comment := z.comments[i]?.getD none, extraFields := z.extraFields[i]?.getD [] }

/-! ## What a call leaves of the rest -/

theorem shared_edit {z z' : Zip} {refuse : Option ZipErrorCode} (h : z'.shared = z.shared) :
    (z.edit refuse z').2.shared = z.shared := by
  rcases edit_cases z refuse z' with ⟨code, hfail⟩ | ⟨-, hok⟩
  · rw [hfail]
    rfl
  · rw [hok]
    exact h

/-- An edit of an entry leaves alone what the entries share. -/
theorem shared_run (X : Extern) (z : Zip) {c : ZipCall} {i : Nat} (hc : c.editedEntry = some i) :
    (c.run X z).2.shared = z.shared := by
  cases c with
  | rename index name =>
    rw [ZipCall.run, rename_eq_edit]
    exact shared_edit rfl
  | fileReplace index source =>
    rw [fileReplace_eq_edit]
    exact shared_edit rfl
  | fileAdd | dirAdd | setArchiveComment | setDefaultPassword | setArchiveFlag | unchange | unchangeAll
  | unchangeArchive | openEntry | readEntry => cases hc
  | _ => exact shared_edit rfl

/-- What an edit of an entry records. -/
theorem effect_of_editedEntry {a : Archive} {c : ZipCall} {i : Nat} (hc : c.editedEntry = some i) :
    ∃ s, c.effect a = .record i s := by
  cases c <;> cases hc <;> exact ⟨_, rfl⟩

/-- The effect of an edit does not depend on the archive. -/
theorem effect_eq_of_editedEntry {c : ZipCall} {i : Nat} (hc : c.editedEntry = some i) (a b : Archive) :
    c.effect a = c.effect b := by
  cases c <;> cases hc <;> rfl

/-! ## Codes -/

theorem code_edit (z z' : Zip) (refuse : Option ZipErrorCode) :
    (z.edit refuse z').1 = if z.readOnly ∨ refuse.isSome then -1 else 0 := by
  unfold Zip.edit
  by_cases hread : z.readOnly
  · rw [if_pos hread, if_pos (.inl hread)]
    rfl
  · rw [if_neg hread]
    cases refuse with
    | none => rw [if_neg (by simp [hread])]
    | some code =>
      rw [if_pos (.inr rfl)]
      rfl

/-- Whether an edit is refused depends on what the handle shows of its entry. -/
theorem code_run {z z' : Zip} {c : ZipCall} {i : Nat} (hc : c.editedEntry = some i)
    (h : z.view i = z'.view i) : (c.run X z).1 = (c.run X z').1 := by
  have hread : z.readOnly = z'.readOnly := by
    have hflags : z.flags = z'.flags := congrArg (fun v => v.shared.flags) h
    rw [Zip.readOnly, Zip.readOnly, hflags]
  have harchive : z.archive = z'.archive := congrArg (fun v => v.shared.archive) h
  have hvalid : z.validIndex i = z'.validIndex i := by
    have hadds : z.pending.adds = z'.pending.adds := congrArg EntryView.adds h
    rw [Zip.validIndex, Zip.validIndex, Zip.total, Zip.total, harchive, hadds]
  have hslot : z.extraFields[i]?.getD [] = z'.extraFields[i]?.getD [] := congrArg EntryView.extraFields h
  have hcount (id : UInt16) : z.countById i id = z'.countById i id := by
    rw [Zip.countById, Zip.countById, hslot]
  cases c with
  | rename index name =>
    cases hc
    simp only [ZipCall.run, rename_eq_edit, code_edit, hread, harchive]
  | fileReplace index source =>
    cases hc
    simp only [fileReplace_eq_edit, code_edit, hread, harchive]
  | fileAdd | dirAdd | setArchiveComment | setDefaultPassword | setArchiveFlag | unchange | unchangeAll
  | unchangeArchive | openEntry | readEntry => cases hc
  | delete index =>
    cases hc
    simp only [ZipCall.run, Zip.delete, code_edit, hread, harchive]
  | fileExtraFieldSet index id efIdx data len =>
    cases hc
    simp only [ZipCall.run, Zip.fileExtraFieldSet, code_edit, hread, hvalid, hcount]
  | fileExtraFieldDelete index efIdx =>
    cases hc
    simp only [ZipCall.run, Zip.fileExtraFieldDelete, code_edit, hread, hvalid, hslot]
  | fileExtraFieldDeleteById index id efIdx =>
    cases hc
    simp only [ZipCall.run, Zip.fileExtraFieldDeleteById, code_edit, hread, hvalid, hcount]
  | _ =>
    -- the setters that check their own arguments only
    cases hc
    simp only [ZipCall.run, Zip.fileSetComment, Zip.setFileComment, Zip.fileSetMtime, Zip.fileSetDostime,
      Zip.fileSetExternalAttributes, Zip.setFileCompression, Zip.fileSetEncryption, code_edit, hread, hvalid]

/-! ## Slots -/

theorem commentsAfter_congr {l l' : List (Option Bytes)} (e : Effect) {j : Nat}
    (h : l[j]?.getD none = l'[j]?.getD none) :
    (commentsAfter l e)[j]?.getD none = (commentsAfter l' e)[j]?.getD none := by
  unfold commentsAfter
  split
  · rw [getD_setSlot, getD_setSlot, h]
  · exact h

theorem commentsAfter_of_ne (l : List (Option Bytes)) {i j : Nat} (hij : i ≠ j) (s : Setting) :
    (commentsAfter l (.record i s))[j]?.getD none = l[j]?.getD none := by
  cases s with
  | comment comment => rw [commentsAfter, getD_setSlot, if_neg hij]
  | _ => rfl

theorem fieldsAfter_congr {l l' : List (List ExtraField)} {z z' : Zip} (e : Effect) {j : Nat}
    (h : l[j]?.getD [] = l'[j]?.getD [])
    (hfields : effectiveExtraFields z.archive z.pending j = effectiveExtraFields z'.archive z'.pending j) :
    (fieldsAfter l z e)[j]?.getD [] = (fieldsAfter l' z' e)[j]?.getD [] := by
  unfold fieldsAfter
  split
  · rename_i i op
    rw [getD_setSlot, getD_setSlot, h]
    by_cases hij : i = j
    · rw [if_pos hij, if_pos hij, hij, hfields]
    · rw [if_neg hij, if_neg hij]
  · exact h

theorem fieldsAfter_of_ne (l : List (List ExtraField)) (z : Zip) {i j : Nat} (hij : i ≠ j) (s : Setting) :
    (fieldsAfter l z (.record i s))[j]?.getD [] = l[j]?.getD [] := by
  cases s with
  | extraField op => rw [fieldsAfter, getD_setSlot, if_neg hij]
  | _ => rfl

/-! ## Edits are local -/

theorem view_ext {z z' : Zip} {i : Nat} (hshared : z.shared = z'.shared)
    (hadds : z.pending.adds = z'.pending.adds) (hops : opsAt z.pending i = opsAt z'.pending i)
    (hcomment : z.comments[i]?.getD none = z'.comments[i]?.getD none)
    (hfields : z.extraFields[i]?.getD [] = z'.extraFields[i]?.getD []) : z.view i = z'.view i := by
  rw [Zip.view, Zip.view, hshared, hadds, hops, hcomment, hfields]

/-- A call that fails leaves every view as it is. -/
theorem view_failed {z : Zip} {c : ZipCall} {i : Nat} (hc : c.editedEntry = some i)
    (hfail : (c.run X z).1 = -1) (j : Nat) : (c.run X z).2.view j = z.view j := by
  have hpending : (c.run X z).2.pending = z.pending := by
    rcases run_cases X z c with ⟨-, h⟩ | ⟨h, -⟩
    · exact h
    · exact absurd hfail h
  obtain ⟨hcomments, hfields⟩ := (hasOverlays_run X z c).1 hfail
  exact view_ext (shared_run X z hc) (congrArg PendingOps.adds hpending) (by rw [hpending])
    (by rw [hcomments]) (by rw [hfields])

/-- The edits and the overlays after an edit that succeeds. -/
theorem recorded {z : Zip} {c : ZipCall} {i : Nat} {s : Setting} (hs : c.effect z.archive = .record i s)
    (hok : (c.run X z).1 ≠ -1) : (c.run X z).2.pending.adds = z.pending.adds ∧
    opsAt (c.run X z).2.pending = Function.update (opsAt z.pending) i ((opsAt z.pending i).record s) ∧
    (c.run X z).2.comments = commentsAfter z.comments (.record i s) ∧
    (c.run X z).2.extraFields = fieldsAfter z.extraFields (c.run X z).2 (.record i s) := by
  obtain ⟨hcomments, hfields⟩ := (hasOverlays_run X z c).2 hok
  rw [hs] at hcomments hfields
  rcases run_cases X z c with ⟨h, -⟩ | ⟨-, -, hedits⟩
  · exact absurd h hok
  · rw [hs] at hedits
    exact ⟨congrArg Edits.adds hedits, congrArg Edits.ops hedits, hcomments, hfields⟩

theorem frame_run {c : ZipCall} {i : Nat} (hc : c.editedEntry = some i) (z : Zip) (j : Nat) (hj : j ≠ i) :
    (c.run X z).2.view j = z.view j := by
  by_cases hcode : (c.run X z).1 = -1
  · exact view_failed hc hcode j
  · obtain ⟨s, hs⟩ := @effect_of_editedEntry z.archive c i hc
    obtain ⟨hadds, hops, hcomments, hfields⟩ := recorded hs hcode
    refine view_ext (shared_run X z hc) hadds ?_ ?_ ?_
    · rw [hops, Function.update_of_ne hj]
    · rw [hcomments, commentsAfter_of_ne _ hj.symm]
    · rw [hfields, fieldsAfter_of_ne _ _ hj.symm]

theorem next_run {c : ZipCall} {i : Nat} (hc : c.editedEntry = some i) (z z' : Zip)
    (h : z.view i = z'.view i) : (c.run X z).2.view i = (c.run X z').2.view i := by
  have hcode := @code_run X _ _ _ _ hc h
  by_cases hfail : (c.run X z).1 = -1
  · rw [view_failed hc hfail, view_failed hc (hcode ▸ hfail), h]
  · obtain ⟨s, hs⟩ := @effect_of_editedEntry z.archive c i hc
    obtain ⟨hadds, hops, hcomments, hfields⟩ := recorded hs hfail
    rw [effect_eq_of_editedEntry hc z.archive z'.archive] at hs
    obtain ⟨hadds', hops', hcomments', hfields'⟩ := recorded hs (hcode ▸ hfail)
    have hshared : (c.run X z).2.shared = (c.run X z').2.shared := by
      rw [shared_run X z hc, shared_run X z' hc]
      exact congrArg EntryView.shared h
    have hopsAt : opsAt (c.run X z).2.pending i = opsAt (c.run X z').2.pending i := by
      rw [hops, hops', Function.update_self, Function.update_self]
      exact congrArg (fun v => v.ops.record s) h
    refine view_ext hshared ?_ hopsAt ?_ ?_
    · rw [hadds, hadds']
      exact congrArg EntryView.adds h
    · rw [hcomments, hcomments']
      exact commentsAfter_congr _ (congrArg EntryView.comment h)
    · rw [hfields, hfields']
      refine fieldsAfter_congr _ (congrArg EntryView.extraFields h) ?_
      rw [effectiveExtraFields_eq, effectiveExtraFields_eq, hopsAt,
        show (c.run X z).2.archive = (c.run X z').2.archive from congrArg Shared.archive hshared]

theorem local_run (X : Extern) {c : ZipCall} {i : Nat} (hc : c.editedEntry = some i) :
    LocalTo (ZipCall.run X) Zip.view c i :=
  ⟨fun z j => frame_run hc z j, fun _ _ => code_run hc, next_run hc⟩

/-! ## The other calls -/

/-- Handles that show the same: they differ in the order of the lists of edits and in the last error. -/
def Zip.Alike (z z' : Zip) : Prop := ∀ i, z.view i = z'.view i

section
variable {z z' : Zip}

theorem Zip.Alike.shared (h : z.Alike z') : z.shared = z'.shared := congrArg EntryView.shared (h 0)

theorem Zip.Alike.archive (h : z.Alike z') : z.archive = z'.archive := congrArg Shared.archive h.shared

theorem Zip.Alike.adds (h : z.Alike z') : z.pending.adds = z'.pending.adds := congrArg EntryView.adds (h 0)

theorem Zip.Alike.ops (h : z.Alike z') : opsAt z.pending = opsAt z'.pending :=
  funext fun i => congrArg EntryView.ops (h i)

theorem Zip.Alike.edits (h : z.Alike z') : editsOf z.pending = editsOf z'.pending := by
  rw [editsOf, editsOf, h.adds, h.ops]

theorem Zip.Alike.total (h : z.Alike z') : z.total = z'.total := by
  rw [Zip.total, Zip.total, h.archive, h.adds]

theorem Zip.Alike.readOnly (h : z.Alike z') : z.readOnly = z'.readOnly := by
  rw [Zip.readOnly, Zip.readOnly, show z.flags = z'.flags from congrArg Shared.flags h.shared]

/-- No edits are pending exactly when none is for any entry. -/
theorem isEmpty_iff_ops {p : PendingOps} : p.isEmpty = true ↔
    p.adds = [] ∧ (∀ i, opsAt p i = .none) ∧ p.archiveComment = none := by
  rw [isEmpty_iff]
  constructor
  · rintro rfl
    exact ⟨rfl, fun _ => rfl, rfl⟩
  · rintro ⟨hadds, hops, hcomment⟩
    have hdeletes : p.deletes = [] := by
      refine List.eq_nil_iff_forall_not_mem.mpr fun i hi => ?_
      have hdeleted : p.deletes.contains i = false := congrArg EntryOps.deleted (hops i)
      rw [List.contains_iff_mem.mpr hi] at hdeleted
      cases hdeleted
    have hlist {β : Type} {l : List (Nat × β)} (h : ∀ i, valuesAt l i = []) : l = [] :=
      valuesAt_eq_nil.mp h
    obtain ⟨adds, deletes, renames, replaces, encryptions, extraFieldOps, fileComments, dostimes, mtimes,
      extAttrs, compressions, archiveComment⟩ := p
    rw [PendingOps.default, PendingOps.mk.injEq]
    exact ⟨hadds, hdeletes, hlist fun i => congrArg EntryOps.renames (hops i),
      hlist fun i => congrArg EntryOps.replaces (hops i),
      hlist fun i => congrArg EntryOps.encryptions (hops i),
      hlist fun i => congrArg EntryOps.extraFieldOps (hops i),
      hlist fun i => congrArg EntryOps.comments (hops i),
      hlist fun i => congrArg EntryOps.dostimes (hops i),
      hlist fun i => congrArg EntryOps.mtimes (hops i), hlist fun i => congrArg EntryOps.extAttrs (hops i),
      hlist fun i => congrArg EntryOps.compressions (hops i), hcomment⟩

theorem Zip.Alike.isEmpty (h : z.Alike z') : z.pending.isEmpty = z'.pending.isEmpty := by
  rw [Bool.eq_iff_iff, isEmpty_iff_ops, isEmpty_iff_ops, h.adds, h.ops,
    show z.pending.archiveComment = z'.pending.archiveComment from congrArg Shared.pendingComment h.shared]

theorem fileAdd_shared (z : Zip) (name : Option Bytes) (source : Option ZipSource) (flags : UInt32) :
    (z.fileAdd name source flags).2.1.shared = z.shared :=
  (fileAdd_pendingOnly z name source flags).same (f := Zip.shared) (fun _ => rfl) fun _ _ => rfl

theorem dirAdd_shared (z : Zip) (name : Option Bytes) : (z.dirAdd name).2.shared = z.shared :=
  (dirAdd_pendingOnly z name).same (f := Zip.shared) (fun _ => rfl) fun _ _ => rfl

theorem unchange_shared (z : Zip) (index : Nat) : (z.unchange index).2.shared = z.shared := by
  unfold Zip.unchange
  split <;> rfl

theorem setArchiveFlag_rest (h : z.Alike z') (flag value : Int32) :
    (z.setArchiveFlag flag value).1 = (z'.setArchiveFlag flag value).1 ∧
      (z.setArchiveFlag flag value).2.shared = (z'.setArchiveFlag flag value).2.shared := by
  have hshared := h.shared
  have hafl : z.afl = z'.afl := congrArg Shared.afl hshared
  have hchAfl : z.chAfl = z'.chAfl := congrArg Shared.chAfl hshared
  simp only [Zip.setArchiveFlag, hchAfl, hafl, h.isEmpty]
  generalize (if value ≠ 0 then z'.chAfl ||| flag else z'.chAfl &&& ~~~flag) = newFlags
  split
  · exact ⟨rfl, hshared⟩
  · split
    · exact ⟨rfl, hshared⟩
    · split
      · exact ⟨rfl, hshared⟩
      · split
        · exact ⟨rfl, hshared⟩
        · exact ⟨rfl, congrArg (fun v => { v with afl := z'.afl, chAfl := newFlags }) hshared⟩

/-- The code of a call that does not edit an entry. -/
theorem code_rest (X : Extern) (h : z.Alike z') {c : ZipCall} (hc : c.editedEntry = none) :
    (c.run X z).1 = (c.run X z').1 := by
  have hread := h.readOnly
  have harchive := h.archive
  cases c with
  | fileAdd name source flags =>
    simp only [ZipCall.run, Zip.fileAdd, hread, harchive, h.total]
    split
    · rfl
    · split
      · split
        · rfl
        · split
          · split <;> rfl
          · rfl
      · rfl
  | dirAdd name =>
    simp only [ZipCall.run, Zip.dirAdd, hread, harchive, h.total]
    split
    · rfl
    · split
      · rfl
      · split <;> rfl
  | setArchiveComment comment len => simp only [ZipCall.run, Zip.setArchiveComment, code_edit, hread]
  | setDefaultPassword password => cases password <;> rfl
  | setArchiveFlag flag value => exact (setArchiveFlag_rest h flag value).1
  | unchange index =>
    simp only [ZipCall.run, Zip.unchange, h.total]
    split <;> rfl
  | unchangeAll | unchangeArchive | openEntry | readEntry => rfl
  | _ => cases hc

/-- What it leaves of the rest. -/
theorem shared_rest (X : Extern) (h : z.Alike z') {c : ZipCall} (hc : c.editedEntry = none) :
    (c.run X z).2.shared = (c.run X z').2.shared := by
  have hshared := h.shared
  cases c with
  | fileAdd name source flags => exact (fileAdd_shared ..).trans (hshared.trans (fileAdd_shared ..).symm)
  | dirAdd name => exact (dirAdd_shared ..).trans (hshared.trans (dirAdd_shared ..).symm)
  | unchange index => exact (unchange_shared ..).trans (hshared.trans (unchange_shared ..).symm)
  | setArchiveComment comment len =>
    simp only [ZipCall.run, Zip.setArchiveComment, Zip.edit, h.readOnly]
    split
    · exact hshared
    · split
      · exact hshared
      · exact congrArg (fun v => { v with
          pendingComment := some (sliceArg comment len.toNat),
          archiveComment := commentOverlay (sliceArg comment len.toNat) }) hshared
  | setDefaultPassword password =>
    cases password with
    | none => exact hshared
    | some pw =>
      exact congrArg (fun v => { v with password := some pw, archive := v.archive.setDefaultPassword pw })
        hshared
  | setArchiveFlag flag value => exact (setArchiveFlag_rest h flag value).2
  | unchangeAll =>
    exact congrArg (fun v => { v with
      archiveComment := commentOverlay (Lib.Utf8.asBytes v.archive.comment), chAfl := v.afl,
      pendingComment := none }) hshared
  | unchangeArchive =>
    exact congrArg (fun v => { v with
      archiveComment := commentOverlay (Lib.Utf8.asBytes v.archive.comment), chAfl := v.afl,
      pendingComment := none }) hshared
  | openEntry index password =>
    exact congrArg (fun v => { v with archive := (v.archive.openEntryWithPassword X index password).2 })
      hshared
  | readEntry sched index password =>
    exact congrArg (fun v => { v with
      archive := (v.archive.readEntryWithPassword X sched index password).2 }) hshared
  | _ => cases hc

/-- The edits, the overlays and the rest after a call on handles that show the same. -/
theorem alike_rest (X : Extern) (h : z.Alike z') {c : ZipCall} (hc : c.editedEntry = none) :
    (c.run X z).2.Alike (c.run X z').2 := by
  have hcode := code_rest X h hc
  have hshared := shared_rest X h hc
  have heffect : c.effect z.archive = c.effect z'.archive := by rw [h.archive]
  have hedits : editsOf (c.run X z).2.pending = editsOf (c.run X z').2.pending := by
    rcases run_cases X z c with ⟨hfail, hp⟩ | ⟨hok, -, he⟩ <;>
      rcases run_cases X z' c with ⟨hfail', hp'⟩ | ⟨hok', -, he'⟩
    · rw [hp, hp', h.edits]
    · exact absurd (hcode.symm.trans hfail) hok'
    · exact absurd (hcode.trans hfail') hok
    · rw [he, he', heffect, h.edits, h.archive]
  have hops : opsAt (c.run X z).2.pending = opsAt (c.run X z').2.pending := congrArg Edits.ops hedits
  have harchive : (c.run X z).2.archive = (c.run X z').2.archive := congrArg Shared.archive hshared
  intro i
  refine view_ext hshared (congrArg Edits.adds hedits) (congrFun hops i) ?_ ?_
  · have hslot := congrArg EntryView.comment (h i)
    by_cases hfail : (c.run X z).1 = -1
    · rw [((hasOverlays_run X z c).1 hfail).1, ((hasOverlays_run X z' c).1 (hcode ▸ hfail)).1]
      exact hslot
    · rw [((hasOverlays_run X z c).2 hfail).1, ((hasOverlays_run X z' c).2 (hcode ▸ hfail)).1, heffect]
      exact commentsAfter_congr _ hslot
  · have hslot := congrArg EntryView.extraFields (h i)
    by_cases hfail : (c.run X z).1 = -1
    · rw [((hasOverlays_run X z c).1 hfail).2, ((hasOverlays_run X z' c).1 (hcode ▸ hfail)).2]
      exact hslot
    · rw [((hasOverlays_run X z c).2 hfail).2, ((hasOverlays_run X z' c).2 (hcode ▸ hfail)).2, heffect]
      refine fieldsAfter_congr _ hslot ?_
      rw [effectiveExtraFields_eq, effectiveExtraFields_eq, hops, harchive]

/-- No call tells handles that show the same apart. -/
theorem alike_run (X : Extern) (h : z.Alike z') (c : ZipCall) : (c.run X z).2.Alike (c.run X z').2 := by
  cases hc : c.editedEntry with
  | none => exact alike_rest X h hc
  | some i => exact (local_run X hc).congr h

theorem alike_runAll (X : Extern) (calls : List ZipCall) {z z' : Zip} (h : z.Alike z') :
    (runAll X calls z).Alike (runAll X calls z') := by
  induction calls generalizing z z' with
  | nil => exact h
  | cons c calls ih => exact ih (alike_run X h c)

/-- A close writes the same for both. -/
theorem materialize_alike (X : Extern) (sched : Nat → Schedule) (h : z.Alike z') :
    z.materialize X sched = z'.materialize X sched := by
  have hsame := materialize_congr X sched z' h.adds (fun i _ => congrFun h.ops i)
    (congrArg Shared.pendingComment h.shared)
  rw [← hsame]
  simp only [Zip.materialize, Zip.plan, h.archive,
    show z.password = z'.password from congrArg Shared.password h.shared]

end

/-- Edits of two different entries commute, whatever was done before. -/
theorem edits_commute (X : Extern) (z : Zip) {c d : ZipCall} {i j : Nat} (hc : c.editedEntry = some i)
    (hd : d.editedEntry = some j) (hij : i ≠ j) : EditsCommute X z c d where
  first := ((local_run X hc).output_after (local_run X hd) hij z).symm
  second := (local_run X hd).output_after (local_run X hc) hij.symm z
  later calls sched := materialize_alike X sched
    (alike_runAll X calls ((local_run X hc).commute (local_run X hd) hij z))

/-- A rename and an encryption in an archive of two entries. -/
theorem edits_commute_sample : ∃ out a, writeArchive reference sampleFiles .default = .ok out ∧
    Archive.open { kind := .vec, bytes := out.val } = .ok a ∧ a.len = 2 ∧
    EditsCommute reference (makeZip a 0) (.rename 0 (some [0x63]))
      (.fileSetEncryption 1 encryption.tradPkware) := by
  obtain ⟨out, hout, hp⟩ := exists_ok (x := writeArchive reference sampleFiles .default)
    (p := fun out => (Archive.open { kind := .vec, bytes := out.val }).toOption.any fun a : Archive =>
      decide (a.len = 2)) (by decide +kernel)
  obtain ⟨a, ha, hlen⟩ := exists_ok hp
  exact ⟨out, a, hout, ha, of_decide_eq_true hlen, edits_commute reference (makeZip a 0) rfl rfl (by decide)⟩

end Kzip.Impl
