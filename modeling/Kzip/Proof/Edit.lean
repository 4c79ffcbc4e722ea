import Kzip.Lib.Run
import Kzip.Proof.Archive
import Kzip.Spec.Edit

/-!
# Runs of edit calls

A call that fails leaves the pending edits as they are, and one that succeeds has its effect on them
(`run_cases`). So after any calls the pending edits are those that the effects of the successful calls
leave (`editsOf_runAll`), and each effect was valid when it took place (`effects_valid`).
-/

namespace Kzip.Impl

open Lib Kzip.Spec

variable {X : Extern}

/-! ## The archive of a handle -/

theorem Archive.Grown.len {a b : Archive} (h : a.Grown b) : b.len = a.len := by
  have hlen := congrArg List.length h.entries
  rwa [List.length_map, List.length_map] at hlen

/-- An entry is the same but for its cached offset. -/
theorem Archive.Grown.dirent {a b : Archive} (h : a.Grown b) (i : Nat) :
    (b.dirent i).map uncached = (a.dirent i).map uncached := by
  rw [Archive.dirent, Archive.dirent, ← List.getElem?_map, h.entries, List.getElem?_map]

theorem Archive.Grown.nameLocate {a b : Archive} (h : a.Grown b) (name : Lib.Utf8.Str) :
    b.nameLocate name = a.nameLocate name := by
  have hmap (c : Archive) : c.nameLocate name =
      (c.entries.map uncached).findIdx? fun d => d.filename == name := by
    rw [List.findIdx?_map]
    rfl
  rw [hmap, hmap, h.entries]

theorem Archive.Grown.effect {a b : Archive} (h : a.Grown b) (c : ZipCall) :
    c.effect b = c.effect a := by
  cases c with
  | fileAdd name source flags => simp only [ZipCall.effect, h.nameLocate]
  | _ => rfl

theorem nameLocate_lt {a : Archive} {name : Lib.Utf8.Str} {i : Nat} (h : a.nameLocate name = some i) :
    i < a.len := by
  obtain ⟨hi, -⟩ := List.findIdx?_eq_some_iff_getElem.mp h
  exact hi

/-! ## One call -/

theorem edit_cases (z : Zip) (refuse : Option ZipErrorCode) (z' : Zip) :
    (∃ code, z.edit refuse z' = z.fail code) ∨ (refuse = none ∧ z.edit refuse z' = (0, z')) := by
  unfold Zip.edit
  split
  · exact .inl ⟨_, rfl⟩
  · split
    · exact .inl ⟨_, rfl⟩
    · exact .inr ⟨rfl, rfl⟩

theorem checks_cons {ok : Bool} {code : ZipErrorCode} {cs : List (Bool × ZipErrorCode)} :
    checks ((ok, code) :: cs) = none ↔ ok = true ∧ checks cs = none := by
  cases ok <;> simp [checks]

/-- A call that fails leaves the pending edits as they are, and one that succeeds has this effect on
them. -/
def HasEffect (z : Zip) (e : Effect) (r : Int × Zip) : Prop :=
  (r.1 = -1 ∧ r.2.pending = z.pending) ∨
  (r.1 ≠ -1 ∧ e.Valid z.archive.len (editsOf z.pending) ∧
    editsOf r.2.pending = e.apply z.archive.len (editsOf z.pending))

theorem hasEffect_fail (z : Zip) (e : Effect) (code : ZipErrorCode) : HasEffect z e (z.fail code) :=
  .inl ⟨rfl, rfl⟩

theorem hasEffect_edit {z : Zip} {e : Effect} {cs : List (Bool × ZipErrorCode)} {z' : Zip}
    (hvalid : checks cs = none → e.Valid z.archive.len (editsOf z.pending))
    (h : editsOf z'.pending = e.apply z.archive.len (editsOf z.pending)) :
    HasEffect z e (z.edit (checks cs) z') := by
  rcases edit_cases z (checks cs) z' with ⟨code, hfail⟩ | ⟨hok, hz⟩
  · rw [hfail]
    exact hasEffect_fail z e code
  · rw [hz]
    exact .inr ⟨show (0 : Int) ≠ -1 by decide, hvalid hok, h⟩

/-- An edit of one list of the handle, as the setting it records. -/
theorem editsOf_record {n : Nat} {p p' : PendingOps} {i : Nat} {s : Setting}
    (hadds : p'.adds = p.adds) (hi : opsAt p' i = (opsAt p i).record s)
    (hj : ∀ j, j ≠ i → opsAt p' j = opsAt p j) :
    editsOf p' = (Effect.record i s).apply n (editsOf p) := by
  have hops : opsAt p' = Function.update (opsAt p) i ((opsAt p i).record s) := by
    funext j
    by_cases h : j = i
    · rw [h, hi, Function.update_self]
    · rw [hj j h, Function.update_of_ne h]
  rw [editsOf, hadds, hops]
  rfl

theorem editsOf_replace (n : Nat) (p : PendingOps) (i : Nat) (data : Vec) :
    editsOf { p with replaces := pushAt p.replaces i data } =
      (Effect.record i (.replace data)).apply n (editsOf p) :=
  editsOf_record rfl (by simp [opsAt, EntryOps.record, valuesAt_pushAt])
    fun j hj => by simp [opsAt, valuesAt_pushAt, hj.symm]

/-! ## The calls on entries -/

theorem rename_eq_edit (z : Zip) (index : Nat) (name : Option Bytes) :
    z.rename index name =
      z.edit (checks [((cStr name).isSome, .inval), (index < z.archive.len, .inval)])
        { z with pending.renames := pushAt z.pending.renames index (nameArg name) } := by
  unfold Zip.rename nameArg
  cases cStr name with
  | none => unfold Zip.edit; rfl
  | some name => rfl

theorem fileReplace_eq_edit (X : Extern) (z : Zip) (index : Nat) (source : Option ZipSource) :
    (ZipCall.fileReplace index source).run X z =
      z.edit (checks [(source.isSome, .inval), (index < z.archive.len, .inval),
          ((source.bind fun s => s.takeData.1).isSome, .read)])
        { z with pending.replaces := pushAt z.pending.replaces index (sourceArg source) } := by
  simp only [ZipCall.run, Zip.fileReplace, Zip.edit, sourceArg]
  split
  · rfl
  · cases source with
    | none => rfl
    | some s =>
      by_cases hlt : index < z.archive.len
      · rcases htake : s.takeData with ⟨data, s'⟩
        cases data <;> simp [checks, hlt, htake, Zip.fail]
      · simp [checks, hlt, Zip.fail]

/-- A call changes at most the pending adds and replacements, and only if it is not refused. -/
def PendingOnly (z : Zip) (r : Int × Zip) : Prop :=
  (∃ code, r = z.fail code ∧ (z.readOnly = true → code = .rdonly)) ∨
    z.readOnly = false ∧
      ∃ adds replaces, r.2 = { z with pending.adds := adds, pending.replaces := replaces }

theorem fileAdd_pendingOnly (z : Zip) (name : Option Bytes) (source : Option ZipSource) (flags : UInt32) :
    PendingOnly z ((z.fileAdd name source flags).1, (z.fileAdd name source flags).2.1) := by
  simp only [Zip.fileAdd]
  split
  · exact .inl ⟨.rdonly, rfl, fun _ => rfl⟩
  · rename_i hread
    have hcode {code : ZipErrorCode} (h : z.readOnly = true) : code = .rdonly := absurd h hread
    split
    · split
      · exact .inl ⟨.read, rfl, hcode⟩
      · split
        · split
          · exact .inr ⟨Bool.eq_false_iff.mpr hread, _, _, rfl⟩
          · exact .inl ⟨.exists, rfl, hcode⟩
        · exact .inr ⟨Bool.eq_false_iff.mpr hread, _, _, rfl⟩
    · exact .inl ⟨.inval, rfl, hcode⟩

theorem dirAdd_pendingOnly (z : Zip) (name : Option Bytes) : PendingOnly z (z.dirAdd name) := by
  simp only [Zip.dirAdd]
  split
  · exact .inl ⟨.rdonly, rfl, fun _ => rfl⟩
  · rename_i hread
    have hcode {code : ZipErrorCode} (h : z.readOnly = true) : code = .rdonly := absurd h hread
    split
    · exact .inl ⟨.inval, rfl, hcode⟩
    · split
      · exact .inl ⟨.exists, rfl, hcode⟩
      · exact .inr ⟨Bool.eq_false_iff.mpr hread, _, _, rfl⟩

/-- What does not depend on these, nor on the error, is left as it is. -/
theorem PendingOnly.same {z : Zip} {r : Int × Zip} (h : PendingOnly z r) {α : Type} {f : Zip → α}
    (herror : ∀ code, f (z.setErr code) = f z)
    (hpending : ∀ adds replaces, f { z with pending.adds := adds, pending.replaces := replaces } = f z) :
    f r.2 = f z := by
  obtain ⟨code, rfl, -⟩ | ⟨-, adds, replaces, h⟩ := h
  · exact herror code
  · rw [h]
    exact hpending adds replaces

theorem hasEffect_fileAdd (z : Zip) (name : Option Bytes) (source : Option ZipSource) (flags : UInt32) :
    HasEffect z ((ZipCall.fileAdd name source flags).effect z.archive)
      ((ZipCall.fileAdd name source flags).run X z) := by
  simp only [ZipCall.run, Zip.fileAdd]
  split
  · exact .inl ⟨rfl, rfl⟩
  · split
    · rename_i name' src hname
      split
      · exact .inl ⟨rfl, rfl⟩
      · rename_i data src' hdata
        have hn : nameArg name = name' := by rw [nameArg, hname]; rfl
        have hd : sourceArg (some src) = data := by
          rw [sourceArg, Option.bind_some, hdata]; rfl
        cases hloc : z.archive.nameLocate name' with
        | none =>
          simp only [ZipCall.effect, hn, hloc, hd]
          exact .inr ⟨by omega, trivial, rfl⟩
        | some idx =>
          simp only [ZipCall.effect, hn, hloc, hd]
          split
          · have hlt := nameLocate_lt hloc
            exact .inr ⟨by omega, ⟨by omega, fun _ => hlt⟩, editsOf_replace _ _ _ _⟩
          · exact .inl ⟨rfl, rfl⟩
    · exact .inl ⟨rfl, rfl⟩

theorem hasEffect_dirAdd (z : Zip) (name : Option Bytes) :
    HasEffect z ((ZipCall.dirAdd name).effect z.archive) (z.dirAdd name) := by
  simp only [Zip.dirAdd]
  split
  · exact hasEffect_fail _ _ _
  · split
    · exact hasEffect_fail _ _ _
    · rename_i name' hname
      split
      · exact hasEffect_fail _ _ _
      · have hn : nameArg name = name' := by rw [nameArg, hname]; rfl
        simp only [ZipCall.effect, hn]
        exact .inr ⟨by omega, trivial, rfl⟩

theorem hasEffect_rename (z : Zip) (index : Nat) (name : Option Bytes) :
    HasEffect z ((ZipCall.rename index name).effect z.archive) (z.rename index name) := by
  rw [rename_eq_edit]
  apply hasEffect_edit
  · intro hok
    have hlt : index < z.archive.len := of_decide_eq_true (checks_cons.mp (checks_cons.mp hok).2).1
    exact ⟨by omega, fun _ => hlt⟩
  · exact editsOf_record rfl (by simp [opsAt, EntryOps.record, valuesAt_pushAt])
      fun j hj => by simp [opsAt, valuesAt_pushAt, hj.symm]

theorem hasEffect_fileReplace (z : Zip) (index : Nat) (source : Option ZipSource) :
    HasEffect z ((ZipCall.fileReplace index source).effect z.archive)
      ((ZipCall.fileReplace index source).run X z) := by
  rw [fileReplace_eq_edit]
  apply hasEffect_edit
  · intro hok
    have hlt : index < z.archive.len := of_decide_eq_true (checks_cons.mp (checks_cons.mp hok).2).1
    exact ⟨by omega, fun _ => hlt⟩
  · exact editsOf_replace _ _ _ _

theorem hasEffect_delete (z : Zip) (index : Nat) :
    HasEffect z ((ZipCall.delete index).effect z.archive) (z.delete index) := by
  apply hasEffect_edit
  · intro hok
    have hlt : index < z.archive.len := of_decide_eq_true (checks_cons.mp hok).1
    exact ⟨by omega, fun _ => hlt⟩
  · have hmem (j : Nat) : j ∈ (if index ∈ z.pending.deletes then z.pending.deletes
        else z.pending.deletes ++ [index]) ↔ j ∈ z.pending.deletes ∨ j = index := by
      split
      · rename_i hin
        exact ⟨.inl, fun h => h.elim id fun h => h ▸ hin⟩
      · rw [List.mem_append, List.mem_singleton]
    exact editsOf_record rfl (by simp [opsAt, EntryOps.record, hmem])
      fun j hj => by simp [opsAt, hmem, hj]

/-- A setter of metadata: it is refused for an index that is not valid, and records its setting
otherwise. -/
theorem hasEffect_set {z z' : Zip} {index : Nat} {s : Setting} {cs : List (Bool × ZipErrorCode)}
    (hs : s ≠ .delete ∧ (∀ name, s ≠ .rename name) ∧ ∀ data, s ≠ .replace data)
    (hadds : z'.pending.adds = z.pending.adds)
    (hi : opsAt z'.pending index = (opsAt z.pending index).record s)
    (hj : ∀ j, j ≠ index → opsAt z'.pending j = opsAt z.pending j) :
    HasEffect z (.record index s) (z.edit (checks ((z.validIndex index, .inval) :: cs)) z') := by
  apply hasEffect_edit
  · intro hok
    refine ⟨of_decide_eq_true (checks_cons.mp hok).1, fun h => ?_⟩
    rcases h with h | ⟨name, h⟩ | ⟨data, h⟩
    · exact absurd h hs.1
    · exact absurd h (hs.2.1 name)
    · exact absurd h (hs.2.2 data)
  · exact editsOf_record hadds hi hj

theorem opsAt_unchangeEntry (a : Archive) (p : PendingOps) (k j : Nat) :
    opsAt (unchangeEntry a p k) j = if j = k then .none else opsAt p j := by
  by_cases h : j = k
  · subst h
    simp [opsAt, unchangeEntry, EntryOps.none, valuesAt_dropAt]
  · simp [opsAt, unchangeEntry, valuesAt_dropAt, h, Ne.symm h]

theorem hasEffect_unchange (z : Zip) (index : Nat) :
    HasEffect z (.unchange index) (z.unchange index) := by
  unfold Zip.unchange
  split
  · exact hasEffect_fail _ _ _
  · rename_i hlt
    refine .inr ⟨show (0 : Int) ≠ -1 by decide, Nat.lt_of_not_le hlt, ?_⟩
    have hops : opsAt (unchangeEntry z.archive z.pending index) =
        Function.update (opsAt z.pending) index .none := by
      funext j
      rw [opsAt_unchangeEntry, Function.update_apply]
    rw [editsOf, hops]
    rfl

/-- A call that has no effect on the pending edits. -/
theorem hasEffect_keep {z : Zip} {r : Int × Zip} (h : editsOf r.2.pending = editsOf z.pending)
    (hfail : r.1 = -1 → r.2.pending = z.pending) : HasEffect z .keep r := by
  by_cases hr : r.1 = -1
  · exact .inl ⟨hr, hfail hr⟩
  · exact .inr ⟨hr, trivial, h⟩

theorem setArchiveFlag_pending (z : Zip) (flag value : Int32) :
    (z.setArchiveFlag flag value).2.pending = z.pending := by
  unfold Zip.setArchiveFlag
  split
  · rfl
  · dsimp only
    generalize (if value ≠ 0 then z.chAfl ||| flag else z.chAfl &&& ~~~flag) = newFlags
    split
    · rfl
    · split
      · rfl
      · split <;> rfl

theorem run_cases (X : Extern) (z : Zip) (c : ZipCall) :
    HasEffect z (c.effect z.archive) (c.run X z) := by
  cases c with
  | fileAdd name source flags => exact hasEffect_fileAdd z name source flags
  | dirAdd name => exact hasEffect_dirAdd z name
  | delete index => exact hasEffect_delete z index
  | rename index name => exact hasEffect_rename z index name
  | fileReplace index source => exact hasEffect_fileReplace z index source
  | setArchiveComment comment len =>
    refine hasEffect_edit (fun _ => trivial) rfl
  | setArchiveFlag flag value =>
    have hp := setArchiveFlag_pending z flag value
    exact hasEffect_keep (congrArg editsOf hp) fun _ => hp
  | setDefaultPassword password => cases password <;> exact hasEffect_keep rfl fun _ => rfl
  | unchange index => exact hasEffect_unchange z index
  | unchangeAll => exact .inr ⟨show (0 : Int) ≠ -1 by decide, trivial, rfl⟩
  | unchangeArchive => exact .inr ⟨show (0 : Int) ≠ -1 by decide, trivial, rfl⟩
  | openEntry index password => exact hasEffect_keep rfl fun _ => rfl
  | readEntry sched index password => exact hasEffect_keep rfl fun _ => rfl
  | _ =>
    -- the setters of metadata
    refine hasEffect_set (by simp) rfl ?_ fun j hj => ?_
    · simp [Zip.setFileCommentPending, Zip.pushExtraFieldOp, Zip.refreshExtraFields, opsAt, EntryOps.record,
        valuesAt_putAt, valuesAt_pushAt]
    · simp [Zip.setFileCommentPending, Zip.pushExtraFieldOp, Zip.refreshExtraFields, opsAt, valuesAt_putAt,
        valuesAt_pushAt, hj.symm]

theorem fileAdd_archive (z : Zip) (name : Option Bytes) (source : Option ZipSource) (flags : UInt32) :
    (z.fileAdd name source flags).2.1.archive = z.archive :=
  (fileAdd_pendingOnly z name source flags).same (f := Zip.archive) (fun _ => rfl) fun _ _ => rfl

/-- A call leaves the archive as it is, but for the caches, the pool and the default password. -/
theorem grown_call (X : Extern) (z : Zip) (c : ZipCall) : z.archive.Grown (c.run X z).2.archive := by
  have hedit {refuse : Option ZipErrorCode} {z' : Zip} (h : z'.archive = z.archive) :
      z.archive.Grown (z.edit refuse z').2.archive := by
    rcases edit_cases z refuse z' with ⟨code, hfail⟩ | ⟨-, hok⟩
    · rw [hfail]
      exact .refl _
    · rw [hok, h]
      exact .refl _
  cases c with
  | fileAdd name source flags =>
    show z.archive.Grown (z.fileAdd name source flags).2.1.archive
    rw [fileAdd_archive]
    exact .refl _
  | dirAdd name =>
    have harchive := (dirAdd_pendingOnly z name).same (f := Zip.archive) (fun _ => rfl) fun _ _ => rfl
    show z.archive.Grown (z.dirAdd name).2.archive
    rw [harchive]
    exact .refl _
  | rename index name =>
    rw [ZipCall.run, rename_eq_edit]
    exact hedit rfl
  | fileReplace index source =>
    rw [fileReplace_eq_edit]
    exact hedit rfl
  | setDefaultPassword password => cases password <;> exact ⟨rfl, rfl, id⟩
  | setArchiveFlag flag value =>
    simp only [ZipCall.run, Zip.setArchiveFlag]
    split
    · exact .refl _
    · repeat' split
      all_goals exact .refl _
  | unchange index =>
    simp only [ZipCall.run, Zip.unchange]
    split <;> exact .refl _
  | unchangeAll => exact .refl _
  | unchangeArchive => exact .refl _
  | openEntry index password => exact grown_openEntry X z.archive index password
  | readEntry sched index password =>
    exact grown_run X z.archive (.readEntry sched index password)
  | _ => exact hedit rfl

/-! ## Effective metadata -/

theorem effectiveComment_eq (a : Archive) (p : PendingOps) (i : Nat) :
    effectiveComment a p i = (opsAt p i).comments.getLast?.getD ((a.dirent i).bind fun d =>
      if d.comment = [] then none else some (Lib.Utf8.asBytes d.comment)) := by
  simp only [effectiveComment, lastAt_eq, opsAt]
  cases (valuesAt p.fileComments i).getLast? <;> rfl

theorem effectiveExtraFields_eq (a : Archive) (p : PendingOps) (i : Nat) :
    effectiveExtraFields a p i = (opsAt p i).extraFieldOps.foldl ExtraFieldOp.apply
      ((a.dirent i).elim [] fun d => withoutManaged d.extraFields) := by
  simp only [effectiveExtraFields, opsAt]
  cases a.dirent i <;> rfl

/-! ## Runs -/

theorem grown_runAll (X : Extern) (calls : List ZipCall) (z : Zip) :
    z.archive.Grown (runAll X calls z).archive := by
  induction calls generalizing z with
  | nil => exact .refl _
  | cons c calls ih => exact (grown_call X z c).trans (ih _)

/-- The effects of the calls that follow are the same before and after a call. -/
theorem effects_cons (X : Extern) (c : ZipCall) (calls : List ZipCall) (z : Zip) :
    effects X (c :: calls) z =
      if (c.run X z).1 = -1 then effects X calls (c.run X z).2
      else c.effect z.archive :: effects X calls (c.run X z).2 := by
  have heffects : (accepted X calls (c.run X z).2).map (·.effect z.archive) =
      effects X calls (c.run X z).2 :=
    List.map_congr_left fun c' _ => ((grown_call X z c).effect c').symm
  rw [effects, accepted]
  split
  · exact heffects
  · rw [List.map_cons, heffects]

/-- After any calls the pending edits are those the effects of the successful calls leave. -/
theorem editsOf_runAll (X : Extern) (calls : List ZipCall) (z : Zip) :
    editsOf (runAll X calls z).pending =
      (effects X calls z).foldl (Effect.apply z.archive.len) (editsOf z.pending) := by
  induction calls generalizing z with
  | nil => rfl
  | cons c calls ih =>
    have hrun := ih (c.run X z).2
    rw [(grown_call X z c).len] at hrun
    rw [effects_cons]
    rcases run_cases X z c with ⟨hr, hp⟩ | ⟨hr, -, he⟩
    · rw [if_pos hr, ← hp]
      exact hrun
    · rw [if_neg hr, List.foldl_cons, ← he]
      exact hrun

/-- Each of these effects was valid when it took place. -/
theorem effects_valid (X : Extern) (calls : List ZipCall) (z : Zip) :
    Along (Effect.apply z.archive.len) (fun e x => x.Valid z.archive.len e) (editsOf z.pending)
      (effects X calls z) := by
  induction calls generalizing z with
  | nil => trivial
  | cons c calls ih =>
    have hrun := ih (c.run X z).2
    rw [(grown_call X z c).len] at hrun
    rw [effects_cons]
    rcases run_cases X z c with ⟨hr, hp⟩ | ⟨hr, hvalid, he⟩
    · rw [if_pos hr, ← hp]
      exact hrun
    · rw [if_neg hr]
      exact ⟨hvalid, he ▸ hrun⟩

end Kzip.Impl
