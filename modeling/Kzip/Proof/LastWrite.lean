import Kzip.Impl.Reference
import Kzip.Proof.Reopened
import Kzip.Spec.Ledger

/-!
# The last write wins

`Tracks` relates the pending edits to the ledger of what was set; every steady step keeps it
(`tracks_step`). `materialize_lastWrite`: after a run of steady steps, each entry of the archive that is
written has every attribute as it was set last.
-/

namespace Kzip.Impl

open Lib Lib.Utf8 Kzip.Spec

variable {X : Extern}

/-! ## One entry -/

theorem lastSet_concat {β : Type} (pick : Setting → Option β) (log : List Setting) (s : Setting) :
    lastSet pick (log ++ [s]) = (pick s).or (lastSet pick log) := by
  rw [lastSet, List.filterMap_append, List.getLast?_append, lastSet]
  cases h : pick s with
  | none =>
    rw [List.filterMap_cons_none h]
    rfl
  | some x =>
    rw [List.filterMap_cons_some h]
    rfl

/-- The DOS time and date that a close takes from the edits of an entry. -/
def pendingTime (X : Extern) (o : EntryOps) : Option (UInt16 × UInt16) :=
  (o.mtimes.getLast?.map fun ut => unixToDos X (max ut 0).toNat).or o.dostimes.getLast?

/-- What a close takes from the edits of an entry is what was set last. Names, contents and times of
an entry that is deleted do not matter. -/
structure Agrees (X : Extern) (o : EntryOps) (log : List Setting) : Prop where
  name : o.deleted = false → o.renames.head? = lastSet Setting.name log
  content : o.deleted = false → o.replaces.head? = lastSet Setting.content log
  time : o.deleted = false → pendingTime X o = lastSet (Setting.time X) log
  comment : o.comments.getLast? = lastSet Setting.commentText log
  extAttrs : o.extAttrs.getLast? = lastSet Setting.attributes log
  method : o.compressions.head? = lastSet Setting.method log
  encryption : o.encryptions.head? = lastSet Setting.encryptionMethod log

theorem agrees_none (X : Extern) : Agrees X .none [] :=
  ⟨fun _ => rfl, fun _ => rfl, fun _ => rfl, rfl, rfl, rfl, rfl⟩

theorem head?_concat_of_steady {β : Type} {l : List β} {x : β} (h : ∀ first ∈ l.head?, first = x) :
    (l ++ [x]).head? = some x := by
  cases l with
  | nil => rfl
  | cons y l => exact congrArg some (h y rfl)

theorem not_deleted {o : EntryOps} (h : o.deleted = false) : ¬ o.deleted = true := by
  rw [h]
  decide

/-- A setting that is recorded in a steady step. -/
theorem Agrees.record {n i : Nat} {e : Edits} {log : List Setting} {s : Setting}
    (h : Agrees X (e.ops i) log) (hs : Steady X n e (.record i s)) :
    Agrees X ((e.ops i).record s) (log ++ [s]) := by
  refine ⟨fun hd => ?_, fun hd => ?_, fun hd => ?_, ?_, ?_, ?_, ?_⟩ <;> rw [lastSet_concat]
  · cases s with
    | delete => cases hd
    | rename name => exact head?_concat_of_steady (hs.resolve_left (not_deleted hd))
    | _ => exact h.name hd
  · cases s with
    | delete => cases hd
    | replace data => exact head?_concat_of_steady (hs.resolve_left (not_deleted hd))
    | _ => exact h.content hd
  · cases s with
    | delete => cases hd
    | mtime ut => rfl
    | dostime time date =>
      have hs := hs.resolve_left (not_deleted hd)
      rw [pendingTime]
      cases hm : (e.ops i).mtimes.getLast? with
      | none =>
        simp only [EntryOps.record, hm]
        rfl
      | some ut =>
        simp only [EntryOps.record, hm, Option.map_some, hs ut hm]
        rfl
    | _ => exact h.time hd
  · cases s <;> first | rfl | exact h.comment
  · cases s <;> first | rfl | exact h.extAttrs
  · cases s <;> first | rfl | exact h.method
  · cases s <;> first | rfl | exact h.encryption

/-! ## All entries -/

/-- The pending edits are in accord with the ledger. Pending adds are not deleted, renamed or
replaced, and what is no entry has no edits. -/
structure Tracks (X : Extern) (n : Nat) (e : Edits) (l : Ledger) : Prop where
  adds : l.adds = e.adds.length
  agrees : ∀ i, Agrees X (e.ops i) (l.log i)
  added : ∀ i, n ≤ i → (e.ops i).deleted = false ∧ (e.ops i).renames = [] ∧ (e.ops i).replaces = []
  fresh : ∀ i, n + e.adds.length ≤ i → e.ops i = .none

theorem tracks_empty (X : Extern) (n : Nat) : Tracks X n (editsOf .default) .empty where
  adds := rfl
  agrees _ := agrees_none X
  added _ _ := ⟨rfl, rfl, rfl⟩
  fresh _ _ := rfl

theorem Tracks.record {n i : Nat} {e : Edits} {l : Ledger} {s : Setting} (h : Tracks X n e l)
    (hvalid : (Effect.record i s).Valid n e) (hs : Steady X n e (.record i s)) :
    Tracks X n ((Effect.record i s).apply n e) (l.step n (.record i s)) where
  adds := h.adds
  agrees j := by
    by_cases hj : j = i
    · subst hj
      simp only [Effect.ops_record, Ledger.step, Function.update_self]
      exact (h.agrees j).record hs
    · simp only [Effect.ops_record, Ledger.step, Function.update_of_ne hj]
      exact h.agrees j
  added j hnj := by
    by_cases hj : j = i
    · subst hj
      obtain ⟨hd, hr, hc⟩ := h.added j hnj
      have hother (hs : s = .delete ∨ (∃ name, s = .rename name) ∨ ∃ data, s = .replace data) : False :=
        absurd (hvalid.2 hs) (Nat.not_lt.mpr hnj)
      rw [Effect.ops_record_self]
      cases s with
      | delete => exact (hother (.inl rfl)).elim
      | rename name => exact (hother (.inr (.inl ⟨name, rfl⟩))).elim
      | replace data => exact (hother (.inr (.inr ⟨data, rfl⟩))).elim
      | _ => exact ⟨hd, hr, hc⟩
    · rw [Effect.ops_record_of_ne n e hj]
      exact h.added j hnj
  fresh j hj := by
    have hlt := hvalid.1
    have hne : j ≠ i := by rw [Effect.adds_record] at hj; omega
    rw [Effect.ops_record_of_ne n e hne]
    exact h.fresh j hj

theorem Tracks.add {n : Nat} {e : Edits} {l : Ledger} (h : Tracks X n e l) (entry : PendingAdd) :
    Tracks X n ((Effect.add entry).apply n e) (l.step n (.add entry)) where
  adds := by rw [Effect.adds_add, List.length_append, Ledger.step, h.adds]; rfl
  agrees j := by
    by_cases hj : j = n + l.adds
    · subst hj
      simp only [Effect.ops_add, Ledger.step, Function.update_self]
      rw [h.fresh _ (by rw [h.adds])]
      exact agrees_none X
    · simp only [Effect.ops_add, Ledger.step, Function.update_of_ne hj]
      exact h.agrees j
  added := h.added
  fresh j hj := by
    rw [Effect.adds_add, List.length_append] at hj
    exact h.fresh j (by omega)

theorem Tracks.unchange {n i : Nat} {e : Edits} {l : Ledger} (h : Tracks X n e l)
    (hvalid : (Effect.unchange i).Valid n e) (hs : Steady X n e (.unchange i)) :
    Tracks X n ((Effect.unchange i).apply n e) (l.step n (.unchange i)) := by
  have hlt : i < n + e.adds.length := hvalid
  have hops (j : Nat) : ((Effect.unchange i).apply n e).ops j = if j = i then .none else e.ops j := by
    rw [Effect.ops_unchange, Function.update_apply]
  have hadded (j : Nat) (hnj : n ≤ j) : (((Effect.unchange i).apply n e).ops j).deleted = false ∧
      (((Effect.unchange i).apply n e).ops j).renames = [] ∧
      (((Effect.unchange i).apply n e).ops j).replaces = [] := by
    rw [hops]
    split
    · exact ⟨rfl, rfl, rfl⟩
    · exact h.added j hnj
  by_cases hn : n ≤ i
  · have hlen : (e.adds.eraseIdx (i - n)).length = e.adds.length - 1 :=
      List.length_eraseIdx_of_lt (by omega)
    have hnone (j : Nat) (hj : i < j) : e.ops j = .none := by
      by_cases hjt : j < n + e.adds.length
      · exact hs hn j hjt hj
      · exact h.fresh j (Nat.le_of_not_lt hjt)
    refine ⟨?_, fun j => ?_, hadded, fun j hj => ?_⟩
    · simp only [Effect.adds_unchange, Ledger.step, if_pos hn, hlen, h.adds]
    · -- the entries after the one that is removed move down by one
      simp only [Ledger.step, if_pos hn, hops]
      split
      · rename_i hji
        rw [if_neg (by omega), ← hnone (j + 1) (by omega)]
        exact h.agrees (j + 1)
      · split
        · exact h.agrees j
        · rw [hnone j (by omega), ← hnone (j + 1) (by omega)]
          exact h.agrees (j + 1)
    · rw [Effect.adds_unchange, if_pos hn, hlen] at hj
      rw [hops]
      split
      · rfl
      · exact hnone j (by omega)
  · refine ⟨?_, fun j => ?_, hadded, fun j hj => ?_⟩
    · simp only [Effect.adds_unchange, Ledger.step, if_neg hn, h.adds]
    · simp only [Ledger.step, if_neg hn, hops, Function.update_apply]
      split
      · exact agrees_none X
      · exact h.agrees j
    · rw [Effect.adds_unchange, if_neg hn] at hj
      rw [hops]
      split
      · rfl
      · exact h.fresh j hj

/-- Every steady step keeps the edits in accord with the ledger. -/
theorem tracks_step {n : Nat} (e : Edits) (l : Ledger) (x : Effect) (h : Tracks X n e l)
    (hx : x.Valid n e ∧ Steady X n e x) : Tracks X n (x.apply n e) (l.step n x) := by
  cases x with
  | keep => exact h
  | record i s => exact h.record hx.1 hx.2
  | add entry => exact h.add entry
  | unchange i => exact h.unchange hx.1 hx.2
  | clear => exact tracks_empty X n

/-! ## The files -/

/-- Every attribute of the file that was set is as it was set last. -/
structure PlansLast (X : Extern) (log : List Setting) (f : ArchiveFile × UInt16) : Prop where
  name : ∀ x, lastSet Setting.name log = some x → f.1.name = x
  content : ∀ x, lastSet Setting.content log = some x → f.1.data = x
  comment : ∀ x, lastSet Setting.commentText log = some x → f.1.comment = x
  time : ∀ x, lastSet (Setting.time X) log = some x → (f.1.lastModTime, f.1.lastModDate) = x
  extAttrs : ∀ x, lastSet Setting.attributes log = some x → (f.1.opsys, f.1.externalAttributes) = x
  method : ∀ x, lastSet Setting.method log = some x → f.1.method = compressionFromI32 x.1
  encryption : ∀ x, lastSet Setting.encryptionMethod log = some x → f.2 = x

/-- The file of an entry whose edits are in accord with what was set of it. -/
theorem Tracks.plansLast {a : Archive} {e : Edits} {l : Ledger} {n : Nat} (h : Tracks X n e l)
    (hn : a.len = n) {i : Nat} (hi : i ∈ present n e) {f : ArchiveFile × UInt16} (hf : IsEntry X a e i f) :
    PlansLast X (l.log i) f := by
  subst hn
  obtain ⟨data, hdata, rfl⟩ := hf
  have hagrees := h.agrees i
  have hd : (e.ops i).deleted = false := by
    rcases mem_present.mp hi with ⟨-, hd⟩ | ⟨hn, -⟩
    · exact hd
    · exact (h.added i hn).1
  constructor <;> intro x hx
  · rw [← hagrees.name hd] at hx
    have hlt : i < a.len := by
      refine Nat.lt_of_not_le fun hle => ?_
      rw [(h.added i hle).2.1] at hx
      cases hx
    show nameOf a e i = x
    rw [nameOf, if_pos hlt, hx]
    rfl
  · rw [← hagrees.content hd] at hx
    have hlt : i < a.len := by
      refine Nat.lt_of_not_le fun hle => ?_
      rw [(h.added i hle).2.2] at hx
      cases hx
    rw [Contents, if_pos hlt, hx] at hdata
    exact hdata
  · rw [← hagrees.comment] at hx
    simp only [entryFor, hx]
    rfl
  · rw [← hagrees.time hd, pendingTime] at hx
    show timeOf X (a.dirent i) (e.ops i) = x
    rw [timeOf]
    cases hm : (e.ops i).mtimes.getLast? with
    | some ut =>
      rw [hm] at hx
      exact Option.some.inj hx
    | none =>
      rw [hm] at hx
      have ht : (e.ops i).dostimes.getLast? = some x := hx
      simp only [ht]
  · rw [← hagrees.extAttrs] at hx
    simp only [entryFor, hx]
    rfl
  · rw [← hagrees.method] at hx
    simp only [entryFor, hx, Option.bind_some]
    cases compressionFromI32 x.1 <;> rfl
  · rw [← hagrees.encryption] at hx
    simp only [entryFor, hx]
    rfl

/-- The entry that was written for such a file. -/
theorem PlansLast.shows {log : List Setting} {f : ArchiveFile × UInt16} (h : PlansLast X log f) {b : Archive}
    {password : Bytes} {k : Nat} (hshows : ShowsFile X b password k f) (hfits : RegionFits X f) :
    ∃ d, ShowsLast X log b password k d := by
  obtain ⟨d, hd, hshow⟩ := hshows.entry
  refine ⟨d, hd, fun x hx => hshow.filename.trans (h.name x hx), fun x hx => ?_, fun x hx => ?_, fun x hx => ?_,
    fun x hx => ?_, fun x hx => ?_, fun x hx => hshow.encryptionMethod.trans (h.encryption x hx)⟩
  · obtain rfl := h.content x hx
    refine ⟨(hshows.given _).mpr ⟨rfl, hfits⟩, fun d' hd' hnone => ?_⟩
    cases hd.symm.trans hd'
    exact hshows.plain (hshow.encryptionMethod.symm.trans hnone)
  · rw [hshow.comment, h.comment x hx]
  · rw [hshow.lastModTime, hshow.lastModDate, h.time x hx]
  · rw [hshow.opsys, hshow.extAttrib, h.extAttrs x hx]
  · rw [hshow.compMethod, h.method x hx]

/-- The ledger of a run. -/
def ledgerOf (n : Nat) (effs : List Effect) : Ledger := effs.foldl (Ledger.step n) .empty

/-- After a run whose steps are all steady, when the close succeeds and a reader can find what it writes and
accepts it: the archive is opened again, and each of its entries has every attribute as it was set last since
the entry was last unchanged. -/
theorem materialize_lastWrite {X : Extern} (hX : InvertsDeflate X) {src : Source} {a : Archive}
    (hopen : Archive.open src = .ok a) (flags : Int32) (calls : List ZipCall)
    (hsteps : Along (Effect.apply a.len) (Steady X a.len) (editsOf .default)
      (effects X calls (makeZip a flags)))
    (sched : Nat → Schedule) {plan : List (ArchiveFile × UInt16)}
    (hplan : (runAll X calls (makeZip a flags)).plan X sched = .ok plan) {out : Vec}
    (h : (runAll X calls (makeZip a flags)).materialize X sched = .ok out) {kind : SourceKind}
    (hfind : Findable X kind (runAll X calls (makeZip a flags)) plan)
    (haccepts : AcceptsPlan X (runAll X calls (makeZip a flags)) plan) (hregion : ∀ f ∈ plan, RegionFits X f) :
    ∃ b, Archive.open { kind, bytes := out.val } = .ok b ∧
      b.entries.length = (present a.len (editsOf (runAll X calls (makeZip a flags)).pending)).length ∧
      ∀ k i, (present a.len (editsOf (runAll X calls (makeZip a flags)).pending))[k]? = some i →
        ∃ d, ShowsLast X ((ledgerOf a.len (effects X calls (makeZip a flags))).log i) b
          (closePassword (runAll X calls (makeZip a flags))) k d := by
  have hcloses := closes_of_plan hplan h
  have htracks := ((effects_valid X calls (makeZip a flags)).and hsteps).simulation tracks_step
    (tracks_empty X a.len)
  change Tracks X a.len _ (ledgerOf a.len _) at htracks
  rw [← editsOf_runAll X calls (makeZip a flags)] at htracks
  have hlen : (runAll X calls (makeZip a flags)).archive.len = a.len :=
    (grown_runAll X calls (makeZip a flags)).len
  have hentries := closes_entries hopen hcloses
  obtain ⟨hopens, hshows⟩ := closes_opened hX hcloses hfind
  obtain ⟨b, hb⟩ := hopens.mpr haccepts
  obtain ⟨hlength, hshows⟩ := hshows b hb
  refine ⟨b, hb, hlength.trans hentries.length_eq.symm, fun k i hk => ?_⟩
  obtain ⟨f, hf, hentry⟩ := exists_of_forall₂ hentries hk
  exact (htracks.plansLast hlen (List.mem_of_getElem? hk) hentry).shows (hshows k f hf)
    (hregion f (List.mem_of_getElem? hf))

/-- Two comments and a new name for the first entry. -/
def commentCalls : List ZipCall :=
  [.fileSetComment 0 (some [0x63]) 1, .rename 0 (some [0x78]), .fileSetComment 0 (some [0x64]) 1]

theorem materialize_lastWrite_sample : ∃ a out b,
    Archive.open { kind := .vec, bytes := sampleArchive } = .ok a ∧
    (runAll reference commentCalls (makeZip a 0)).materialize reference (fun _ => bytewise) = .ok out ∧
    Archive.open { kind := .mmap, bytes := out.val } = .ok b ∧
    b.entries.length = (present a.len (editsOf (runAll reference commentCalls (makeZip a 0)).pending)).length ∧
    ∀ k i, (present a.len (editsOf (runAll reference commentCalls (makeZip a 0)).pending))[k]? = some i →
      ∃ d, ShowsLast reference ((ledgerOf a.len (effects reference commentCalls (makeZip a 0))).log i) b
        (closePassword (runAll reference commentCalls (makeZip a 0))) k d := by
  obtain ⟨a, ha, hp⟩ := exists_ok (x := Archive.open { kind := .vec, bytes := sampleArchive })
    (p := fun a => ((runAll reference commentCalls (makeZip a 0)).materialize reference
      fun _ => bytewise).toOption.any fun out : Vec =>
        (Archive.open { kind := .mmap, bytes := out.val }).toOption.isSome &&
        ((runAll reference commentCalls (makeZip a 0)).plan reference fun _ => bytewise).toOption.any
          fun plan : List (ArchiveFile × UInt16) =>
          decide (Along (Effect.apply a.len)
            (Steady reference a.len) (editsOf .default) (effects reference commentCalls (makeZip a 0)) ∧
            ∀ f ∈ plan, (asBytes f.1.name).length ≤ 0xFFFF ∧ isAesMethod f.2 = false) &&
            shortTail reference (runAll reference commentCalls (makeZip a 0)) plan)
    (by decide +kernel)
  obtain ⟨out, hout, hp⟩ := exists_ok hp
  obtain ⟨hopened, hp⟩ := Bool.and_eq_true_iff.mp hp
  obtain ⟨plan, hplan, hp⟩ := exists_ok hp
  obtain ⟨hrun, htail⟩ := Bool.and_eq_true_iff.mp hp
  obtain ⟨hsteps, hfiles⟩ := of_decide_eq_true hrun
  have hfind : Findable reference .mmap (runAll reference commentCalls (makeZip a 0)) plan :=
    findable_of_shortTail (fun f hf => (hfiles f hf).1) htail
  have hX : InvertsDeflate reference := fun _ _ _ => reference_inflate_deflate
  obtain ⟨b, hb⟩ := Option.isSome_iff_exists.mp hopened
  have haccepts : AcceptsPlan reference (runAll reference commentCalls (makeZip a 0)) plan :=
    (closes_opened hX (closes_of_plan hplan hout) hfind).1.mp ⟨b, toOption_eq_some.mp hb⟩
  obtain ⟨b, hb, hlast⟩ := materialize_lastWrite hX ha 0 commentCalls hsteps _ hplan hout hfind haccepts
    fun f hf haes => absurd (haes.symm.trans (hfiles f hf).2) (by decide)
  exact ⟨a, out, b, ha, hout, hb, hlast⟩

/-- The first entry renamed twice. -/
def renameCalls : List ZipCall := [.rename 0 (some [0x78]), .rename 0 (some [0x79])]

/-- An entry renamed twice is written under the first of the two names. -/
theorem materialize_firstWrite : ∃ a out b,
    Archive.open { kind := .vec, bytes := sampleArchive } = .ok a ∧
    (runAll reference renameCalls (makeZip a 0)).materialize reference (fun _ => bytewise) = .ok out ∧
    Archive.open { kind := .vec, bytes := out.val } = .ok b ∧
    (present a.len (editsOf (runAll reference renameCalls (makeZip a 0)).pending))[0]? = some 0 ∧
    ¬ ∃ d, ShowsLast reference ((ledgerOf a.len (effects reference renameCalls (makeZip a 0))).log 0) b
      (closePassword (runAll reference renameCalls (makeZip a 0))) 0 d := by
  obtain ⟨a, ha, hp⟩ := exists_ok (x := Archive.open { kind := .vec, bytes := sampleArchive })
    (p := fun a => ((runAll reference renameCalls (makeZip a 0)).materialize reference
      fun _ => bytewise).toOption.any fun out : Vec => (Archive.open { kind := .vec, bytes := out.val }).toOption.any
        fun b : Archive => decide (effects reference renameCalls (makeZip a 0) =
          [.record 0 (.rename ['x']), .record 0 (.rename ['y'])] ∧
        (present a.len (editsOf (runAll reference renameCalls (makeZip a 0)).pending))[0]? = some 0 ∧
        b.entries[0]?.map (fun d : Dirent => d.filename) = some ['x'])) (by decide +kernel)
  obtain ⟨out, hout, hp⟩ := exists_ok hp
  obtain ⟨b, hb, hp⟩ := exists_ok hp
  obtain ⟨heffs, hpresent, hname⟩ := of_decide_eq_true hp
  refine ⟨a, out, b, ha, hout, hb, hpresent, fun ⟨d, hlast⟩ => ?_⟩
  rw [hlast.entry, Option.map_some, hlast.name ['y'] (by rw [heffs]; rfl)] at hname
  exact absurd hname (by decide)

end Kzip.Impl
