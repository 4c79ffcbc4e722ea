import Kzip.Proof.Getters
import Kzip.Proof.Search
import Kzip.Proof.Session
import Kzip.Proof.Time
import Kzip.Spec.Report

/-!
# Reports foretell a close

Setting the archive comment and taking it back keep its overlay right, and no other call touches either
(`commentShown_run`). The attributes and the time of an entry are worked out from the pending edits each time
they are asked for, as a close does. So in every state of a run the reports are what a close writes
(`getters_foretell`).
-/

namespace Kzip.Impl

open Lib Lib.Utf8 Kzip.Spec

variable {X : Extern}

/-! ## The archive comment -/

/-- The comment that a close writes. -/
def Zip.closingComment (z : Zip) : Bytes := z.pending.archiveComment.getD (asBytes z.archive.comment)

/-- The overlay holds the comment that a close writes, and the getter can report its length. -/
structure CommentShown (z : Zip) : Prop where
  overlay : z.archiveComment = commentOverlay z.closingComment
  short : z.closingComment.length < 2 ^ 31
  opened : (asBytes z.archive.comment).length < 2 ^ 31

theorem CommentShown.keep {z z' : Zip} (h : CommentShown z) (hoverlay : z'.archiveComment = z.archiveComment)
    (hpending : z'.pending.archiveComment = z.pending.archiveComment)
    (harchive : z'.archive.comment = z.archive.comment) : CommentShown z' := by
  have hclosing : z'.closingComment = z.closingComment := by
    rw [Zip.closingComment, hpending, harchive]
    rfl
  exact ⟨by rw [hoverlay, hclosing, h.overlay], hclosing ▸ h.short, harchive ▸ h.opened⟩

theorem CommentShown.edit {z z' : Zip} {refuse : Option ZipErrorCode} (h : CommentShown z)
    (h' : CommentShown z') : CommentShown (z.edit refuse z').2 := by
  rcases edit_cases z refuse z' with ⟨code, hfail⟩ | ⟨-, hok⟩
  · rw [hfail]
    exact h.keep rfl rfl rfl
  · rw [hok]
    exact h'

theorem CommentShown.pendingOnly {z : Zip} {r : Int × Zip} (h : CommentShown z) (hr : PendingOnly z r) :
    CommentShown r.2 :=
  h.keep (hr.same (f := Zip.archiveComment) (fun _ => rfl) fun _ _ => rfl)
    (hr.same (f := fun z => z.pending.archiveComment) (fun _ => rfl) fun _ _ => rfl)
    (hr.same (f := fun z => z.archive.comment) (fun _ => rfl) fun _ _ => rfl)

theorem commentShown_run (X : Extern) {z : Zip} (h : CommentShown z) (c : ZipCall) :
    CommentShown (c.run X z).2 := by
  obtain ⟨calls, hcalls⟩ := run_archive X z c
  have harchive : (c.run X z).2.archive.comment = z.archive.comment := by
    rw [hcalls]
    exact after_comment X calls z.archive
  cases c with
  | fileAdd name source flags => exact h.pendingOnly (fileAdd_pendingOnly z name source flags)
  | dirAdd name => exact h.pendingOnly (dirAdd_pendingOnly z name)
  | rename index name =>
    rw [ZipCall.run, rename_eq_edit]
    exact h.edit (h.keep rfl rfl rfl)
  | fileReplace index source =>
    rw [fileReplace_eq_edit]
    exact h.edit (h.keep rfl rfl rfl)
  | setArchiveComment comment len =>
    have hlen := length_sliceArg_le comment len
    exact h.edit ⟨rfl, show (sliceArg comment len.toNat).length < 2 ^ 31 by omega, h.opened⟩
  | setArchiveFlag flag value =>
    simp only [ZipCall.run]
    rcases setArchiveFlag_cases z flag value with ⟨code, hr⟩ | hr | ⟨-, hr⟩ <;> rw [hr] <;>
      exact h.keep rfl rfl rfl
  | setDefaultPassword password => cases password <;> exact h.keep rfl rfl rfl
  | unchange index =>
    simp only [ZipCall.run, Zip.unchange]
    split <;> exact h.keep rfl rfl rfl
  | unchangeAll => exact ⟨rfl, h.opened, h.opened⟩
  | unchangeArchive => exact ⟨rfl, h.opened, h.opened⟩
  | openEntry | readEntry => exact h.keep rfl rfl harchive
  | _ => exact h.edit (h.keep rfl rfl rfl)

theorem commentShown_runAll (X : Extern) (calls : List ZipCall) {z : Zip} (h : CommentShown z) :
    CommentShown (runAll X calls z) := by
  induction calls generalizing z with
  | nil => exact h
  | cons c calls ih => exact ih (commentShown_run X h c)

theorem cdirOf_comment {src : Source} {comment : Str} {n : UInt16} {cdirSize cdirOffset : UInt64}
    {locator : Option UInt64} {cd : CentralDir}
    (h : cdirOf src comment n cdirSize cdirOffset locator = .ok cd) : cd.comment = comment := by
  have hat {n : UInt64} {z64 : Bool} {size offset : UInt64}
      (h : cdirAt src comment n z64 size offset = .ok cd) : cd.comment = comment := by
    obtain ⟨entries, -, h⟩ := bind_ok.mp h
    cases h
    rfl
  simp only [cdirOf, finishCdir_eq] at h
  split at h
  · exact hat h
  · split at h
    · split at h <;> exact hat h
    · exact hat h

/-- The comment of an end record has at most 16 bits of length before it is decoded. -/
theorem tryParseCdir_comment {src : Source} {tail : Bytes} {start abs : Nat} {cd : CentralDir}
    (h : tryParseCdir src tail start abs = .ok (some cd)) :
    ∃ bs : Bytes, bs.length ≤ 0xFFFF ∧ cd.comment = fromUtf8Lossy bs := by
  simp only [tryParseCdir] at h
  split at h
  · cases h
  · split at h
    · cases h
    · split at h
      · cases h
      · obtain ⟨cd', hcd, hsome⟩ := map_ok.mp h
        cases hsome
        exact ⟨_, Nat.le_trans (List.length_take_le _ _) (Nat.le_of_lt_succ (UInt16.toNat_lt _)),
          cdirOf_comment hcd⟩

theorem open_comment {src : Source} {a : Archive} (h : Archive.open src = .ok a) :
    ∃ bs : Bytes, bs.length ≤ 0xFFFF ∧ a.comment = fromUtf8Lossy bs := by
  obtain ⟨cd, hcd, ha⟩ := bind_ok.mp h
  cases ha
  simp only [readCentralDir] at hcd
  obtain ⟨-, hcd⟩ := guard_ok.mp hcd
  obtain ⟨o, ho, hcd⟩ := bind_ok.mp hcd
  cases o with
  | none =>
    dsimp only at hcd
    split at hcd <;> cases hcd
  | some cd' =>
    cases hcd
    obtain ⟨i, -, -, hparse, -⟩ := firstCdir_some ho
    exact tryParseCdir_comment hparse

theorem commentShown_makeZip {src : Source} {a : Archive} (h : Archive.open src = .ok a) (flags : Int32) :
    CommentShown (makeZip a flags) := by
  obtain ⟨bs, hbs, hcomment⟩ := open_comment h
  have hlen : (asBytes a.comment).length < 2 ^ 31 := by
    have hdecoded := length_asBytes_fromUtf8Lossy bs
    rw [hcomment]
    omega
  exact ⟨rfl, hlen, hlen⟩

theorem CommentShown.getter {z : Zip} (h : CommentShown z) :
    z.getArchiveComment.1 = (if z.closingComment = [] then none else some (z.closingComment ++ [0])) ∧
      z.getArchiveComment.2.toInt = z.closingComment.length := by
  have hshort := h.short
  rw [Zip.getArchiveComment, h.overlay, commentOverlay]
  refine ⟨rfl, ?_⟩
  by_cases hnil : z.closingComment = []
  · rw [if_pos hnil, hnil]
    rfl
  · rw [if_neg hnil]
    show (Int32.ofNat ((z.closingComment ++ [0]).length - 1)).toInt = _
    rw [List.length_append, List.length_singleton, Nat.add_sub_cancel]
    exact Int32.toInt_ofNat_of_lt hshort

/-! ## The entries -/

/-- The attributes that an entry was opened with. -/
def openedAttributes (d : Dirent) : UInt8 × UInt32 := ((d.versionMadeby >>> (8 : UInt16)).toUInt8, d.extAttrib)

theorem effectiveExtAttrs_eq (a : Archive) (p : PendingOps) (i : Nat) :
    effectiveExtAttrs a p i = (opsAt p i).extAttrs.getLast?.or ((a.dirent i).map openedAttributes) := by
  rw [effectiveExtAttrs, lastAt_eq]
  show _ = (valuesAt p.extAttrs i).getLast?.or _
  cases (valuesAt p.extAttrs i).getLast? <;> rfl

/-- Attributes that are reported are those of the file. -/
theorem entryFor_attributes (X : Extern) {d : Option Dirent} {o : EntryOps} {attrs : UInt8 × UInt32}
    (h : o.extAttrs.getLast?.or (d.map openedAttributes) = some attrs) (name : Str) (data : Vec) :
    attrs = ((entryFor X d o name data).1.opsys, (entryFor X d o name data).1.externalAttributes) := by
  show attrs = o.extAttrs.getLast?.getD (d.elim (3, 0) openedAttributes)
  cases hlast : o.extAttrs.getLast? with
  | some last =>
    rw [hlast] at h
    cases h
    rfl
  | none =>
    rw [hlast] at h
    cases d with
    | none => cases h
    | some d =>
      cases h
      rfl

theorem mtime_fillStat (X : Extern) (Z : Zone) (z : Zip) (stat : Stat) : (fillStat X Z z stat).mtime =
    asI64 (dosToUnix Z (effectiveDostime X z.archive z.pending (stat.index.getD 0)).1
      (effectiveDostime X z.archive z.pending (stat.index.getD 0)).2).toNat := by
  rw [fillStat]

theorem reported_of_isEntry (Z : Zone) {z : Zip} {i : Nat} {f : ArchiveFile × UInt16} (hi : i < z.total)
    (h : IsEntry X z.archive (editsOf z.pending) i f) : Reported X Z z i f := by
  obtain ⟨data, -, rfl⟩ := h
  have hgetter : (z.fileGetExternalAttributes i).1 = effectiveExtAttrs z.archive z.pending i := by
    rw [Zip.fileGetExternalAttributes, if_pos (show z.validIndex i = true from decide_eq_true hi)]
  rw [effectiveExtAttrs_eq] at hgetter
  refine ⟨fun attrs hsome => ?_, fun hlt => ?_, fun hlt => ?_, fun hle => ?_⟩
  · exact entryFor_attributes X (hgetter.symm.trans hsome) _ _
  · have hd : z.archive.dirent i = some (z.archive.entries.get ⟨i, hlt⟩) := List.getElem?_eq_getElem hlt
    rw [hgetter, hd, Option.isSome_or, Option.map_some, Option.isSome_some, Bool.or_true]
  · have hd : z.archive.entries[i]? = some (z.archive.entries.get ⟨i, hlt⟩) := List.getElem?_eq_getElem hlt
    obtain ⟨stat, hstat, hindex⟩ : ∃ stat, z.archive.stat Z i = .ok stat ∧ stat.index = some i := by
      rw [Archive.stat, hd]
      exact ⟨_, rfl, rfl⟩
    have hfilled : zipStatIndex X Z z i true = (0, some (fillStat X Z z stat), z) := by
      rw [zipStatIndex, hstat]
      rfl
    refine ⟨fillStat X Z z stat, hfilled, fun fname hname => ?_, ?_⟩
    · rw [zipStat, hname]
      exact hfilled
    · rw [mtime_fillStat, hindex, Option.getD_some, effectiveDostime_eq]
      rfl
  · rw [zipStatIndex, Archive.stat, List.getElem?_eq_none hle]

/-- In every state of a run of edits on an opened archive, what the getters report of the archive comment and of
the attributes and the times of the entries is what a close writes. -/
theorem getters_foretell (X : Extern) (Z : Zone) {src : Source} {a : Archive} (h : Archive.open src = .ok a)
    (flags : Int32) (calls : List ZipCall) {sched : Nat → Schedule} {out : Vec}
    (hclose : (runAll X calls (makeZip a flags)).materialize X sched = .ok out) :
    ∃ plan archiveComment, Foretells X Z (runAll X calls (makeZip a flags)) plan archiveComment ∧
      ∃ password, writeArchiveFull X (plan.map (·.1)) .default password (plan.map (·.2)) archiveComment =
        .ok out := by
  obtain ⟨plan, hplan⟩ := closes_of_materialize hclose
  obtain ⟨hcomment, hlen⟩ := (commentShown_runAll X calls (commentShown_makeZip h flags)).getter
  have hentries := closes_entries h hplan
  have hgrown : a.Grown (runAll X calls (makeZip a flags)).archive := grown_runAll X calls (makeZip a flags)
  rw [← hgrown.len] at hentries
  have htotal : ∀ i ∈ present (runAll X calls (makeZip a flags)).archive.len
      (editsOf (runAll X calls (makeZip a flags)).pending), i < (runAll X calls (makeZip a flags)).total := by
    intro i hi
    rcases mem_present.mp hi with ⟨hlt, -⟩ | ⟨-, hlt⟩
    · exact Nat.lt_of_lt_of_le hlt (Nat.le_add_right _ _)
    · exact hlt
  have hboth := (List.forall₂_and_left _ _).mpr ⟨htotal, hentries⟩
  exact ⟨plan, _, ⟨hcomment, hlen, hboth.imp fun _ _ h => reported_of_isEntry Z h.1 h.2⟩, hplan.written⟩

/-- The calls that set the archive comment, and the time and the attributes of the first entry. -/
def reportCalls : List ZipCall :=
  [.setArchiveComment (some [0x68, 0x69]) 2, .fileSetMtime 0 1000000001, .fileSetExternalAttributes 0 3 7]

theorem getters_foretell_sample : ∃ a out, Archive.open { kind := .vec, bytes := sampleArchive } = .ok a ∧
    (runAll reference reportCalls (makeZip a 0)).materialize reference (fun _ => bytewise) = .ok out ∧
    ∃ plan archiveComment, Foretells reference utcClock.toZone (runAll reference reportCalls (makeZip a 0)) plan
        archiveComment ∧
      ∃ password, writeArchiveFull reference (plan.map (·.1)) .default password (plan.map (·.2)) archiveComment =
        .ok out := by
  obtain ⟨a, ha, hp⟩ := exists_ok (x := Archive.open { kind := .vec, bytes := sampleArchive })
    (p := fun a : Archive => ((runAll reference reportCalls (makeZip a 0)).materialize reference
      fun _ => bytewise).toOption.any fun out : Vec => decide (out.val.length > 0))
    (by decide +kernel)
  obtain ⟨out, hout, -⟩ := exists_ok hp
  exact ⟨a, out, ha, hout, getters_foretell reference utcClock.toZone ha 0 reportCalls hout⟩

end Kzip.Impl
