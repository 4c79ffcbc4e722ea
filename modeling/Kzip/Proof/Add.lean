import Kzip.Impl.Reference
import Kzip.Proof.Reopened

/-!
# Adding a file

`fileAdd_written_iff`: whether an add that was accepted is found in the archive that is written.
-/

namespace Kzip.Impl

open Lib Lib.Utf8 Kzip.Spec

variable {X : Extern}

/-- An entry has one content. -/
theorem Contents.unique {a : Archive} {e : Edits} {i : Nat} {data data' : Vec}
    (h : Contents X a e i data) (h' : Contents X a e i data') : data = data' := by
  unfold Contents at h h'
  split at h
  · rename_i hi
    rw [if_pos hi] at h'
    split at h
    · rename_i d hd
      rw [hd] at h'
      exact h.trans h'.symm
    · rename_i hd
      rw [hd] at h'
      exact Subtype.ext (Except.ok.inj ((h bytewise).symm.trans (h' bytewise)))
  · rename_i hi
    rw [if_neg hi] at h'
    obtain ⟨add, hadd, rfl⟩ := h
    obtain ⟨add', hadd', rfl⟩ := h'
    cases hadd.symm.trans hadd'
    rfl

/-- A file is in the plan exactly when one of the entries has its name and its content. -/
theorem mem_plan_iff {a : Archive} {e : Edits} {is : List Nat} {plan : List (ArchiveFile × UInt16)}
    (h : List.Forall₂ (IsEntry X a e) is plan) {name : Str} {data : Vec} :
    (∃ f ∈ plan, f.1.name = name ∧ f.1.data = data) ↔ ∃ i ∈ is, nameOf a e i = name ∧ Contents X a e i data := by
  constructor
  · rintro ⟨f, hf, rfl, rfl⟩
    obtain ⟨k, hk, rfl⟩ := List.mem_iff_getElem.mp hf
    have hk' : k < is.length := h.length_eq ▸ hk
    obtain ⟨data, hdata, heq⟩ := h.get hk' hk
    simp only [List.get_eq_getElem] at hdata heq
    refine ⟨is[k], List.getElem_mem hk', ?_, ?_⟩
    · rw [heq]
      rfl
    · rw [heq]
      exact hdata
  · rintro ⟨i, hi, rfl, hdata⟩
    obtain ⟨k, hk, rfl⟩ := List.mem_iff_getElem.mp hi
    have hk' : k < plan.length := h.length_eq ▸ hk
    obtain ⟨data', hdata', heq⟩ := h.get hk hk'
    simp only [List.get_eq_getElem] at hdata' heq
    refine ⟨plan[k], List.getElem_mem hk', ?_, ?_⟩
    · rw [heq]
      rfl
    · rw [heq]
      exact Contents.unique hdata' hdata

/-- A file is found exactly when the plan has one of its name and its content whose region fits. -/
theorem contains_iff {b : Archive} {password : Bytes} {plan : List (ArchiveFile × UInt16)}
    (hlen : b.entries.length = plan.length)
    (hshows : ∀ k f, plan[k]? = some f → ShowsFile X b password k f) {name : Str} {data : Vec} :
    Contains X b password name data ↔ ∃ f ∈ plan, f.1.name = name ∧ f.1.data = data ∧ RegionFits X f := by
  constructor
  · rintro ⟨k, d, hd, hname, hgives⟩
    have hk : k < plan.length := hlen ▸ (List.getElem?_eq_some_iff.mp hd).1
    have hshow := hshows k plan[k] (List.getElem?_eq_getElem hk)
    obtain ⟨d', hd', hentry⟩ := hshow.entry
    cases hd.symm.trans hd'
    obtain ⟨hdata, hfits⟩ := (hshow.given _).mp hgives.1
    exact ⟨plan[k], List.getElem_mem hk, hentry.filename.symm.trans hname, (Subtype.ext hdata).symm, hfits⟩
  · rintro ⟨f, hf, rfl, rfl, hfits⟩
    obtain ⟨k, hk⟩ := List.mem_iff_getElem?.mp hf
    have hshow := hshows k f hk
    obtain ⟨d, hd, hentry⟩ := hshow.entry
    refine ⟨k, d, hd, hentry.filename, (hshow.given _).mpr ⟨rfl, hfits⟩, fun d' hd' hnone => ?_⟩
    cases hd.symm.trans hd'
    exact hshow.plain (hentry.encryptionMethod.symm.trans hnone)

/-- The name of the entry that is located. -/
theorem nameOf_located {a : Archive} {name : Str} {i : Nat} (h : a.nameLocate name = some i)
    (e : Edits) : nameOf a e i = (e.ops i).renames.head?.getD name := by
  obtain ⟨hi, hname, -⟩ := List.findIdx?_eq_some_iff_getElem.mp h
  have hown : a.name i = some name := by
    rw [Archive.name, Archive.dirent, List.getElem?_eq_getElem hi, Option.map_some, eq_of_beq hname]
  rw [nameOf, if_pos (nameLocate_lt h), hown]
  rfl

/-! ## The edits after an add -/

/-- A new entry is written. -/
theorem writes_added {a : Archive} {e : Edits} {name : Str} {data : Vec} :
    ∃ i ∈ present a.len ((Effect.add { name, data }).apply a.len e),
      nameOf a ((Effect.add { name, data }).apply a.len e) i = name ∧
        Contents X a ((Effect.add { name, data }).apply a.len e) i data := by
  have hget : ((Effect.add { name, data }).apply a.len e).adds[a.len + e.adds.length - a.len]? =
      some { name, data } := by
    rw [Nat.add_sub_cancel_left, Effect.adds_add, List.getElem?_concat_length]
  have hnot : ¬ a.len + e.adds.length < a.len := by omega
  refine ⟨a.len + e.adds.length, ?_, ?_, ?_⟩
  · refine mem_present.mpr (.inr ⟨Nat.le_add_right _ _, ?_⟩)
    rw [Effect.adds_add, List.length_append]
    exact Nat.lt_succ_self _
  · rw [nameOf, if_neg hnot, hget]
    rfl
  · rw [Contents, if_neg hnot]
    exact ⟨_, hget, rfl⟩

section
variable {a : Archive} {e : Edits} {i : Nat}

/-- Replacing the data of an entry leaves what is written, and the names. -/
theorem present_replace (data : Vec) :
    present a.len ((Effect.record i (.replace data)).apply a.len e) = present a.len e := by
  rw [present, present, Effect.adds_record]
  congr 2
  funext j
  by_cases hj : j = i
  · rw [hj, Effect.ops_record_self]
    rfl
  · rw [Effect.ops_record_of_ne a.len e hj]

theorem nameOf_replace (data : Vec) (j : Nat) :
    nameOf a ((Effect.record i (.replace data)).apply a.len e) j = nameOf a e j := by
  by_cases hj : j = i
  · rw [hj, nameOf, nameOf, Effect.ops_record_self]
    rfl
  · exact nameOf_record_of_ne hj _

theorem contents_record_of_ne {j : Nat} (hj : j ≠ i) (s : Setting) (data : Vec) :
    Contents X a ((Effect.record i s).apply a.len e) j data ↔ Contents X a e j data := by
  rw [Contents, Contents, Effect.ops_record_of_ne a.len e hj]
  exact Iff.rfl

/-- The first data that an entry is given is its content. -/
theorem contents_replace_iff (hi : i < a.len) (data : Vec) :
    Contents X a ((Effect.record i (.replace data)).apply a.len e) i data ↔
      ∀ first ∈ (e.ops i).replaces.head?, first = data := by
  rw [Contents, if_pos hi, Effect.ops_record_self, EntryOps.record]
  cases (e.ops i).replaces with
  | nil => simp
  | cons first rest =>
    show data = first ↔ _
    simp [eq_comm]

end

/-- A replaced entry is written when it lands, or another entry does for it. -/
theorem writes_replaced_iff {a : Archive} {e : Edits} {name : Str} {data : Vec} {i : Nat}
    (hloc : a.nameLocate name = some i) :
    (∃ j ∈ present a.len ((Effect.record i (.replace data)).apply a.len e),
      nameOf a ((Effect.record i (.replace data)).apply a.len e) j = name ∧
        Contents X a ((Effect.record i (.replace data)).apply a.len e) j data) ↔
      Lands X a e name data := by
  have hi := nameLocate_lt hloc
  have hmem : i ∈ present a.len e ↔ (e.ops i).deleted = false := by
    rw [mem_present]
    exact ⟨fun h => h.elim And.right fun h => absurd h.1 (Nat.not_le.mpr hi), fun h => .inl ⟨hi, h⟩⟩
  have hnamed : nameOf a e i = name ↔ ∀ first ∈ (e.ops i).renames.head?, first = name := by
    rw [nameOf_located hloc]
    cases (e.ops i).renames.head? <;> simp
  simp only [present_replace, nameOf_replace]
  constructor
  · rintro ⟨j, hj, hn, hc⟩ i' hi'
    cases hloc.symm.trans hi'
    by_cases hji : j = i
    · subst hji
      exact .inl ⟨hmem.mp hj, hnamed.mp hn, (contents_replace_iff hi data).mp hc⟩
    · exact .inr ⟨j, hj, hji, hn, (contents_record_of_ne hji _ data).mp hc⟩
  · intro h
    rcases h i hloc with ⟨hd, hn, hc⟩ | ⟨j, hj, hji, hn, hc⟩
    · exact ⟨i, hmem.mpr hd, hnamed.mpr hn, (contents_replace_iff hi data).mpr hc⟩
    · exact ⟨j, hj, hn, (contents_record_of_ne hji _ data).mpr hc⟩

/-! ## The call -/

theorem runAll_concat (X : Extern) (calls : List ZipCall) (c : ZipCall) (z : Zip) :
    runAll X (calls ++ [c]) z = (c.run X (runAll X calls z)).2 := by
  rw [runAll, List.foldl_append]
  rfl

/-- After an add that was accepted, a file of its name and content is written exactly if no earlier delete, rename
or replacement of an original entry with its name is in the way. -/
theorem planned_iff_lands {src : Source} {a : Archive} (hopen : Archive.open src = .ok a) (flags : Int32)
    (calls : List ZipCall) (name : Option Bytes) (source : Option ZipSource) (addFlags : UInt32) {r : Int}
    {z' : Zip} {source' : Option ZipSource}
    (hadd : (runAll X calls (makeZip a flags)).fileAdd name source addFlags = (r, z', source'))
    (hr : r ≠ -1) {sched : Nat → Schedule} {plan : List (ArchiveFile × UInt16)} {out : Vec}
    (h : Closes X sched z' plan out) :
    (∃ f ∈ plan, f.1.name = nameArg name ∧ f.1.data = sourceArg source) ↔
      Lands X (runAll X calls (makeZip a flags)).archive
        (editsOf (runAll X calls (makeZip a flags)).pending) (nameArg name) (sourceArg source) := by
  have hrun : (ZipCall.fileAdd name source addFlags).run X (runAll X calls (makeZip a flags)) =
      (r, z') := by
    rw [ZipCall.run, hadd]
  have hz : runAll X (calls ++ [.fileAdd name source addFlags]) (makeZip a flags) = z' := by
    rw [runAll_concat, hrun]
  have harchive : z'.archive = (runAll X calls (makeZip a flags)).archive := by
    have hsame := fileAdd_archive (runAll X calls (makeZip a flags)) name source addFlags
    rwa [hadd] at hsame
  have hentries := closes_entries hopen (hz.symm ▸ h)
  have hlen : z'.archive.len = a.len := hz ▸ (grown_runAll X _ (makeZip a flags)).len
  rw [hz, ← hlen] at hentries
  refine (mem_plan_iff hentries).trans ?_
  rcases run_cases X (runAll X calls (makeZip a flags)) (.fileAdd name source addFlags) with
    ⟨hfail, -⟩ | ⟨-, -, heffect⟩
  · rw [hrun] at hfail
    exact absurd hfail hr
  · rw [hrun] at heffect
    rw [heffect, harchive]
    simp only [ZipCall.effect]
    split
    · rename_i i hloc
      exact writes_replaced_iff hloc
    · rename_i hloc
      refine iff_of_true writes_added fun i hi => ?_
      rw [hloc] at hi
      cases hi

/-- When an add was accepted, the close after it succeeds and a reader can find what it writes, the archive is
opened again with an entry of the name and the content that were given, exactly if its entries are accepted and
no earlier delete, rename or replacement of an original entry with that name is in the way. -/
theorem fileAdd_written_iff {X : Extern} (hX : InvertsDeflate X) {src : Source} {a : Archive}
    (hopen : Archive.open src = .ok a) (flags : Int32) (calls : List ZipCall) (name : Option Bytes)
    (source : Option ZipSource) (addFlags : UInt32) {r : Int} {z' : Zip} {source' : Option ZipSource}
    (hadd : (runAll X calls (makeZip a flags)).fileAdd name source addFlags = (r, z', source'))
    (hr : r ≠ -1) (sched : Nat → Schedule) {plan : List (ArchiveFile × UInt16)}
    (hplan : z'.plan X sched = .ok plan) {out : Vec} (h : z'.materialize X sched = .ok out)
    {kind : SourceKind} (hfind : Findable X kind z' plan)
    (hregion : ∀ f ∈ plan, f.1.name = nameArg name → f.1.data = sourceArg source → RegionFits X f) :
    (∃ b, Archive.open { kind, bytes := out.val } = .ok b ∧
      Contains X b (closePassword z') (nameArg name) (sourceArg source)) ↔
    AcceptsPlan X z' plan ∧
      Lands X (runAll X calls (makeZip a flags)).archive
        (editsOf (runAll X calls (makeZip a flags)).pending) (nameArg name) (sourceArg source) := by
  have hcloses := closes_of_plan hplan h
  obtain ⟨hopens, hshows⟩ := closes_opened hX hcloses hfind
  have hcontains (b : Archive) (hb : Archive.open { kind, bytes := out.val } = .ok b) :
      Contains X b (closePassword z') (nameArg name) (sourceArg source) ↔
        ∃ f ∈ plan, f.1.name = nameArg name ∧ f.1.data = sourceArg source := by
    obtain ⟨hlen, hshows⟩ := hshows b hb
    rw [contains_iff hlen hshows]
    exact ⟨fun ⟨f, hf, hname, hdata, _⟩ => ⟨f, hf, hname, hdata⟩,
      fun ⟨f, hf, hname, hdata⟩ => ⟨f, hf, hname, hdata, hregion f hf hname hdata⟩⟩
  rw [← hopens, ← planned_iff_lands hopen flags calls name source addFlags hadd hr hcloses]
  constructor
  · rintro ⟨b, hb, hfound⟩
    exact ⟨⟨b, hb⟩, (hcontains b hb).mp hfound⟩
  · rintro ⟨⟨b, hb⟩, hplanned⟩
    exact ⟨b, hb, (hcontains b hb).mpr hplanned⟩

/-- A source with one byte. -/
def byteSource : Option ZipSource := some (.memory (oneByte 0x6A))

/-- The content of the only entry is replaced by an add, after another file was added. -/
theorem fileAdd_written_sample : ∃ a r z' source' plan out,
    Archive.open { kind := .vec, bytes := sampleArchive } = .ok a ∧
    (runAll reference [.fileAdd (some [0x62]) byteSource 0] (makeZip a 0)).fileAdd (some [0x61])
      byteSource zipFlOverwrite = (r, z', source') ∧ r ≠ -1 ∧
    z'.materialize reference (fun _ => bytewise) = .ok out ∧
    ((∃ b, Archive.open { kind := .mmap, bytes := out.val } = .ok b ∧
      Contains reference b (closePassword z') (nameArg (some [0x61])) (sourceArg byteSource)) ↔
    AcceptsPlan reference z' plan ∧
      Lands reference (runAll reference [.fileAdd (some [0x62]) byteSource 0] (makeZip a 0)).archive
        (editsOf (runAll reference [.fileAdd (some [0x62]) byteSource 0] (makeZip a 0)).pending)
        (nameArg (some [0x61])) (sourceArg byteSource)) := by
  obtain ⟨a, ha, hp⟩ := exists_ok (x := Archive.open { kind := .vec, bytes := sampleArchive })
    (p := fun a =>
      let z := runAll reference [.fileAdd (some [0x62]) byteSource 0] (makeZip a 0)
      let r := z.fileAdd (some [0x61]) byteSource zipFlOverwrite
      (r.2.1.materialize reference fun _ => bytewise).toOption.any fun _ : Vec =>
        (r.2.1.plan reference fun _ => bytewise).toOption.any fun plan : List (ArchiveFile × UInt16) =>
          decide (r.1 ≠ -1 ∧ ∀ f ∈ plan, (asBytes f.1.name).length ≤ 0xFFFF ∧ isAesMethod f.2 = false) &&
            shortTail reference r.2.1 plan)
    (by decide +kernel)
  obtain ⟨out, hout, hp⟩ := exists_ok hp
  obtain ⟨plan, hplan, hp⟩ := exists_ok hp
  obtain ⟨hcall, htail⟩ := Bool.and_eq_true_iff.mp hp
  obtain ⟨hr, hfiles⟩ := of_decide_eq_true hcall
  refine ⟨a, _, _, _, plan, out, ha, rfl, hr, hout, fileAdd_written_iff (fun _ _ _ => reference_inflate_deflate)
    ha 0 [.fileAdd (some [0x62]) byteSource 0] (some [0x61]) byteSource zipFlOverwrite rfl hr _ hplan hout
    (findable_of_shortTail (fun f hf => (hfiles f hf).1) htail) fun f hf _ _ haes => ?_⟩
  exact absurd (haes.symm.trans (hfiles f hf).2) (by decide)

/-- An add that overwrites an entry that was deleted is accepted, and lost. -/
theorem fileAdd_lost : ∃ a r z' source' out b,
    Archive.open { kind := .vec, bytes := sampleArchive } = .ok a ∧
    (runAll reference [.delete 0] (makeZip a 0)).fileAdd (some [0x61]) byteSource zipFlOverwrite =
      (r, z', source') ∧ r ≠ -1 ∧
    z'.materialize reference (fun _ => bytewise) = .ok out ∧
    Archive.open { kind := .vec, bytes := out.val } = .ok b ∧
    ¬ Contains reference b (closePassword z') (nameArg (some [0x61])) (sourceArg byteSource) := by
  obtain ⟨a, ha, hp⟩ := exists_ok (x := Archive.open { kind := .vec, bytes := sampleArchive })
    (p := fun a =>
      let z := runAll reference [.delete 0] (makeZip a 0)
      let r := z.fileAdd (some [0x61]) byteSource zipFlOverwrite
      (r.2.1.materialize reference fun _ => bytewise).toOption.any fun out : Vec =>
        (Archive.open { kind := .vec, bytes := out.val }).toOption.any fun b : Archive =>
          decide (r.1 ≠ -1 ∧ b.entries = [])) (by decide +kernel)
  obtain ⟨out, hout, hp⟩ := exists_ok hp
  obtain ⟨b, hb, hp⟩ := exists_ok hp
  obtain ⟨hr, hempty⟩ := of_decide_eq_true hp
  refine ⟨a, _, _, _, out, b, ha, rfl, hr, hout, hb, ?_⟩
  rintro ⟨k, d, hd, -⟩
  rw [hempty] at hd
  cases hd

end Kzip.Impl
