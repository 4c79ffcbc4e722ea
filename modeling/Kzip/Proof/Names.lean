import Kzip.Impl.Reference
import Kzip.Proof.Add
import Kzip.Spec.Names

/-!
# The names of the entries that are written

A call settles the names that other entries hold exactly if it keeps the names apart (`settlesName_iff`). `Unique`
says that no two entries have the same name; such a call keeps it so (`unique_call`), and after a run of such
calls no two entries of the archive that is written have the same name (`materialize_names_iff`).
-/

namespace Kzip.Impl

open Lib Lib.Utf8 Kzip.Spec

variable {X : Extern}

/-- No two entries that are written have the same name. -/
def Unique (a : Archive) (e : Edits) : Prop :=
  ∀ i ∈ present a.len e, ∀ j ∈ present a.len e, nameOf a e i = nameOf a e j → i = j

theorem unique_open {a : Archive} (h : (a.entries.map (·.filename)).Nodup) :
    Unique a (editsOf .default) := by
  have hlt {i : Nat} (hi : i ∈ present a.len (editsOf .default)) : i < a.len := by
    rcases mem_present.mp hi with ⟨hi, -⟩ | ⟨hn, hi⟩
    · exact hi
    · exact hi
  have hlen : (a.entries.map (·.filename)).length = a.len := List.length_map _
  have hname {i : Nat} (hi : i < (a.entries.map (·.filename)).length) :
      nameOf a (editsOf .default) i = (a.entries.map (·.filename))[i] := by
    have hi' : i < a.len := hlen ▸ hi
    rw [nameOf, if_pos hi', Archive.name, Archive.dirent, List.getElem?_eq_getElem hi', List.getElem_map]
    rfl
  intro i hi j hj hij
  rw [hname (hlen.symm ▸ hlt hi), hname (hlen.symm ▸ hlt hj)] at hij
  exact (List.Nodup.getElem_inj_iff h).mp hij

/-! ## One step -/

/-- An effect that gives an entry no name that another entry has. -/
def FreshName (a : Archive) (e : Edits) : Effect → Prop
  | .add entry => ∀ j ∈ present a.len e, nameOf a e j ≠ entry.name
  | .record i (.rename name) => ∀ j ∈ present a.len e, j ≠ i → nameOf a e j ≠ name
  | _ => True

section
variable {a : Archive} {e : Edits} {i : Nat}

/-- Nothing is written that was not written before. -/
theorem mem_present_of_record {s : Setting} {j : Nat}
    (hj : j ∈ present a.len ((Effect.record i s).apply a.len e)) : j ∈ present a.len e := by
  rw [mem_present, Effect.adds_record] at hj
  refine mem_present.mpr (hj.imp_left fun ⟨hlt, hd⟩ => ⟨hlt, ?_⟩)
  by_cases hji : j = i
  · subst hji
    rw [Effect.ops_record_self] at hd
    cases s with
    | delete => cases hd
    | _ => exact hd
  · rwa [Effect.ops_record_of_ne a.len e hji] at hd

/-- A record keeps the name of its entry, or gives it its first new name. -/
theorem nameOf_record_cases (a : Archive) (e : Edits) (i : Nat) (s : Setting) :
    nameOf a ((Effect.record i s).apply a.len e) i = nameOf a e i ∨
      ∃ name, s = .rename name ∧ nameOf a ((Effect.record i s).apply a.len e) i = name := by
  by_cases hlt : i < a.len
  · rw [nameOf, nameOf, if_pos hlt, if_pos hlt, Effect.ops_record_self]
    cases s with
    | rename name =>
      cases hr : (e.ops i).renames with
      | nil =>
        refine .inr ⟨name, rfl, ?_⟩
        simp only [EntryOps.record, hr]
        rfl
      | cons first rest =>
        simp only [EntryOps.record, hr]
        exact .inl rfl
    | _ => exact .inl rfl
  · rw [nameOf, nameOf, if_neg hlt, if_neg hlt, Effect.adds_record]
    exact .inl rfl

end

theorem Unique.record {a : Archive} {e : Edits} {i : Nat} {s : Setting} (h : Unique a e)
    (hs : FreshName a e (.record i s)) : Unique a ((Effect.record i s).apply a.len e) := by
  intro j hj k hk hjk
  rcases nameOf_record_cases a e i s with hsame | ⟨name, rfl, hi⟩
  · have hname (j : Nat) : nameOf a ((Effect.record i s).apply a.len e) j = nameOf a e j := by
      by_cases hj : j = i
      · rw [hj, hsame]
      · exact nameOf_record_of_ne hj s
    rw [hname, hname] at hjk
    exact h j (mem_present_of_record hj) k (mem_present_of_record hk) hjk
  · by_cases hji : j = i <;> by_cases hki : k = i
    · rw [hji, hki]
    · rw [nameOf_record_of_ne hki, hji, hi] at hjk
      exact absurd hjk.symm (hs k (mem_present_of_record hk) hki)
    · rw [nameOf_record_of_ne hji, hki, hi] at hjk
      exact absurd hjk (hs j (mem_present_of_record hj) hji)
    · rw [nameOf_record_of_ne hji, nameOf_record_of_ne hki] at hjk
      exact h j (mem_present_of_record hj) k (mem_present_of_record hk) hjk

theorem Unique.add {a : Archive} {e : Edits} {entry : PendingAdd} (h : Unique a e)
    (hs : FreshName a e (.add entry)) : Unique a ((Effect.add entry).apply a.len e) := by
  have hpresent {j : Nat} (hj : j ∈ present a.len ((Effect.add entry).apply a.len e)) :
      j ∈ present a.len e ∨ j = a.len + e.adds.length := by
    rw [mem_present, Effect.adds_add, List.length_append] at hj
    rcases hj with hj | ⟨hn, hj⟩
    · exact .inl (mem_present.mpr (.inl hj))
    · by_cases hlast : j = a.len + e.adds.length
      · exact .inr hlast
      · exact .inl (mem_present.mpr (.inr ⟨hn, by simp only [List.length_singleton] at hj; omega⟩))
  have hname {j : Nat} (hj : j ∈ present a.len e) :
      nameOf a ((Effect.add entry).apply a.len e) j = nameOf a e j := by
    rw [nameOf, nameOf]
    split
    · rfl
    · rename_i hn
      rcases mem_present.mp hj with ⟨hlt, -⟩ | ⟨-, hj⟩
      · exact absurd hlt hn
      · rw [Effect.adds_add, List.getElem?_append_left (by omega)]
  have hnew : nameOf a ((Effect.add entry).apply a.len e) (a.len + e.adds.length) = entry.name := by
    rw [nameOf, if_neg (by omega), Nat.add_sub_cancel_left, Effect.adds_add,
      List.getElem?_concat_length]
    rfl
  intro j hj k hk hjk
  rcases hpresent hj with hj | rfl <;> rcases hpresent hk with hk | rfl
  · rw [hname hj, hname hk] at hjk
    exact h j hj k hk hjk
  · rw [hname hj, hnew] at hjk
    exact absurd hjk (hs j hj)
  · rw [hname hk, hnew] at hjk
    exact absurd hjk.symm (hs k hk)
  · rfl

/-- Every step that takes no edits back and gives no entry the name of another keeps the names
unique. -/
theorem unique_step {a : Archive} (e : Edits) (x : Effect) (h : Unique a e)
    (hx : ((∀ i, x ≠ .unchange i) ∧ x ≠ .clear) ∧ FreshName a e x) : Unique a (x.apply a.len e) := by
  cases x with
  | keep => exact h
  | record i s => exact h.record hx.2
  | add entry => exact h.add hx.2
  | unchange i => exact absurd rfl (hx.1.1 i)
  | clear => exact absurd rfl hx.1.2

/-! ## One call -/

section
variable (z : Zip) (name : Option Bytes) (source : Option ZipSource) (flags : UInt32)

/-- An add that is refused before its name is looked at is refused under any name. -/
theorem fileAdd_refused (h : ¬ (z.readOnly = false ∧ (source.bind fun s => s.takeData.1).isSome = true)) :
    (z.fileAdd name source flags).1 = -1 := by
  cases hro : z.readOnly with
  | true => simp only [Zip.fileAdd, hro, ↓reduceIte]
  | false =>
    simp only [Zip.fileAdd, hro, Bool.false_eq_true, ↓reduceIte]
    cases source with
    | none => cases cStr name <;> rfl
    | some src =>
      obtain ⟨data, src', hdata⟩ : ∃ data src', src.takeData = (data, src') := ⟨_, _, rfl⟩
      cases data with
      | none =>
        cases cStr name with
        | none => rfl
        | some text => simp only [hdata]
      | some data => exact absurd ⟨hro, by simp only [Option.bind_some, hdata, Option.isSome_some]⟩ h

theorem fileAdd_unnamed (h : cStr name = none) : (z.fileAdd name source flags).1 = -1 := by
  simp only [Zip.fileAdd, h]
  split <;> rfl

/-- An add whose name is looked at. -/
theorem fileAdd_asked {text : Str} (h : (ZipCall.fileAdd name source flags).asked z = some text) :
    cStr name = some text ∧
    (z.archive.nameLocate text = none → (ZipCall.fileAdd name source flags).run X z = ((z.total : Int),
      { z with pending.adds := z.pending.adds ++ [{ name := text, data := sourceArg source }] })) ∧
    ∀ i, z.archive.nameLocate text = some i →
      (ZipCall.fileAdd name source flags).run X z =
        if flags &&& zipFlOverwrite ≠ 0 then
          ((i : Int), { z with pending.replaces := pushAt z.pending.replaces i (sourceArg source) })
        else (-1, z.setErr .exists) := by
  simp only [ZipCall.asked, Option.ite_none_right_eq_some] at h
  obtain ⟨⟨hro, hsource⟩, hname⟩ := h
  refine ⟨hname, ?_⟩
  cases source with
  | none => cases hsource
  | some src =>
    obtain ⟨data, src', hdata⟩ : ∃ data src', src.takeData = (data, src') := ⟨_, _, rfl⟩
    cases data with
    | none =>
      rw [Option.bind_some, hdata] at hsource
      cases hsource
    | some data =>
      have harg : sourceArg (some src) = data := by
        rw [sourceArg, Option.bind_some, hdata]
        rfl
      refine ⟨fun hloc => ?_, fun i hloc => ?_⟩
      · simp only [ZipCall.run, Zip.fileAdd, hro, Bool.false_eq_true, ↓reduceIte, hname, hdata, hloc, harg]
      · simp only [ZipCall.run, Zip.fileAdd, hro, Bool.false_eq_true, ↓reduceIte, hname, hdata, hloc, harg]
        split <;> rfl

end

/-- A call that is asked for a name. -/
theorem keepsApart_asked {z : Zip} {c : ZipCall} {text : Str} (h : c.asked z = some text) :
    KeepsApart z c ↔ ∀ j ∈ present z.archive.len (editsOf z.pending),
      nameOf z.archive (editsOf z.pending) j = text → MayName z text j c := by
  rw [KeepsApart, h]
  simp only [Option.mem_def, Option.some.injEq, forall_eq']

section
variable {z : Zip} {name : Option Bytes} {source : Option ZipSource} {flags : UInt32} {j : Nat}

/-- An add that gives an entry of its own is not refused, and replaces nothing. -/
theorem not_settled_added {z' : Zip} (hj : j ∈ present z.archive.len (editsOf z.pending))
    (hrun : (ZipCall.fileAdd name source flags).run X z = ((z.total : Int), z')) :
    ¬ (CallRefused X z (.fileAdd name source flags) ∨ Replaces X z (.fileAdd name source flags) j) := by
  have hlt : j < z.total := by
    rcases mem_present.mp hj with ⟨hlt, -⟩ | ⟨-, hlt⟩
    · exact Nat.lt_add_right _ hlt
    · exact hlt
  rintro (⟨hr, -⟩ | ⟨_, _, _, -, -, hr, -⟩)
  · rw [hrun] at hr
    exact absurd (show (z.total : Int) = -1 from hr) (by omega)
  · rw [hrun] at hr
    exact absurd (show (z.total : Int) = j from hr) (by omega)

/-- An add that overwrites the entry at `i` replaces it when no other content is pending for it. -/
theorem settled_overwrites_iff {i : Nat} (hi : i < z.archive.len)
    (hj : j ∈ present z.archive.len (editsOf z.pending)) (hflags : flags &&& zipFlOverwrite ≠ 0)
    (hrun : (ZipCall.fileAdd name source flags).run X z =
      ((i : Int), { z with pending.replaces := pushAt z.pending.replaces i (sourceArg source) })) :
    (CallRefused X z (.fileAdd name source flags) ∨ Replaces X z (.fileAdd name source flags) j) ↔
      i = j ∧ ∀ first ∈ ((editsOf z.pending).ops i).replaces.head?, first = sourceArg source := by
  have hedits := editsOf_replace z.archive.len z.pending i (sourceArg source)
  constructor
  · rintro (⟨hr, -⟩ | ⟨_, _, _, hcall, -, hr, -, -, hcontents⟩)
    · rw [hrun] at hr
      exact absurd (show (i : Int) = -1 from hr) (by omega)
    · cases hcall
      rw [hrun] at hr hcontents
      obtain rfl : i = j := Int.ofNat.inj hr
      dsimp only at hcontents
      rw [hedits] at hcontents
      exact ⟨rfl, (contents_replace_iff hi _).mp hcontents⟩
  · rintro ⟨rfl, hfirst⟩
    refine .inr ⟨name, source, flags, rfl, hflags, congrArg Prod.fst hrun, ?_, ?_, ?_⟩ <;> rw [hrun] <;>
      dsimp only <;> rw [hedits]
    · rwa [present_replace]
    · exact nameOf_replace _ i
    · exact (contents_replace_iff hi _).mpr hfirst

end

theorem settlesName_fileAdd (z : Zip) (name : Option Bytes) (source : Option ZipSource) (flags : UInt32) :
    SettlesName X z (.fileAdd name source flags) ↔ KeepsApart z (.fileAdd name source flags) := by
  cases hask : (ZipCall.fileAdd name source flags).asked z with
  | none =>
    refine iff_of_true (fun j _ _ hgiven => .inl ?_) fun text htext => ?_
    · have hname : cStr name = some (nameOf z.archive (editsOf z.pending) j) := hgiven
      simp only [ZipCall.asked, hname, ite_eq_right_iff, reduceCtorEq, imp_false] at hask
      exact ⟨fileAdd_refused z name source flags hask, .inr fun other => fileAdd_refused z other source flags hask⟩
    · rw [hask] at htext
      cases htext
  | some text =>
    obtain ⟨hname, hadds, hlocated⟩ := fileAdd_asked (X := X) z name source flags hask
    rw [keepsApart_asked hask]
    refine forall₂_congr fun j hj => ?_
    rw [imp_iff_right (show (ZipCall.fileAdd name source flags).renamed ≠ some j from (Option.some_ne_none j).symm),
      show (ZipCall.fileAdd name source flags).givenName = some text from hname, Option.some.injEq,
      eq_comm (a := text)]
    refine imp_congr_right fun _ => ?_
    cases hloc : z.archive.nameLocate text with
    | none =>
      refine iff_of_false (not_settled_added hj (hadds hloc)) fun ⟨i, hi, _⟩ => ?_
      cases hloc.symm.trans hi
    | some i =>
      have hrun := hlocated i hloc
      by_cases hflags : flags &&& zipFlOverwrite = 0
      · rw [if_neg (not_not.mpr hflags)] at hrun
        refine iff_of_true (.inl ⟨congrArg Prod.fst hrun, .inl ?_⟩) ⟨i, hloc, .inl hflags⟩
        rw [hrun]
        rfl
      · rw [if_pos hflags] at hrun
        rw [settled_overwrites_iff (nameLocate_lt hloc) hj hflags hrun]
        constructor
        · intro h
          exact ⟨i, hloc, .inr h⟩
        · rintro ⟨i', hi', h⟩
          cases hloc.symm.trans hi'
          exact h.resolve_left hflags

theorem settlesName_dirAdd (z : Zip) (name : Option Bytes) :
    SettlesName X z (.dirAdd name) ↔ KeepsApart z (.dirAdd name) := by
  cases hro : z.readOnly with
  | true =>
    have hall (other : Option Bytes) : (z.dirAdd other).1 = -1 := by simp [Zip.dirAdd, hro, Zip.fail]
    refine iff_of_true (fun j _ _ _ => .inl ⟨hall name, .inr hall⟩) fun text htext => ?_
    simp [ZipCall.asked, hro] at htext
  | false =>
    cases hname : cStr name with
    | none =>
      refine iff_of_true (fun j _ _ hgiven => ?_) fun text htext => ?_
      · simp [ZipCall.givenName, hname] at hgiven
      · simp [ZipCall.asked, hro, hname] at htext
    | some text =>
      have hask : (ZipCall.dirAdd name).asked z = some (dirName text) := by simp [ZipCall.asked, hro, hname]
      have hgiven : (ZipCall.dirAdd name).givenName = some (dirName text) := by simp [ZipCall.givenName, hname]
      rw [keepsApart_asked hask]
      refine forall₂_congr fun j hj => ?_
      rw [imp_iff_right (show (ZipCall.dirAdd name).renamed ≠ some j from (Option.some_ne_none j).symm), hgiven,
        Option.some.injEq, eq_comm]
      refine imp_congr_right fun _ => ?_
      have hnot : ¬ Replaces X z (.dirAdd name) j := by
        rintro ⟨_, _, _, hcall, -⟩
        cases hcall
      rw [or_iff_left hnot]
      show _ ↔ (z.archive.nameLocate (dirName text)).isSome = true
      by_cases hloc : (z.archive.nameLocate (dirName text)).isSome = true
      · have hrun : (ZipCall.dirAdd name).run X z = z.fail .exists := by
          simp [ZipCall.run, Zip.dirAdd, hro, hname, hloc]
        refine iff_of_true ⟨congrArg Prod.fst hrun, .inl ?_⟩ hloc
        rw [hrun]
        rfl
      · have hrun : ((ZipCall.dirAdd name).run X z).1 = z.total := by
          simp [ZipCall.run, Zip.dirAdd, hro, hname, hloc]
        refine iff_of_false (fun h => ?_) hloc
        have hr := hrun.symm.trans h.1
        omega

theorem rename_refused {z : Zip} {index : Nat} (name : Option Bytes)
    (h : ¬ (z.readOnly = false ∧ index < z.archive.len)) : (z.rename index name).1 = -1 := by
  cases hro : z.readOnly with
  | true => cases hname : cStr name <;> simp [Zip.rename, hname, Zip.edit, hro, Zip.fail]
  | false =>
    have hlt : ¬ index < z.archive.len := fun hlt => h ⟨hro, hlt⟩
    cases hname : cStr name <;> simp [Zip.rename, hname, Zip.edit, hro, checks, hlt, Zip.fail]

theorem settlesName_rename (z : Zip) (index : Nat) (name : Option Bytes) :
    SettlesName X z (.rename index name) ↔ KeepsApart z (.rename index name) := by
  by_cases hcheck : z.readOnly = false ∧ index < z.archive.len
  · cases hname : cStr name with
    | none =>
      refine iff_of_true (fun j _ _ hgiven => ?_) fun text htext => ?_
      · simp [ZipCall.givenName, hname] at hgiven
      · simp [ZipCall.asked, hname] at htext
    | some text =>
      have hask : (ZipCall.rename index name).asked z = some text := by simp [ZipCall.asked, hcheck, hname]
      rw [keepsApart_asked hask]
      refine forall₂_congr fun j hj => ?_
      have hrun : ((ZipCall.rename index name).run X z).1 = 0 := by
        simp [ZipCall.run, Zip.rename, hname, Zip.edit, checks, hcheck]
      have hnot : ¬ (CallRefused X z (.rename index name) ∨ Replaces X z (.rename index name) j) := by
        rintro (⟨hr, -⟩ | ⟨_, _, _, hcall, -⟩)
        · exact absurd (hrun.symm.trans hr) (by decide)
        · cases hcall
      rw [show (ZipCall.rename index name).givenName = some text from hname, Option.some.injEq, eq_comm (a := text)]
      constructor
      · intro h htext
        by_contra hne
        exact hnot (h (fun heq => hne (Option.some.inj heq)) htext)
      · intro h hne htext
        exact absurd (congrArg some (h htext)) hne
  · refine iff_of_true (fun j _ _ _ => .inl ⟨rename_refused name hcheck, .inr fun other =>
      rename_refused other hcheck⟩) fun text htext => ?_
    simp [ZipCall.asked, hcheck] at htext

/-- A call settles what becomes of its name exactly if it keeps the names apart. -/
theorem settlesName_iff (z : Zip) (c : ZipCall) : SettlesName X z c ↔ KeepsApart z c := by
  cases c with
  | fileAdd name source flags => exact settlesName_fileAdd z name source flags
  | dirAdd name => exact settlesName_dirAdd z name
  | rename index name => exact settlesName_rename z index name
  | _ =>
    refine iff_of_true (fun j _ _ hgiven => ?_) fun text htext => ?_
    · cases hgiven
    · cases htext

/-- The name of a call that succeeds is one that it was asked for. -/
theorem asked_of_accepted {z : Zip} {c : ZipCall} {text : Str} (hr : (c.run X z).1 ≠ -1)
    (h : c.givenName = some text) : c.asked z = some text := by
  cases c with
  | fileAdd name source flags =>
    refine (if_pos ?_).trans h
    by_contra hnot
    exact hr (fileAdd_refused z name source flags hnot)
  | dirAdd name =>
    refine (if_pos ?_).trans h
    by_contra hnot
    exact hr (by simp [ZipCall.run, Zip.dirAdd, hnot, Zip.fail])
  | rename index name =>
    refine (if_pos ?_).trans h
    by_contra hnot
    exact hr (rename_refused name hnot)
  | _ => cases h

theorem nameArg_of_some {name : Option Bytes} {text : Str} (h : cStr name = some text) : nameArg name = text := by
  rw [nameArg, h]
  rfl

/-- A call that succeeds and keeps the names apart gives a name that no other entry has. -/
theorem freshName_of_keepsApart {z : Zip} {c : ZipCall} (hr : (c.run X z).1 ≠ -1) (hk : KeepsApart z c) :
    FreshName z.archive (editsOf z.pending) (c.effect z.archive) := by
  cases c with
  | fileAdd name source flags =>
    cases hname : cStr name with
    | none => exact absurd (fileAdd_unnamed z name source flags hname) hr
    | some text =>
      rw [ZipCall.effect, nameArg_of_some hname]
      cases hloc : z.archive.nameLocate text with
      | some i => trivial
      | none =>
        intro j hj heq
        obtain ⟨i, hi, -⟩ := hk text (asked_of_accepted hr hname) j hj heq
        cases hloc.symm.trans hi
  | dirAdd name =>
    cases hname : cStr name with
    | none =>
      refine absurd ?_ hr
      simp only [ZipCall.run, Zip.dirAdd, hname, Zip.fail]
      split <;> rfl
    | some text =>
      rw [ZipCall.effect, nameArg_of_some hname]
      intro j hj heq
      have hloc : (z.archive.nameLocate (dirName text)).isSome = true :=
        hk (dirName text) (asked_of_accepted hr (congrArg (Option.map dirName) hname)) j hj heq
      refine absurd ?_ hr
      simp only [ZipCall.run, Zip.dirAdd, hname, hloc, Zip.fail, ↓reduceIte]
      split <;> rfl
  | rename index name =>
    cases hname : cStr name with
    | none =>
      refine absurd ?_ hr
      simp only [ZipCall.run, Zip.rename, hname, Zip.edit, Zip.fail]
      split <;> rfl
    | some text =>
      rw [ZipCall.effect, nameArg_of_some hname]
      intro j hj hne heq
      exact hne (hk text (asked_of_accepted hr hname) j hj heq).symm
  | _ => trivial

theorem effect_not_unchange {a : Archive} {c : ZipCall} (h : c.isUnchange = false) :
    (∀ i, c.effect a ≠ .unchange i) ∧ c.effect a ≠ .clear := by
  cases c with
  | fileAdd name source flags =>
    simp only [ZipCall.effect]
    split <;> simp
  | unchange i => cases h
  | unchangeAll => cases h
  | _ => simp [ZipCall.effect]

theorem Unique.grown {a b : Archive} (hgrown : a.Grown b) {e : Edits} (h : Unique a e) : Unique b e := by
  intro i hi j hj hij
  rw [hgrown.len] at hi hj
  rw [nameOf_grown hgrown, nameOf_grown hgrown] at hij
  exact h i hi j hj hij

/-- A call that takes no edits back and keeps the names apart keeps them unique. -/
theorem unique_call {z : Zip} {c : ZipCall} (h : Unique z.archive (editsOf z.pending))
    (hc : c.isUnchange = false ∧ KeepsApart z c) :
    Unique (c.run X z).2.archive (editsOf (c.run X z).2.pending) := by
  refine Unique.grown (grown_call X z c) ?_
  rcases run_cases X z c with ⟨-, hsame⟩ | ⟨hr, -, heffect⟩
  · rwa [hsame]
  · rw [heffect]
    exact unique_step _ _ h ⟨effect_not_unchange hc.1, freshName_of_keepsApart hr hc.2⟩

/-! ## Runs -/

/-- The names of the entries that are written are those of the entries that are present. -/
theorem closes_names {src : Source} {a : Archive} (hopen : Archive.open src = .ok a) {flags : Int32}
    {calls : List ZipCall} {sched : Nat → Schedule} {plan : List (ArchiveFile × UInt16)} {out : Vec}
    (h : Closes X sched (runAll X calls (makeZip a flags)) plan out) :
    plan.map (fun f : ArchiveFile × UInt16 => f.1.name) =
      (present a.len (editsOf (runAll X calls (makeZip a flags)).pending)).map
        (nameOf (runAll X calls (makeZip a flags)).archive
          (editsOf (runAll X calls (makeZip a flags)).pending)) := by
  rw [← List.forall₂_eq_eq_eq, List.forall₂_map_left_iff, List.forall₂_map_right_iff]
  refine (closes_entries hopen h).flip.imp fun f i hf => ?_
  obtain ⟨data, -, rfl⟩ := hf
  rfl

/-- An archive that shows the files of a plan has their names. -/
theorem showsFile_names {b : Archive} {password : Bytes} {plan : List (ArchiveFile × UInt16)}
    (hlen : b.entries.length = plan.length) (hshows : ∀ k f, plan[k]? = some f → ShowsFile X b password k f) :
    b.entries.map (·.filename) = plan.map fun f : ArchiveFile × UInt16 => f.1.name := by
  refine List.ext_getElem? fun k => ?_
  rw [List.getElem?_map, List.getElem?_map]
  cases hf : plan[k]? with
  | none => rw [List.getElem?_eq_none (hlen ▸ List.getElem?_eq_none_iff.mp hf)]; rfl
  | some f =>
    obtain ⟨d, hd, hshow⟩ := (hshows k f hf).entry
    rw [hd]
    exact congrArg some hshow.filename

/-- When the original names are distinct, no edits are taken back, the close succeeds and a reader can find what
it writes: the archive is opened again with distinct names, and every call of the run settled what became of its
name, exactly if the entries are accepted and every call kept the names apart. -/
theorem materialize_names_iff {X : Extern} (hX : InvertsDeflate X) {src : Source} {a : Archive}
    (hopen : Archive.open src = .ok a) (flags : Int32)
    (hnames : (a.entries.map (·.filename)).Nodup) (calls : List ZipCall)
    (hcalls : ∀ c ∈ calls, c.isUnchange = false) (sched : Nat → Schedule)
    {plan : List (ArchiveFile × UInt16)} (hplan : (runAll X calls (makeZip a flags)).plan X sched = .ok plan)
    {out : Vec} (h : (runAll X calls (makeZip a flags)).materialize X sched = .ok out) {kind : SourceKind}
    (hfind : Findable X kind (runAll X calls (makeZip a flags)) plan) :
    ((∃ b, Archive.open { kind, bytes := out.val } = .ok b ∧ (b.entries.map (·.filename)).Nodup) ∧
      Along (fun z c => (ZipCall.run X z c).2) (SettlesName X) (makeZip a flags) calls) ↔
    AcceptsPlan X (runAll X calls (makeZip a flags)) plan ∧
      Along (fun z c => (ZipCall.run X z c).2) KeepsApart (makeZip a flags) calls := by
  have hcloses := closes_of_plan hplan h
  obtain ⟨hopens, hshows⟩ := closes_opened hX hcloses hfind
  rw [← hopens, along_congr (I := fun _ => True) (fun _ _ _ => trivial) (fun z c _ => settlesName_iff z c) trivial]
  refine ⟨fun ⟨⟨b, hb, _⟩, hapart⟩ => ⟨⟨b, hb⟩, hapart⟩, fun ⟨⟨b, hb⟩, hapart⟩ => ⟨⟨b, hb, ?_⟩, hapart⟩⟩
  have hsteps : Along (fun z c => (ZipCall.run X z c).2) (fun z c => c.isUnchange = false ∧ KeepsApart z c)
      (makeZip a flags) calls := (Along.of_forall hcalls).and hapart
  have hunique : Unique (runAll X calls (makeZip a flags)).archive
      (editsOf (runAll X calls (makeZip a flags)).pending) :=
    hsteps.invariant (I := fun z => Unique z.archive (editsOf z.pending)) (fun _ _ => unique_call)
      (unique_open hnames)
  obtain ⟨hlen, hshows⟩ := hshows b hb
  have hgrown : a.Grown (runAll X calls (makeZip a flags)).archive := grown_runAll X calls (makeZip a flags)
  rw [showsFile_names hlen hshows, closes_names hopen hcloses, ← hgrown.len]
  exact List.Nodup.map_on (fun i hi j hj hij => hunique i hi j hj hij) (nodup_present _ _)

/-- The only entry is renamed, a file is added under another name, and a second one is refused. -/
def nameCalls : List ZipCall :=
  [.rename 0 (some [0x63]), .fileAdd (some [0x62]) (some (.memory (oneByte 0x6A))) 0,
    .fileAdd (some [0x61]) (some (.memory (oneByte 0x6A))) 0]

theorem materialize_names_sample : ∃ a plan out,
    Archive.open { kind := .vec, bytes := sampleArchive } = .ok a ∧
    (runAll reference nameCalls (makeZip a 0)).materialize reference (fun _ => bytewise) = .ok out ∧
    (((∃ b, Archive.open { kind := .mmap, bytes := out.val } = .ok b ∧ (b.entries.map (·.filename)).Nodup) ∧
      Along (fun z c => (ZipCall.run reference z c).2) (SettlesName reference) (makeZip a 0) nameCalls) ↔
    AcceptsPlan reference (runAll reference nameCalls (makeZip a 0)) plan ∧
      Along (fun z c => (ZipCall.run reference z c).2) KeepsApart (makeZip a 0) nameCalls) := by
  obtain ⟨a, ha, hp⟩ := exists_ok (x := Archive.open { kind := .vec, bytes := sampleArchive })
    (p := fun a : Archive => ((runAll reference nameCalls (makeZip a 0)).materialize reference
      fun _ => bytewise).toOption.any fun _ : Vec => ((runAll reference nameCalls (makeZip a 0)).plan reference
        fun _ => bytewise).toOption.any fun plan : List (ArchiveFile × UInt16) =>
          decide ((a.entries.map fun d : Dirent => d.filename).Nodup ∧
            ∀ f ∈ plan, (asBytes f.1.name).length ≤ 0xFFFF) &&
            shortTail reference (runAll reference nameCalls (makeZip a 0)) plan) (by decide +kernel)
  obtain ⟨out, hout, hp⟩ := exists_ok hp
  obtain ⟨plan, hplan, hp⟩ := exists_ok hp
  obtain ⟨hfiles, htail⟩ := Bool.and_eq_true_iff.mp hp
  obtain ⟨hnames, hfit⟩ := of_decide_eq_true hfiles
  exact ⟨a, plan, out, ha, hout, materialize_names_iff (fun _ _ _ => reference_inflate_deflate) ha 0 hnames nameCalls
    (by decide) _ hplan hout (findable_of_shortTail hfit htail)⟩

/-- Two files are added under one name. -/
def sameNameCalls : List ZipCall :=
  [.fileAdd (some [0x62]) (some (.memory (oneByte 0x6A))) 0,
    .fileAdd (some [0x62]) (some (.memory (oneByte 0x6B))) 0]

/-- An archive of one entry is written with two more that share a name. -/
theorem materialize_same_names : ∃ a out b,
    Archive.open { kind := .vec, bytes := sampleArchive } = .ok a ∧
    (a.entries.map (·.filename)).Nodup ∧
    (runAll reference sameNameCalls (makeZip a 0)).materialize reference (fun _ => bytewise) = .ok out ∧
    Archive.open { kind := .vec, bytes := out.val } = .ok b ∧
    ¬ (b.entries.map (·.filename)).Nodup := by
  obtain ⟨a, ha, hp⟩ := exists_ok (x := Archive.open { kind := .vec, bytes := sampleArchive })
    (p := fun a : Archive => ((runAll reference sameNameCalls (makeZip a 0)).materialize reference
      fun _ => bytewise).toOption.any fun out : Vec =>
        (Archive.open { kind := .vec, bytes := out.val }).toOption.any fun b : Archive => decide (
          (a.entries.map fun d : Dirent => d.filename).Nodup ∧
          ¬ (b.entries.map fun d : Dirent => d.filename).Nodup)) (by decide +kernel)
  obtain ⟨out, hout, hp⟩ := exists_ok hp
  obtain ⟨b, hb, hp⟩ := exists_ok hp
  obtain ⟨hnames, hsame⟩ := of_decide_eq_true hp
  exact ⟨a, out, b, ha, hnames, hout, hb, hsame⟩

end Kzip.Impl
