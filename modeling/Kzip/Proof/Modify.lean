import Kzip.Impl.Modify
import Kzip.Impl.Reference
import Kzip.Proof.Directory

/-!
# Modifying an archive

`modified_entries`: renaming and deleting one by one leaves the survivors. `modifyArchive_ok` gives
the bytes of the result, and `modifyArchive_readable_iff` says when they can be read.
-/

namespace Kzip.Impl

open Lib Lib.LE Lib.Utf8 Kzip.Spec

/-! ## The entries -/

theorem applyRenames_eq (renames : List (UInt64 × Str)) (entries : List Dirent) :
    applyRenames renames entries = entries.mapIdx (renamed renames) := by
  refine List.ext_getElem? fun i => ?_
  have h := getElem?_foldl_modify (fun (name : Str) (d : Dirent) => { d with filename := name })
    (fun _ _ _ => rfl) (renames.map fun r => (r.1.toNat, r.2)) entries i
  rw [List.foldl_map] at h
  rw [applyRenames, h, List.getElem?_mapIdx]
  rfl

theorem applyDeletes_eq (deletes : List UInt64) (entries : List Dirent) :
    applyDeletes deletes entries = keepIdx (deletes.map UInt64.toNat) entries := by
  have hsorted : ((Lib.dedup (deletes.insertionSort (· ≤ ·))).map UInt64.toNat).Pairwise (· < ·) := by
    rw [List.pairwise_map]
    refine dedup_sorted (· ≤ ·) _ (fun a b c hab hbc => ?_) (fun a b hab hne => ?_)
      (List.pairwise_insertionSort (· ≤ ·) deletes)
    · exact Nat.lt_of_lt_of_le hab (UInt64.le_iff_toNat_le.mp hbc)
    · exact Nat.lt_of_le_of_ne (UInt64.le_iff_toNat_le.mp hab) fun h => hne (UInt64.toNat_inj.mp h)
  have hfold := foldr_eraseIdx hsorted entries
  rw [List.foldr_map] at hfold
  rw [applyDeletes, List.foldl_reverse, hfold]
  refine keepIdx_congr fun i => ?_
  simp only [List.mem_map, mem_dedup, List.mem_insertionSort]

/-- Renaming and then deleting leaves the survivors. -/
theorem modified_entries (renames : List (UInt64 × Str)) (deletes : List UInt64)
    (entries : List Dirent) :
    applyDeletes deletes (applyRenames renames entries) = survivors renames deletes entries := by
  rw [applyDeletes_eq, applyRenames_eq, survivors]

theorem renamed_cases (renames : List (UInt64 × Str)) (i : Nat) (d : Dirent) :
    ∃ name, renamed renames i d = { d with filename := name } := by
  unfold renamed
  cases lastAt (renames.map fun r => (r.1.toNat, r.2)) i with
  | none => exact ⟨d.filename, rfl⟩
  | some name => exact ⟨name, rfl⟩

/-- A survivor is an entry with a name of its own. -/
theorem mem_survivors {renames : List (UInt64 × Str)} {deletes : List UInt64}
    {entries : List Dirent} {d : Dirent} (h : d ∈ survivors renames deletes entries) :
    ∃ d₀ ∈ entries, ∃ name, d = { d₀ with filename := name } := by
  obtain ⟨i, hi, rfl⟩ := List.mem_mapIdx.mp ((keepIdx_sublist _ _).mem h)
  obtain ⟨name, hname⟩ := renamed_cases renames i entries[i]
  exact ⟨entries[i], List.getElem_mem hi, name, hname⟩

theorem survivors_parsed {renames : List (UInt64 × Str)} {deletes : List UInt64}
    {entries : List Dirent} (h : ∀ d ∈ entries, d.Parsed) :
    ∀ d ∈ survivors renames deletes entries, d.Parsed := by
  intro d hd
  obtain ⟨d₀, hd₀, name, rfl⟩ := mem_survivors hd
  exact (h d₀ hd₀).rename name

/-! ## The result -/

/-- The result of a modification: the bytes before the directory, then the survivors serialized. -/
theorem modifyArchive_ok {X : Extern} {bytes : Bytes} {renames : List (UInt64 × Str)}
    {deletes : List UInt64} {cd : CentralDir} {out : Vec}
    (hread : readCentralDir { kind := .vec, bytes } = .ok cd)
    (h : modifyArchive X bytes renames deletes = .ok out) :
    cd.cdirOffset.toNat ≤ bytes.length ∧ ∃ s, (modified renames deletes cd).serialize X = .ok s ∧
      out.val = bytes.take cd.cdirOffset.toNat ++ s := by
  obtain ⟨cd', hcd, h⟩ := bind_ok.mp h
  cases hread.symm.trans hcd
  obtain ⟨hbounds, h⟩ := guard_ok.mp h
  obtain ⟨s, hs, h⟩ := bind_ok.mp h
  rw [modified_entries] at hs
  exact ⟨by omega, s, hs, Vec.ofBytes_ok.mp h⟩

/-- Where the end record of the result is the one a reader uses, the result opens with exactly the
surviving entries, each the same but for a ZIP64 field that is regenerated, if and only if the directory is not
too large and every survivor is readable. -/
theorem modifyArchive_readable_iff {X : Extern} {kind : SourceKind} {bytes : Bytes}
    {renames : List (UInt64 × Str)} {deletes : List UInt64} {cd : CentralDir} {out : Vec}
    (hread : readCentralDir { kind := .vec, bytes } = .ok cd)
    (hout : modifyArchive X bytes renames deletes = .ok out)
    (hsafe : (modified renames deletes cd).TailSafe kind (bytes.take cd.cdirOffset.toNat)) :
    (∃ cd', readCentralDir { kind, bytes := out.val } = .ok cd' ∧
        List.Forall₂ SameEntry (survivors renames deletes cd.entries) cd'.entries) ↔
      (directoryBytes (survivors renames deletes cd.entries)).length ≤ 2 ^ 30 ∧
        ∀ d ∈ survivors renames deletes cd.entries, d.Readable := by
  obtain ⟨hle, s, hs, hval⟩ := modifyArchive_ok hread hout
  have hpre : (bytes.take cd.cdirOffset.toNat).length = cd.cdirOffset.toNat :=
    List.length_take_of_le hle
  have hlen : (bytes.take cd.cdirOffset.toNat ++ s).length < 2 ^ 63 := hval ▸ out.property
  rw [hval]
  exact readCentralDir_serialized hs hpre hlen (survivors_parsed (readCentralDir_parsed hread)) hsafe

/-- Renaming the entry of the sample archive to `b`. -/
theorem modifyArchive_readable_sample : ∃ cd out,
    readCentralDir { kind := .vec, bytes := sampleArchive } = .ok cd ∧
    modifyArchive reference sampleArchive [(0, ['b'])] [] = .ok out ∧
    ((∃ cd', readCentralDir { kind := .vec, bytes := out.val } = .ok cd' ∧
        List.Forall₂ SameEntry (survivors [(0, ['b'])] [] cd.entries) cd'.entries) ↔
      (directoryBytes (survivors [(0, ['b'])] [] cd.entries)).length ≤ 2 ^ 30 ∧
        ∀ d ∈ survivors [(0, ['b'])] [] cd.entries, d.Readable) := by
  obtain ⟨cd, hcd, hp⟩ := exists_ok (x := readCentralDir { kind := .vec, bytes := sampleArchive })
    (p := fun cd => cd.comment == [] &&
      (locatorBefore (sampleArchive.take cd.cdirOffset.toNat ++
        directoryBytes (modified [(0, ['b'])] [] cd).entries)
        (sampleArchive.take cd.cdirOffset.toNat ++
          directoryBytes (modified [(0, ['b'])] [] cd).entries).length).isNone) (by decide +kernel)
  obtain ⟨out, hout, -⟩ := exists_ok (x := modifyArchive reference sampleArchive [(0, ['b'])] [])
    (p := fun _ => true) (by decide +kernel)
  rw [Bool.and_eq_true, beq_iff_eq, Option.isNone_iff_eq_none] at hp
  refine ⟨cd, out, hcd, hout, modifyArchive_readable_iff hcd hout ?_⟩
  have hc : asBytes (modified [(0, ['b'])] [] cd).comment = [] := by
    rw [show (modified [(0, ['b'])] [] cd).comment = cd.comment from rfl, hp.1]; rfl
  rw [CentralDir.TailSafe, hc]
  exact .of_no_comment fun _ => hp.2

/-- Renaming the entry of the sample archive to `../x` succeeds, but the result is refused. -/
theorem modifyArchive_unreadable : ∃ cd out,
    readCentralDir { kind := .vec, bytes := sampleArchive } = .ok cd ∧
    modifyArchive reference sampleArchive [(0, ['.', '.', '/', 'x'])] [] = .ok out ∧
    ¬ ∃ cd', readCentralDir { kind := .vec, bytes := out.val } = .ok cd' := by
  obtain ⟨cd, hcd, -⟩ := exists_ok (x := readCentralDir { kind := .vec, bytes := sampleArchive })
    (p := fun _ => true) (by decide +kernel)
  obtain ⟨out, hout, hp⟩ := exists_ok
    (x := modifyArchive reference sampleArchive [(0, ['.', '.', '/', 'x'])] [])
    (p := fun out => (readCentralDir { kind := .vec, bytes := out.val }).toOption.isNone)
    (by decide +kernel)
  refine ⟨cd, out, hcd, hout, fun ⟨cd', h⟩ => ?_⟩
  rw [h] at hp
  cases hp

end Kzip.Impl
