import Kzip.Impl.Reference
import Kzip.Lib.Path
import Kzip.Proof.Archive
import Kzip.Proof.Dirent

/-!
# Where names lead

The guard of the parser keeps the entries of an archive below the directory that they are extracted to
(`names_stay_below`).
-/

namespace Kzip.Impl

open Lib Lib.Utf8 Kzip.Spec

theorem containsDotDot_iff {s : Str} : containsDotDot s = true ↔ ['.', '.'] <:+: s := by
  induction s with
  | nil => simp [containsDotDot]
  | cons c s ih =>
    rw [List.infix_cons_iff, ← ih, List.cons_prefix_cons]
    cases s with
    | nil => simp [containsDotDot]
    | cons b s =>
      rw [List.cons_prefix_cons]
      by_cases hc : c = '.' ∧ b = '.'
      · obtain ⟨rfl, rfl⟩ := hc
        simp [containsDotDot]
      · rw [containsDotDot]
        · simp only [List.nil_prefix, and_true]
          exact ⟨.inr, fun h => h.resolve_left fun hup => hc ⟨hup.1.symm, hup.2.symm⟩⟩
        · rintro t rfl ht
          exact hc ⟨rfl, (List.cons.inj ht).1⟩

/-- A name that passes the guard leads nowhere else, whether backslashes separate its parts or not. -/
theorem pathTraversal_walk {name : Str} (h : pathTraversal name = false) {sep : Char → Bool}
    (hsep : ∀ c, sep c = true → c = '/' ∨ c = '\\') (dir : List Str) {place : List Str}
    (hplace : place ∈ Path.walk sep '.' dir name) : dir <+: place := by
  simp only [pathTraversal, Bool.or_eq_false_iff, beq_eq_false_iff_ne] at h
  obtain ⟨⟨hdots, hslash⟩, hbackslash⟩ := h
  refine Path.walk_within dir ?_ (fun hin => ?_) hplace
  · cases hhead : name.head? with
    | none => rfl
    | some c =>
      rw [Option.any_some]
      refine Bool.eq_false_iff.mpr fun hc => ?_
      rcases hsep c hc with rfl | rfl
      · exact hslash hhead
      · exact hbackslash hhead
  · rw [containsDotDot_iff.mpr hin] at hdots
    cases hdots

theorem parseCentral_name {bs rest : Bytes} {d : Dirent} (h : Dirent.parseCentral bs = .ok (d, rest)) :
    pathTraversal d.filename = false := by
  obtain ⟨f, filename, extra, comment, -, -, hd⟩ := parseCentral_ok h
  obtain ⟨fields, v, -, -, hname, rfl⟩ := ofCentral_ok.mp hd
  exact hname

/-- Whatever archive was opened and however it was used: walked from a directory, the name of an entry passes
through no place outside of it. -/
theorem names_stay_below (X : Extern) {src : Source} {a : Archive} (hopen : Archive.open src = .ok a)
    (calls : List ArchiveCall) {sep : Char → Bool} (hsep : ∀ c, sep c = true → c = '/' ∨ c = '\\')
    (dir : List Str) : ∀ d ∈ (after X calls a).entries, ∀ place ∈ Path.walk sep '.' dir d.filename,
      dir <+: place := by
  intro d hd place hplace
  obtain ⟨cd, hcd, ha⟩ := bind_ok.mp hopen
  have hentries : a.entries = cd.entries := by
    cases ha
    rfl
  -- the calls change nothing of an entry but its cached offset
  have hread : uncached d ∈ cd.entries.map uncached := by
    rw [← hentries, ← (grown_after X calls a).entries]
    exact List.mem_map_of_mem hd
  obtain ⟨e, he, hsame⟩ := List.mem_map.mp hread
  obtain ⟨bs, rest, hparsed⟩ := readCentralDir_read hcd e he
  have hname : e.filename = d.filename := (congrArg Dirent.filename hsame :)
  exact pathTraversal_walk (hname ▸ parseCentral_name hparsed) hsep dir hplace

/-- The one name of the sample archive, from a home directory. -/
theorem names_stay_below_sample : ∃ a, Archive.open { kind := .vec, bytes := sampleArchive } = .ok a ∧
    ∀ d ∈ (after reference [.openEntry 0 none] a).entries,
      ∀ place ∈ Path.walk (fun c => decide (c = '/' ∨ c = '\\')) '.' [['h']] d.filename, [['h']] <+: place := by
  obtain ⟨a, ha, -⟩ := exists_ok (x := Archive.open { kind := .vec, bytes := sampleArchive })
    (p := fun _ => true) (by decide +kernel)
  exact ⟨a, ha, names_stay_below reference ha [.openEntry 0 none] (fun _ hc => of_decide_eq_true hc) [['h']]⟩

end Kzip.Impl
