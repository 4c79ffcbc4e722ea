import Mathlib.Data.List.Basic

/-!
# Resources that are freed once

A log of events, each about a resource, some of which free it. The resources are numbered as they are handed
over; some need not be freed. In a log in custody every resource that was to be freed was freed, but for the
current ones, and after it was freed there is no event about it (`Custody`). Handing a resource over, freeing
current ones, and events about resources that are not freed keep it.
-/

namespace Lib

variable {ε : Type} {freed : Nat → ε} {about : ε → Nat}

/-- `past` says which resources are to be freed, and `current` are those that were not freed yet. -/
structure Custody (freed : Nat → ε) (about : ε → Nat) (past : List Bool) (current : List Nat) (log : List ε) :
    Prop where
  owed : ∀ i ∈ current, past[i]? = some true
  nodup : current.Nodup
  exactly : ∀ i, freed i ∈ log ↔ past[i]? = some true ∧ i ∉ current
  final : log.Pairwise fun e e' => ∀ i, e = freed i → about e' ≠ i

namespace Custody

variable {past : List Bool} {current released kept : List Nat} {log : List ε}

theorem start : Custody freed about [] [] [] where
  owed := fun _ h => nomatch h
  nodup := .nil
  exactly := fun _ => iff_of_false List.not_mem_nil fun h => nomatch h.1
  final := .nil

/-- Resources are freed. -/
theorem release (habout : ∀ i, about (freed i) = i) (h : Custody freed about past (released ++ kept) log) :
    Custody freed about past kept (log ++ released.map freed) where
  owed := fun i hi => h.owed i (List.mem_append_right _ hi)
  nodup := (List.nodup_append.mp h.nodup).2.1
  exactly := fun i => by
    have hmem : freed i ∈ released.map freed ↔ i ∈ released := by
      refine ⟨fun hi => ?_, List.mem_map_of_mem⟩
      obtain ⟨j, hj, heq⟩ := List.mem_map.mp hi
      rwa [← habout i, ← heq, habout]
    rw [List.mem_append, h.exactly, hmem, List.mem_append, not_or]
    constructor
    · rintro (⟨hpast, -, hkept⟩ | hreleased)
      · exact ⟨hpast, hkept⟩
      · exact ⟨h.owed i (List.mem_append_left _ hreleased), fun hkept =>
          (List.nodup_append.mp h.nodup).2.2 i hreleased i hkept rfl⟩
    · rintro ⟨hpast, hkept⟩
      by_cases hreleased : i ∈ released
      · exact .inr hreleased
      · exact .inl ⟨hpast, hreleased, hkept⟩
  final := by
    refine List.pairwise_append.mpr ⟨h.final, ?_, ?_⟩
    · refine List.pairwise_map.mpr ((List.nodup_append.mp h.nodup).1.imp fun {j k} hne i heq => ?_)
      rw [habout, ← habout i, ← heq, habout]
      exact Ne.symm hne
    · rintro e he e' he' i rfl
      obtain ⟨j, hj, rfl⟩ := List.mem_map.mp he'
      rw [habout]
      rintro rfl
      exact ((h.exactly j).mp he).2 (List.mem_append_left _ hj)

/-- A resource is handed over. -/
theorem acquire (h : Custody freed about past current log) (owed : Bool) :
    Custody freed about (past ++ [owed]) ((if owed then [past.length] else []) ++ current) log := by
  have hlt : ∀ i, past[i]? = some true → i < past.length := fun i hi => (List.getElem?_eq_some_iff.mp hi).1
  have hnew : past.length ∉ current := fun hmem => Nat.lt_irrefl _ (hlt _ (h.owed _ hmem))
  have hpast (i : Nat) : (past ++ [owed])[i]? = some true ↔
      past[i]? = some true ∨ i = past.length ∧ owed = true := by
    rw [List.getElem?_append]
    split
    · rename_i hi
      exact (or_iff_left fun h => absurd h.1 (Nat.ne_of_lt hi)).symm
    · rename_i hi
      rw [List.getElem?_eq_none (Nat.le_of_not_lt hi), List.getElem?_singleton]
      simp only [Option.ite_none_right_eq_some, Option.some.injEq, reduceCtorEq, false_or]
      constructor
      · exact fun h => ⟨by omega, h.2⟩
      · exact fun h => ⟨by omega, h.2⟩
  refine ⟨fun i hi => (hpast i).mpr ?_, ?_, fun i => ?_, h.final⟩
  · rcases List.mem_append.mp hi with hi | hi
    · cases owed with
      | false => cases hi
      | true => exact .inr ⟨List.mem_singleton.mp hi, rfl⟩
    · exact .inl (h.owed i hi)
  · cases owed with
    | false => exact h.nodup
    | true => exact List.nodup_cons.mpr ⟨hnew, h.nodup⟩
  · rw [h.exactly, hpast, List.mem_append, not_or]
    constructor
    · rintro ⟨hi, hcurrent⟩
      refine ⟨.inl hi, fun hmem => ?_, hcurrent⟩
      cases owed with
      | false => cases hmem
      | true => exact Nat.ne_of_lt (hlt i hi) (List.mem_singleton.mp hmem)
    · rintro ⟨hi | ⟨rfl, rfl⟩, hno, hcurrent⟩
      · exact ⟨hi, hcurrent⟩
      · exact absurd (List.mem_singleton.mpr rfl) hno

theorem perm {current' : List Nat} (h : Custody freed about past current log) (hperm : current.Perm current') :
    Custody freed about past current' log where
  owed := fun i hi => h.owed i (hperm.mem_iff.mpr hi)
  nodup := hperm.nodup_iff.mp h.nodup
  exactly := fun i => by rw [h.exactly, hperm.mem_iff]
  final := h.final

/-- Events about resources that were not freed, none of which frees one. -/
theorem events (h : Custody freed about past current log) {more : List ε}
    (hfreed : ∀ e ∈ more, ∀ i, e ≠ freed i)
    (hlive : ∀ e ∈ more, past[about e]? = some true → about e ∈ current) :
    Custody freed about past current (log ++ more) where
  owed := h.owed
  nodup := h.nodup
  exactly := fun i => by
    rw [List.mem_append, h.exactly]
    exact or_iff_left fun hmem => hfreed _ hmem i rfl
  final := by
    refine List.pairwise_append.mpr ⟨h.final, ?_, ?_⟩
    · exact List.pairwise_of_forall_mem_list fun e he e' _ i heq => absurd heq (hfreed e he i)
    · rintro e he e' he' i rfl rfl
      obtain ⟨hpast, hcurrent⟩ := (h.exactly (about e')).mp he
      exact hcurrent (hlive e' he' hpast)

end Custody

end Lib
