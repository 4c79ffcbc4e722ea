import Mathlib.Data.List.Induction

/-!
# Values recorded by key

A list of keys with values, in the order they were recorded. A value is added at the end, alone
(`pushAt`) or in place of those its key had (`putAt`), and the values of a key are removed together
(`dropAt`). A lookup takes the first value of a key or the last one. What each of these does to the
values of a key is `valuesAt_pushAt`, `valuesAt_putAt`, `valuesAt_dropAt`, `firstAt_eq` and
`lastAt_eq`. Where the keys number the elements of a list, `closeAt` follows the removal of one:
the keys after it move down (`valuesAt_closeAt`).
-/

namespace Lib

variable {κ β : Type} [DecidableEq κ]

/-- The values of a key, in order. -/
def valuesAt (l : List (κ × β)) (k : κ) : List β := (l.filter fun u => u.1 == k).map (·.2)

def pushAt (l : List (κ × β)) (k : κ) (x : β) : List (κ × β) := l ++ [(k, x)]

def dropAt (l : List (κ × β)) (k : κ) : List (κ × β) := l.filter fun u => u.1 != k

def putAt (l : List (κ × β)) (k : κ) (x : β) : List (κ × β) := pushAt (dropAt l k) k x

def firstAt (l : List (κ × β)) (k : κ) : Option β := (l.find? fun u => u.1 == k).map (·.2)

def lastAt (l : List (κ × β)) (k : κ) : Option β := (l.reverse.find? fun u => u.1 == k).map (·.2)

theorem firstAt_eq (l : List (κ × β)) (k : κ) : firstAt l k = (valuesAt l k).head? := by
  rw [firstAt, valuesAt, List.head?_map, List.head?_filter]

theorem lastAt_eq (l : List (κ × β)) (k : κ) : lastAt l k = (valuesAt l k).getLast? := by
  rw [lastAt, valuesAt, List.getLast?_map, List.getLast?_eq_head?_reverse, ← List.filter_reverse,
    List.head?_filter]

theorem valuesAt_pushAt (l : List (κ × β)) (k j : κ) (x : β) :
    valuesAt (pushAt l k x) j = if k = j then valuesAt l j ++ [x] else valuesAt l j := by
  rw [valuesAt, pushAt, List.filter_append, List.map_append]
  by_cases h : k = j <;> simp [h, valuesAt]

theorem valuesAt_dropAt (l : List (κ × β)) (k j : κ) :
    valuesAt (dropAt l k) j = if k = j then [] else valuesAt l j := by
  rw [valuesAt, dropAt, List.filter_filter]
  split
  · rename_i h
    rw [List.map_eq_nil_iff, List.filter_eq_nil_iff]
    intro u _
    simp [h]
  · rename_i h
    rw [valuesAt]
    congr 2
    funext u
    by_cases hu : u.1 = j
    · simp [hu, Ne.symm h]
    · simp [hu]

theorem valuesAt_putAt (l : List (κ × β)) (k j : κ) (x : β) :
    valuesAt (putAt l k x) j = if k = j then [x] else valuesAt l j := by
  rw [putAt, valuesAt_pushAt, valuesAt_dropAt]
  split <;> rfl

/-- A list without values for any key is empty. -/
theorem valuesAt_eq_nil {l : List (κ × β)} : (∀ k, valuesAt l k = []) ↔ l = [] := by
  constructor
  · intro h
    refine List.eq_nil_iff_forall_not_mem.mpr fun u hu => ?_
    have hnil := List.filter_eq_nil_iff.mp (List.map_eq_nil_iff.mp (h u.1)) u hu
    simp at hnil
  · rintro rfl k
    rfl

theorem lastAt_concat (l : List (κ × β)) (u : κ × β) (k : κ) :
    lastAt (l ++ [u]) k = if u.1 = k then some u.2 else lastAt l k := by
  have h := valuesAt_pushAt l u.1 k u.2
  rw [pushAt] at h
  rw [lastAt_eq, show (l ++ [u]) = l ++ [(u.1, u.2)] from rfl, h, lastAt_eq]
  split
  · rw [List.getLast?_append]
    rfl
  · rfl

theorem mem_of_lastAt {l : List (κ × β)} {k : κ} {x : β} (h : lastAt l k = some x) : (k, x) ∈ l := by
  obtain ⟨u, hu, rfl⟩ := Option.map_eq_some_iff.mp h
  have hk := List.find?_some hu
  rw [beq_iff_eq] at hk
  exact hk ▸ List.mem_reverse.mp (List.mem_of_find?_eq_some hu)

/-! ## Keys that are indices -/

/-- The index of an element once the one at `k` is removed. -/
def closeGap (k i : Nat) : Nat := if k < i then i - 1 else i

/-- The values of the elements that are left once the one at `k` is removed, under their new
indices. -/
def closeAt (l : List (Nat × β)) (k : Nat) : List (Nat × β) :=
  (dropAt l k).map fun u => (closeGap k u.1, u.2)

def closeKeys (ks : List Nat) (k : Nat) : List Nat := (ks.filter (· != k)).map (closeGap k)

/-- An element other than the one removed, by its new index. -/
theorem closeGap_eq_iff {k i j : Nat} (h : i ≠ k) :
    closeGap k i = j ↔ i = if j < k then j else j + 1 := by
  rw [closeGap]
  split <;> split <;> omega

theorem valuesAt_closeAt (l : List (Nat × β)) (k j : Nat) :
    valuesAt (closeAt l k) j = valuesAt l (if j < k then j else j + 1) := by
  have hne : (if j < k then j else j + 1) ≠ k := by split <;> omega
  rw [valuesAt, closeAt, List.filter_map, List.map_map, dropAt, List.filter_filter, valuesAt]
  refine congrArg (List.map fun u : Nat × β => u.2) (List.filter_congr fun u _ => ?_)
  rw [Bool.eq_iff_iff]
  by_cases h : u.1 = k
  · simp [h, hne.symm]
  · simp [h, closeGap_eq_iff h]

theorem mem_closeKeys {ks : List Nat} {k j : Nat} :
    j ∈ closeKeys ks k ↔ (if j < k then j else j + 1) ∈ ks := by
  have hne : (if j < k then j else j + 1) ≠ k := by split <;> omega
  rw [closeKeys, List.mem_map]
  constructor
  · rintro ⟨i, hi, hij⟩
    obtain ⟨hmem, hk⟩ := List.mem_filter.mp hi
    have hik : i ≠ k := by simpa using hk
    rwa [← (closeGap_eq_iff hik).mp hij]
  · intro h
    exact ⟨_, List.mem_filter.mpr ⟨h, by simpa using hne⟩, (closeGap_eq_iff hne).mpr rfl⟩

end Lib
