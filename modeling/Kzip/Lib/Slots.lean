import Mathlib.Data.List.Basic

/-!
# Lists of slots

A list of things that are handed out by their index and may be gone: `l[i]?.join` is what is in slot `i`.
-/

namespace Lib

variable {α : Type} (l : List (Option α)) (x : Option α)

theorem join_append (i : Nat) : (l ++ [x])[i]?.join = if i = l.length then x else l[i]?.join := by
  split
  · rename_i hi
    rw [hi, List.getElem?_append_right (Nat.le_refl _), Nat.sub_self]
    rfl
  · rename_i hi
    rcases Nat.lt_or_ge i l.length with hlt | hge
    · rw [List.getElem?_append_left hlt]
    · rw [List.getElem?_eq_none (by rw [List.length_append, List.length_singleton]; omega),
        List.getElem?_eq_none hge]

theorem join_set (i j : Nat) :
    (l.set i x)[j]?.join = if i = j ∧ i < l.length then x else l[j]?.join := by
  rw [List.getElem?_set]
  by_cases hij : i = j
  · subst hij
    by_cases hi : i < l.length
    · simp [hi]
    · simp [hi]
  · simp [hij]

theorem set_join (i : Nat) : l.set i l[i]?.join = l := by
  refine List.ext_getElem? fun j => ?_
  rw [List.getElem?_set]
  by_cases hij : i = j
  · subst hij
    rcases Nat.lt_or_ge i l.length with hi | hi
    · simp [hi]
    · simp [Nat.not_lt.mpr hi]
  · simp [hij]

end Lib
