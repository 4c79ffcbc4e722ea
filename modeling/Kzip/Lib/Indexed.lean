import Kzip.Lib.Keyed
import Mathlib.Data.List.Forall2

/-!
# Edits of a list by index

`keepIdx ds es` is `es` without the elements whose index is in `ds`. Removing indices one at a time,
the largest first, gives it (`foldr_eraseIdx`); sorting and deduplicating a list of indices brings
them in that order (`dedup_sorted`, `mem_dedup`). Updates by index, one after the other, act on each
element on its own (`getElem?_foldl_modify`).
-/

namespace Lib

variable {α β : Type}

/-! ## Removal -/

/-- The elements of `es`, numbered from `k`, whose number is not in `ds`. -/
def keepFrom (ds : List Nat) : Nat → List α → List α
  | _, [] => []
  | k, e :: es => if k ∈ ds then keepFrom ds (k + 1) es else e :: keepFrom ds (k + 1) es

/-- The elements whose index is not in `ds`. -/
def keepIdx (ds : List Nat) (es : List α) : List α := keepFrom ds 0 es

theorem keepFrom_congr {ds ds' : List Nat} {es : List α} {k : Nat}
    (h : ∀ i, k ≤ i → (i ∈ ds ↔ i ∈ ds')) : keepFrom ds k es = keepFrom ds' k es := by
  induction es generalizing k with
  | nil => rfl
  | cons e es ih =>
    have htail := ih (k := k + 1) fun i hi => h i (by omega)
    simp only [keepFrom, h k (Nat.le_refl k), htail]

theorem keepIdx_congr {ds ds' : List Nat} {es : List α} (h : ∀ i, i ∈ ds ↔ i ∈ ds') :
    keepIdx ds es = keepIdx ds' es := keepFrom_congr fun i _ => h i

theorem keepFrom_nil (es : List α) (k : Nat) : keepFrom [] k es = es := by
  induction es generalizing k with
  | nil => rfl
  | cons e es ih => simp only [keepFrom, List.not_mem_nil, ↓reduceIte, ih]

/-- Removing an index below all those already removed. -/
theorem eraseIdx_keepFrom {ds : List Nat} {d : Nat} (h : ∀ x ∈ ds, d < x) {es : List α} {k : Nat}
    (hk : k ≤ d) : (keepFrom ds k es).eraseIdx (d - k) = keepFrom (d :: ds) k es := by
  induction es generalizing k with
  | nil => rfl
  | cons e es ih =>
    have hnot : k ∉ ds := fun hm => absurd (h k hm) (by omega)
    rw [keepFrom, if_neg hnot, keepFrom]
    by_cases hkd : k = d
    · subst hkd
      rw [if_pos List.mem_cons_self, Nat.sub_self, List.eraseIdx_cons_zero]
      refine keepFrom_congr fun i hi => ?_
      rw [List.mem_cons]
      exact ⟨.inr, fun hi' => hi'.resolve_left (by omega)⟩
    · have hd : d - k = d - (k + 1) + 1 := by omega
      rw [if_neg fun hm => (List.mem_cons.mp hm).elim hkd hnot, hd, List.eraseIdx_cons_succ,
        ih (by omega)]

/-- Removing the indices of an ascending list, the last first. -/
theorem foldr_eraseIdx {ds : List Nat} (h : ds.Pairwise (· < ·)) (es : List α) :
    ds.foldr (fun d es => es.eraseIdx d) es = keepIdx ds es := by
  induction ds with
  | nil => exact (keepFrom_nil es 0).symm
  | cons d ds ih =>
    obtain ⟨hd, hds⟩ := List.pairwise_cons.mp h
    rw [List.foldr_cons, ih hds]
    exact eraseIdx_keepFrom hd (Nat.zero_le d)

theorem keepFrom_sublist (ds : List Nat) (es : List α) (k : Nat) : (keepFrom ds k es).Sublist es := by
  induction es generalizing k with
  | nil => exact List.Sublist.refl _
  | cons e es ih =>
    rw [keepFrom]
    split
    · exact (ih _).cons e
    · exact (ih _).cons_cons e

theorem keepIdx_sublist (ds : List Nat) (es : List α) : (keepIdx ds es).Sublist es :=
  keepFrom_sublist ds es 0

theorem keepFrom_forall₂ {R : α → β → Prop} {es : List α} {fs : List β} (h : List.Forall₂ R es fs)
    (ds : List Nat) (k : Nat) : List.Forall₂ R (keepFrom ds k es) (keepFrom ds k fs) := by
  induction h generalizing k with
  | nil => exact .nil
  | cons hef _ ih =>
    simp only [keepFrom]
    split
    · exact ih _
    · exact .cons hef (ih _)

/-- Related lists stay related when the same indices are removed from both. -/
theorem keepIdx_forall₂ {R : α → β → Prop} {es : List α} {fs : List β} (h : List.Forall₂ R es fs)
    (ds : List Nat) : List.Forall₂ R (keepIdx ds es) (keepIdx ds fs) := keepFrom_forall₂ h ds 0

theorem exists_of_forall₂ {R : α → β → Prop} {es : List α} {fs : List β} (h : List.Forall₂ R es fs)
    {i : Nat} {e : α} (he : es[i]? = some e) : ∃ f, fs[i]? = some f ∧ R e f := by
  obtain ⟨hi, rfl⟩ := List.getElem?_eq_some_iff.mp he
  have hi' : i < fs.length := h.length_eq ▸ hi
  exact ⟨fs[i], List.getElem?_eq_getElem hi', h.get hi hi'⟩

/-! ## Consecutive duplicates -/

/-- Keeps one of each run of equal elements. -/
def dedup [DecidableEq α] : List α → List α
  | a :: b :: l => if a = b then dedup (b :: l) else a :: dedup (b :: l)
  | l => l

theorem mem_dedup [DecidableEq α] {l : List α} {x : α} : x ∈ dedup l ↔ x ∈ l := by
  induction l using dedup.induct with
  | case1 b l ih => simp only [dedup, ↓reduceIte, ih, List.mem_cons, or_self_left]
  | case2 a b l h ih => simp only [dedup, h, ↓reduceIte, List.mem_cons, ih]
  | case3 l h =>
    cases l with
    | nil => rfl
    | cons a l => cases l with
      | nil => rfl
      | cons b l => exact absurd rfl (h a b l)

/-- A sorted list is strictly sorted once its runs are collapsed. -/
theorem dedup_sorted [DecidableEq α] (le lt : α → α → Prop) (htrans : ∀ a b c, lt a b → le b c → lt a c)
    (hlt : ∀ a b, le a b → a ≠ b → lt a b) {l : List α} (h : l.Pairwise le) :
    (dedup l).Pairwise lt := by
  induction l using dedup.induct with
  | case1 b l ih =>
    simp only [dedup, ↓reduceIte]
    exact ih (List.pairwise_cons.mp h).2
  | case2 a b l hab ih =>
    obtain ⟨ha, hl⟩ := List.pairwise_cons.mp h
    simp only [dedup, hab, ↓reduceIte]
    refine List.pairwise_cons.mpr ⟨fun x hx => ?_, ih hl⟩
    have hb := hlt a b (ha b List.mem_cons_self) hab
    rcases List.mem_cons.mp (mem_dedup.mp hx) with rfl | hx
    · exact hb
    · exact htrans a b x hb ((List.pairwise_cons.mp hl).1 x hx)
  | case3 l h' =>
    cases l with
    | nil => exact List.Pairwise.nil
    | cons a l => cases l with
      | nil => exact List.pairwise_singleton _ _
      | cons b l => exact absurd rfl (h' a b l)

/-! ## Updates -/

/-- Overwriting updates, one after the other: each element ends up with the last one of its
index. -/
theorem getElem?_foldl_modify (set : β → α → α) (hset : ∀ x y a, set x (set y a) = set x a)
    (us : List (Nat × β)) (es : List α) (i : Nat) :
    (us.foldl (fun es u => es.modify u.1 (set u.2)) es)[i]? =
      es[i]?.map fun a => (lastAt us i).elim a fun x => set x a := by
  induction us using List.reverseRecOn with
  | nil => simp [lastAt]
  | append_singleton us u ih =>
    rw [List.foldl_append, List.foldl_cons, List.foldl_nil, List.getElem?_modify, ih, lastAt_concat,
      Option.map_eq_map, Option.map_map]
    by_cases h : u.1 = i
    · simp only [h, ↓reduceIte, Option.elim_some]
      congr 1
      funext a
      cases lastAt us i with
      | some y => simp only [Function.comp, Option.elim_some, hset]
      | none => simp only [Function.comp, Option.elim_none]
    · simp only [h, ↓reduceIte]
      congr 1

/-! ## Several lists -/

/-- The elements of the first of two lists that are zipped, with their indices. -/
theorem map_zip_zipIdx {as : List α} {bs : List β} (h : bs.length = as.length) :
    (as.zip bs).zipIdx.map (fun c => c.1.1) = as := by
  have hfst : (as.zip bs).zipIdx.map (fun c => c.1.1) = (as.zip bs).map (·.1) := by
    conv_rhs => rw [← List.zipIdx_map_fst 0 (as.zip bs), List.map_map]
    rfl
  rw [hfst]
  exact List.map_fst_zip (Nat.le_of_eq h.symm)

/-- Steps that were taken from the same list. -/
theorem forall₂_common {γ : Type} {R : α → β → Prop} {S : α → γ → Prop} {as : List α}
    {bs : List β} {cs : List γ} (hr : List.Forall₂ R as bs) (hs : List.Forall₂ S as cs) :
    List.Forall₂ (fun b c => ∃ a ∈ as, R a b ∧ S a c) bs cs := by
  induction hr generalizing cs with
  | nil =>
    cases hs
    exact .nil
  | @cons a b as bs hab _ ih =>
    cases hs with
    | @cons _ c _ cs hac hrest =>
      refine .cons ⟨a, List.mem_cons_self, hab, hac⟩ ((ih hrest).imp fun b c h => ?_)
      obtain ⟨a', ha', h⟩ := h
      exact ⟨a', List.mem_cons_of_mem _ ha', h⟩

end Lib
