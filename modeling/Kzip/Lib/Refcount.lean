import Mathlib.Data.List.Count

/-!
# Counted references

Blocks that are freed when no reference to them is left. A block may hold a reference to an older one, which
it gives up when it is freed; the other references are held by the clients. An operation on a block that was
freed has no result. In a balanced arena every block counts the references to it (`Arena.Balanced`): a client
that holds a reference can always use it, and when no client holds any, every block was freed
(`Arena.Balanced.none_left`).
-/

namespace Lib

/-- What may hold a reference to a block. -/
class Holder (β : Type) where
  below : β → Option Nat

/-- The blocks, in the order in which they were made; `none` was freed. -/
@[ext]
structure Arena (β : Type) [Holder β] where
  blocks : List (Option β)
  older : ∀ (i : Nat) b j, blocks[i]?.join = some b → Holder.below b = some j → j < i

namespace Arena

variable {β : Type} [Holder β]

def empty : Arena β := { blocks := [], older := fun _ _ _ h => nomatch h }

def block (a : Arena β) (i : Nat) : Option β := a.blocks[i]?.join

theorem lt_of_block {a : Arena β} {i : Nat} {b : β} (h : a.block i = some b) : i < a.blocks.length := by
  rw [block, Option.join_eq_some_iff] at h
  exact (List.getElem?_eq_some_iff.mp h).1

/-- A new block. -/
def alloc (a : Arena β) (b : β) (h : ∀ j, Holder.below b = some j → j < a.blocks.length) : Arena β where
  blocks := a.blocks ++ [some b]
  older := fun i c j hi hj => by
    rw [List.getElem?_append] at hi
    split at hi
    · exact a.older i c j hi hj
    · rename_i hlen
      rw [List.getElem?_singleton] at hi
      split at hi
      · cases hi
        exact Nat.lt_of_lt_of_le (h j hj) (Nat.le_of_not_lt hlen)
      · cases hi

def put (a : Arena β) (i : Nat) (x : Option β) (h : ∀ b, x = some b → ∀ j, Holder.below b = some j → j < i) :
    Arena β where
  blocks := a.blocks.set i x
  older := fun k b j hk hj => by
    rw [List.getElem?_set] at hk
    split at hk
    · rename_i heq
      subst heq
      split at hk
      · exact h b hk j hj
      · cases hk
    · exact a.older k b j hk hj

def free (a : Arena β) (i : Nat) : Arena β := a.put i none nofun

/-- A block that holds the same reference. -/
def replace (a : Arena β) (i : Nat) {b : β} (h : a.block i = some b) (c : β)
    (hc : Holder.below c = Holder.below b) : Arena β :=
  a.put i (some c) fun _ hd j hj => a.older i b j h (hc.symm.trans (Option.some.inj hd ▸ hj))

/-- Whether a block is there, and every block below it. -/
def reaches (a : Arena β) (i : Nat) : Bool :=
  match h : a.block i with
  | none => false
  | some b =>
    match hbelow : Holder.below b with
    | none => true
    | some j => a.reaches j
termination_by i
decreasing_by exact a.older i b j h hbelow

/-- The blocks that hold a reference to the block. -/
def uppers (a : Arena β) (i : Nat) : Nat := (a.blocks.map (·.bind Holder.below)).count (some i)

/-! ## Blocks -/

section
variable {a : Arena β} {i : Nat} {b : β}

theorem block_put (h : a.block i = some b) (x : Option β)
    (hx : ∀ b, x = some b → ∀ j, Holder.below b = some j → j < i) (k : Nat) :
    (a.put i x hx).block k = if i = k then x else a.block k := by
  rw [block, put, List.getElem?_set]
  split
  · rename_i heq
    subst heq
    rw [if_pos (lt_of_block h)]
    rfl
  · rfl

theorem block_alloc (a : Arena β) (b : β) (h : ∀ j, Holder.below b = some j → j < a.blocks.length) (k : Nat) :
    (a.alloc b h).block k = if k = a.blocks.length then some b else a.block k := by
  rw [block, alloc, List.getElem?_append]
  split
  · rename_i hlt
    rw [if_neg (Nat.ne_of_lt hlt)]
    rfl
  · rename_i hge
    by_cases heq : k = a.blocks.length
    · subst heq
      rw [if_pos rfl, Nat.sub_self]
      rfl
    · rw [if_neg heq, List.getElem?_eq_none (by simp only [List.length_singleton]; omega), block,
        List.getElem?_eq_none (Nat.le_of_not_lt hge)]

theorem reaches_eq (a : Arena β) (i : Nat) :
    a.reaches i = (a.block i).any fun b => (Holder.below b).all a.reaches := by
  rw [reaches]
  split
  · rename_i hnone
    rw [hnone]
    rfl
  · rename_i b hb
    rw [hb, Option.any_some]
    split
    · rename_i hbelow
      rw [hbelow]
      rfl
    · rename_i j hbelow
      rw [hbelow]
      rfl

theorem lt_of_reaches (h : a.reaches i = true) : i < a.blocks.length := by
  rw [reaches_eq, Option.any_eq_true] at h
  obtain ⟨b, hb, -⟩ := h
  exact lt_of_block hb

theorem count_below (o : Option Nat) (k : Nat) : o.toList.count k = if o = some k then 1 else 0 := by
  cases o with
  | none => rfl
  | some j => simp [List.count_singleton]

theorem uppers_put (h : a.block i = some b) (x : Option β)
    (hx : ∀ b, x = some b → ∀ j, Holder.below b = some j → j < i) (k : Nat) :
    (a.put i x hx).uppers k + (Holder.below b).toList.count k =
      a.uppers k + (x.bind Holder.below).toList.count k := by
  have hlt := lt_of_block h
  have hget : a.blocks[i] = some b := by
    rw [block, List.getElem?_eq_getElem hlt] at h
    exact h
  have hlen : i < (a.blocks.map (·.bind Holder.below)).length := by rwa [List.length_map]
  have hmem : Holder.below b = some k → 0 < (a.blocks.map (·.bind Holder.below)).count (some k) := by
    intro hbelow
    refine List.count_pos_iff.mpr (List.mem_map.mpr ⟨_, List.getElem_mem hlt, ?_⟩)
    rw [hget]
    exact hbelow
  rw [uppers, uppers, put, List.map_set, List.count_set hlen, List.getElem_map, hget, count_below,
    count_below]
  simp only [Option.bind_some, beq_iff_eq]
  by_cases hb : Holder.below b = some k
  · have := hmem hb
    simp only [hb, if_true]
    omega
  · simp only [hb, if_false]
    omega

theorem uppers_alloc (a : Arena β) (b : β) (h : ∀ j, Holder.below b = some j → j < a.blocks.length) (k : Nat) :
    (a.alloc b h).uppers k = a.uppers k + (Holder.below b).toList.count k := by
  rw [uppers, alloc, List.map_append, List.count_append, uppers, count_below]
  simp [List.count_singleton]

/-- A block holds a reference to the one below it. -/
theorem uppers_pos (h : a.block i = some b) {j : Nat} (hbelow : Holder.below b = some j) : 0 < a.uppers j := by
  refine List.count_pos_iff.mpr (List.mem_map.mpr ⟨some b, ?_, hbelow⟩)
  rw [block, Option.join_eq_some_iff] at h
  exact List.mem_of_getElem? h

theorem exists_upper {j : Nat} (h : 0 < a.uppers j) : ∃ i b, a.block i = some b ∧ Holder.below b = some j := by
  rw [uppers, List.count_pos_iff] at h
  obtain ⟨x, hx, hbelow⟩ := List.mem_map.mp h
  obtain ⟨i, hi, rfl⟩ := List.mem_iff_getElem.mp hx
  obtain ⟨b, hb, hj⟩ := Option.bind_eq_some_iff.mp hbelow
  refine ⟨i, b, ?_, hj⟩
  rw [block, List.getElem?_eq_getElem hi]
  exact hb

end

/-! ## Maps -/

/-- The blocks seen through a map that keeps their references. -/
def map {γ : Type} [Holder γ] (f : β → γ) (hf : ∀ b, Holder.below (f b) = Holder.below b) (a : Arena β) :
    Arena γ where
  blocks := a.blocks.map (·.map f)
  older := fun i c j hi hj => by
    rw [List.getElem?_map, Option.join_eq_some_iff, Option.map_eq_some_iff] at hi
    obtain ⟨x, hx, hc⟩ := hi
    obtain ⟨b, rfl, rfl⟩ := Option.map_eq_some_iff.mp hc
    exact a.older i b j (Option.join_eq_some_iff.mpr hx) ((hf b).symm.trans hj)

section
variable {γ : Type} [Holder γ] (f : β → γ) (hf : ∀ b, Holder.below (f b) = Holder.below b) (a : Arena β)

theorem block_map (i : Nat) : (a.map f hf).block i = (a.block i).map f := by
  rw [block, map, List.getElem?_map, block]
  cases a.blocks[i]? with
  | none => rfl
  | some x => rfl

theorem uppers_map (i : Nat) : (a.map f hf).uppers i = a.uppers i := by
  rw [uppers, uppers, map, List.map_map]
  refine congrArg (List.count (some i)) (List.map_congr_left fun x _ => ?_)
  cases x with
  | none => rfl
  | some b => exact hf b

theorem reaches_map (i : Nat) : (a.map f hf).reaches i = a.reaches i := by
  induction i using Nat.strongRecOn with
  | _ i ih =>
    rw [reaches_eq, reaches_eq, block_map]
    cases hb : a.block i with
    | none => rfl
    | some b =>
      rw [Option.map_some, Option.any_some, Option.any_some, hf]
      cases hbelow : Holder.below b with
      | none => rfl
      | some j => exact ih j (a.older i b j hb hbelow)

theorem map_put (i : Nat) (x : Option β) (hx : ∀ b, x = some b → ∀ j, Holder.below b = some j → j < i)
    (hx' : ∀ c, x.map f = some c → ∀ j, Holder.below c = some j → j < i) :
    (a.put i x hx).map f hf = (a.map f hf).put i (x.map f) hx' :=
  Arena.ext List.map_set

theorem map_alloc (b : β) (h : ∀ j, Holder.below b = some j → j < a.blocks.length)
    (h' : ∀ j, Holder.below (f b) = some j → j < (a.map f hf).blocks.length) :
    (a.alloc b h).map f hf = (a.map f hf).alloc (f b) h' :=
  Arena.ext List.map_append

theorem length_map : (a.map f hf).blocks.length = a.blocks.length := List.length_map ..

end

/-! ## References to the blocks -/

/-- A block: the number of references to it, and the block that it holds a reference to. -/
structure Counted where
  count : Nat
  below : Option Nat
  deriving DecidableEq

instance : Holder Counted := ⟨Counted.below⟩

def retain (a : Arena Counted) (i : Nat) : Option (Arena Counted) :=
  match h : a.block i with
  | none => none
  | some b => some (a.replace i h { b with count := b.count + 1 } rfl)

/-- Gives up a reference; if it was the last one, the block is freed and gives up its own. -/
def release (a : Arena Counted) (i : Nat) : Option (Arena Counted) :=
  match h : a.block i with
  | none => none
  | some b =>
    if b.count ≤ 1 then
      match hbelow : b.below with
      | none => some (a.free i)
      | some j => (a.free i).release j
    else some (a.replace i h { b with count := b.count - 1 } rfl)
termination_by i
decreasing_by exact a.older i b j h hbelow

/-- Every block counts the references to it, where `held` are those of the clients, and no reference is to a
block that was freed. -/
structure Balanced (a : Arena Counted) (held : List Nat) : Prop where
  counted : ∀ i b, a.block i = some b → b.count = held.count i + a.uppers i
  live : ∀ i, 0 < held.count i + a.uppers i → (a.block i).isSome
  positive : ∀ i b, a.block i = some b → 0 < b.count

variable {a : Arena Counted} {i : Nat} {b : Counted} {held : List Nat}

theorem retain_eq (h : a.block i = some b) :
    a.retain i = some (a.replace i h { b with count := b.count + 1 } rfl) := by
  rw [retain]
  split
  · rename_i hnone
    rw [h] at hnone
    cases hnone
  · rename_i b' hb'
    cases h.symm.trans hb'
    rfl

theorem release_none (h : a.block i = none) : a.release i = none := by
  rw [release]
  split
  · rfl
  · rename_i b hb
    rw [h] at hb
    cases hb

theorem release_eq (h : a.block i = some b) : a.release i =
    if b.count ≤ 1 then b.below.elim (some (a.free i)) (a.free i).release
    else some (a.replace i h { b with count := b.count - 1 } rfl) := by
  rw [release]
  split
  · rename_i hnone
    rw [h] at hnone
    cases hnone
  · rename_i b' hb'
    cases h.symm.trans hb'
    split
    · split
      · rename_i hbelow
        rw [hbelow]
        rfl
      · rename_i j hbelow
        rw [hbelow]
        rfl
    · rfl

/-! ## The operations keep the balance -/

theorem balanced_empty : Balanced empty [] where
  counted := fun _ _ h => nomatch h
  live := fun _ h => absurd h (Nat.lt_irrefl 0)
  positive := fun _ _ h => nomatch h

theorem Balanced.perm {held' : List Nat} (h : Balanced a held) (hperm : held.Perm held') :
    Balanced a held' where
  counted := fun i b hb => by rw [h.counted i b hb, hperm.count_eq]
  live := fun i hi => h.live i (by rwa [hperm.count_eq])
  positive := h.positive

/-- A client that holds a reference can use the block. -/
theorem Balanced.block_of_mem (h : Balanced a held) (hi : i ∈ held) : ∃ b, a.block i = some b :=
  Option.isSome_iff_exists.mp (h.live i (Nat.add_pos_left (List.count_pos_iff.mpr hi) _))

/-- What is there can use what is below it. -/
theorem Balanced.reaches (h : Balanced a held) (hb : a.block i = some b) : a.reaches i = true := by
  induction i using Nat.strongRecOn generalizing b with
  | _ i ih =>
    rw [reaches_eq, hb, Option.any_some]
    cases hbelow : Holder.below b with
    | none => rfl
    | some j =>
      obtain ⟨c, hc⟩ := Option.isSome_iff_exists.mp (h.live j (Nat.add_pos_right _ (uppers_pos hb hbelow)))
      exact ih j (a.older i b j hb hbelow) hc

/-- A block is replaced, and the references with it. -/
theorem Balanced.put (h : Balanced a held) (hb : a.block i = some b) {x : Option Counted}
    {hx : ∀ b, x = some b → ∀ j, Holder.below b = some j → j < i} {held' : List Nat}
    (hothers : ∀ k, k ≠ i → held'.count k + (a.put i x hx).uppers k = held.count k + a.uppers k)
    (hself : x.elim 0 (·.count) = held'.count i + (a.put i x hx).uppers i)
    (hpositive : ∀ c, x = some c → 0 < c.count) : Balanced (a.put i x hx) held' where
  counted := fun k c hc => by
    rw [block_put hb] at hc
    split at hc
    · rename_i heq
      subst heq hc
      exact hself
    · rename_i hne
      rw [hothers k (Ne.symm hne)]
      exact h.counted k c hc
  live := fun k hk => by
    rw [block_put hb]
    split
    · rename_i heq
      subst heq
      rw [← hself] at hk
      cases x with
      | none => cases hk
      | some c => rfl
    · rename_i hne
      rw [hothers k (Ne.symm hne)] at hk
      exact h.live k hk
  positive := fun k c hc => by
    rw [block_put hb] at hc
    split at hc
    · exact hpositive c hc
    · exact h.positive k c hc

theorem Balanced.replace (h : Balanced a held) (hb : a.block i = some b) {c : Counted}
    (hc : c.below = b.below) {held' : List Nat} (hpositive : 0 < c.count)
    (hself : c.count + held.count i = b.count + held'.count i)
    (hothers : ∀ k, k ≠ i → held'.count k = held.count k) : Balanced (a.replace i hb c hc) held' := by
  have huppers (k : Nat) : (a.replace i hb c hc).uppers k = a.uppers k := by
    have := uppers_put hb (some c) (fun _ hd j hj =>
      a.older i b j hb (hc.symm.trans (Option.some.inj hd ▸ hj))) k
    rw [Option.bind_some, show Holder.below c = Holder.below b from hc] at this
    exact Nat.add_right_cancel this
  refine h.put hb (fun k hk => ?_) ?_ fun d hd => ?_
  · exact congrArg₂ _ (hothers k hk) (huppers k)
  · have hcount := h.counted i b hb
    have := huppers i
    simp only [Option.elim_some, Arena.replace] at this ⊢
    omega
  · cases hd
    exact hpositive

theorem Balanced.retain (h : Balanced a held) (hi : i ∈ held) :
    ∃ a', a.retain i = some a' ∧ Balanced a' (i :: held) := by
  obtain ⟨b, hb⟩ := h.block_of_mem hi
  rw [retain_eq hb]
  refine ⟨_, rfl, h.replace (c := { b with count := b.count + 1 }) hb rfl (Nat.succ_pos _) ?_ fun k hk =>
    List.count_cons_of_ne (Ne.symm hk)⟩
  rw [List.count_cons_self]
  simp only
  omega

/-- The last reference is given up: the one of the block passes to whoever frees it. -/
theorem Balanced.free (h : Balanced a (i :: held)) (hb : a.block i = some b) (hlast : b.count ≤ 1) :
    Balanced (a.free i) (b.below.toList ++ held) := by
  have hcount := h.counted i b hb
  rw [List.count_cons_self] at hcount
  have huppers (k : Nat) : (a.free i).uppers k + b.below.toList.count k = a.uppers k :=
    uppers_put hb none nofun k
  refine h.put hb (fun k hk => ?_) ?_ nofun
  · have := huppers k
    rw [List.count_cons_of_ne (Ne.symm hk), List.count_append]
    simp only [Arena.free] at this
    omega
  · have := huppers i
    rw [List.count_append]
    simp only [Arena.free, Option.elim_none] at this ⊢
    omega

theorem Balanced.release (h : Balanced a (i :: held)) :
    ∃ a', a.release i = some a' ∧ Balanced a' held := by
  induction i using Nat.strongRecOn generalizing a with
  | _ i ih =>
    obtain ⟨b, hb⟩ := h.block_of_mem List.mem_cons_self
    rw [release_eq hb]
    split
    · rename_i hlast
      have hfree := h.free hb hlast
      cases hbelow : b.below with
      | none =>
        rw [hbelow] at hfree
        exact ⟨_, rfl, hfree⟩
      | some j =>
        rw [hbelow] at hfree
        exact ih j (a.older i b j hb hbelow) hfree
    · rename_i hmore
      refine ⟨_, rfl, h.replace (c := { b with count := b.count - 1 }) hb rfl
        (Nat.sub_pos_of_lt (Nat.lt_of_not_le hmore)) ?_ fun k hk => (List.count_cons_of_ne (Ne.symm hk)).symm⟩
      rw [List.count_cons_self]
      simp only
      omega

/-- A new block takes over a reference of the client that makes it. -/
theorem Balanced.alloc {below : Option Nat} (h : Balanced a (below.toList ++ held))
    (hbelow : ∀ j, below = some j → j < a.blocks.length) :
    Balanced (a.alloc { count := 1, below } hbelow) (a.blocks.length :: held) := by
  have hnew : held.count a.blocks.length + a.uppers a.blocks.length = 0 := by
    refine Nat.eq_zero_of_not_pos fun hpos => ?_
    obtain ⟨b, hb⟩ := Option.isSome_iff_exists.mp (h.live a.blocks.length (by
      rw [List.count_append]
      omega))
    exact Nat.lt_irrefl _ (lt_of_block hb)
  have huppers (k : Nat) : (a.alloc { count := 1, below } hbelow).uppers k = a.uppers k + below.toList.count k :=
    uppers_alloc a _ hbelow k
  have hself : below.toList.count a.blocks.length = 0 := by
    refine List.count_eq_zero.mpr fun hmem => ?_
    exact Nat.lt_irrefl _ (hbelow _ (Option.mem_toList.mp hmem))
  have hcount (k : Nat) (hk : k ≠ a.blocks.length) :
      (a.blocks.length :: held).count k + (a.alloc { count := 1, below } hbelow).uppers k =
        (below.toList ++ held).count k + a.uppers k := by
    rw [List.count_cons_of_ne (Ne.symm hk), huppers, List.count_append]
    omega
  constructor
  · intro k b hb
    rw [block_alloc] at hb
    split at hb
    · rename_i heq
      subst heq
      cases hb
      rw [List.count_cons_self, huppers]
      simp only
      omega
    · rename_i hne
      rw [hcount k hne]
      exact h.counted k b hb
  · intro k hk
    rw [block_alloc]
    split
    · rfl
    · rename_i hne
      rw [hcount k hne] at hk
      exact h.live k hk
  · intro k b hb
    rw [block_alloc] at hb
    split at hb
    · cases hb
      exact Nat.one_pos
    · exact h.positive k b hb

/-- When the clients hold no reference, nothing is left: the newest block would have none. -/
theorem Balanced.none_left (h : Balanced a []) (i : Nat) : a.block i = none := by
  have hnewest : ∀ n k, a.blocks.length ≤ k + n → a.block k = none := by
    intro n
    induction n with
    | zero =>
      intro k hk
      rw [block, List.getElem?_eq_none (by omega)]
      rfl
    | succ n ih =>
      intro k hk
      refine Option.eq_none_iff_forall_ne_some.mpr fun b hb => ?_
      have hpositive := h.positive k b hb
      rw [h.counted k b hb, List.count_nil, Nat.zero_add] at hpositive
      obtain ⟨m, c, hm, hbelow⟩ := exists_upper hpositive
      have hlt := a.older m c k hm hbelow
      rw [ih m (by omega)] at hm
      cases hm
  exact hnewest a.blocks.length i (by omega)

end Arena

end Lib
