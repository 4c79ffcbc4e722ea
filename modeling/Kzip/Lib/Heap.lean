/-!
# Raw pointers and what they own

A heap numbers the blocks it hands out, and remembers every pointer that was released to it, also one that
it never handed out. Releases are in order if each is of a block that was handed out, and none of a block
released before (`Sound`). A pointer holds the heap if it is the only way to what is left of it (`HeldBy`):
`alloc` and `release` lead from one such pointer to the next.
-/

namespace Lib

variable {α : Type}

/-- Where a pointer leads: nowhere, to a block of the heap, or to data of the program. -/
inductive Ptr (α : Type) where
  | null
  | owned (k : Nat)
  | static (x : α)
  deriving DecidableEq, Repr

structure Heap (α : Type) where
  /-- What was handed out, in this order. -/
  blocks : List α
  released : List (Ptr α)
  deriving DecidableEq, Repr

namespace Heap

def empty : Heap α := { blocks := [], released := [] }

def alloc (h : Heap α) (x : α) : Ptr α × Heap α :=
  (.owned h.blocks.length, { h with blocks := h.blocks ++ [x] })

def release (h : Heap α) (p : Ptr α) : Heap α := { h with released := h.released ++ [p] }

structure Sound (h : Heap α) : Prop where
  owned : ∀ p ∈ h.released, ∃ k < h.blocks.length, p = .owned k
  once : h.released.Nodup

/-- Every block was released. -/
def NoneLeft (h : Heap α) : Prop := ∀ k < h.blocks.length, .owned k ∈ h.released

/-- No block is left but the one of the pointer. -/
structure HeldBy (h : Heap α) (p : Ptr α) : Prop where
  sound : h.Sound
  left : ∀ k < h.blocks.length, .owned k ∉ h.released ↔ p = .owned k
  valid : p = .null ∨ ∃ k < h.blocks.length, p = .owned k

variable {h : Heap α} {p : Ptr α}

theorem heldBy_empty : (empty : Heap α).HeldBy .null where
  sound := ⟨fun _ hp => absurd hp List.not_mem_nil, List.nodup_nil⟩
  left := fun _ hk => absurd hk (Nat.not_lt_zero _)
  valid := .inl rfl

theorem HeldBy.noneLeft (hp : h.HeldBy .null) : h.NoneLeft := by
  intro k hk
  by_cases hmem : Ptr.owned k ∈ h.released
  · exact hmem
  · have := (hp.left k hk).mp hmem
    simp at this

theorem HeldBy.alloc (hp : h.HeldBy .null) (x : α) : (h.alloc x).2.HeldBy (h.alloc x).1 := by
  have hlen : (h.alloc x).2.blocks.length = h.blocks.length + 1 := by simp [Heap.alloc]
  refine ⟨⟨fun q hq => ?_, hp.sound.once⟩, fun k hk => ?_, .inr ⟨h.blocks.length, by omega, rfl⟩⟩
  · obtain ⟨k, hk, rfl⟩ := hp.sound.owned q hq
    exact ⟨k, by omega, rfl⟩
  · show Ptr.owned k ∉ h.released ↔ Ptr.owned h.blocks.length = .owned k
    rw [Ptr.owned.injEq]
    refine ⟨fun hk' => ?_, ?_⟩
    · rcases Nat.lt_or_ge k h.blocks.length with hlt | hge
      · exact absurd (hp.noneLeft k hlt) hk'
      · omega
    -- the next block is not among those that were handed out, so it was not released
    · rintro rfl hmem
      obtain ⟨j, hj, heq⟩ := hp.sound.owned _ hmem
      rw [Ptr.owned.injEq] at heq
      omega

theorem HeldBy.release {k : Nat} (hp : h.HeldBy (.owned k)) : (h.release (.owned k)).HeldBy .null := by
  have hk : k < h.blocks.length := by
    obtain hnull | ⟨j, hj, heq⟩ := hp.valid
    · cases hnull
    · cases heq
      exact hj
  refine ⟨⟨fun q hq => ?_, ?_⟩, fun j hj => ?_, .inl rfl⟩
  · rcases List.mem_append.mp hq with hq | hq
    · exact hp.sound.owned q hq
    · exact ⟨k, hk, List.mem_singleton.mp hq⟩
  · refine List.nodup_append.mpr ⟨hp.sound.once, by simp, fun q hq q' hq' heq => ?_⟩
    rw [List.mem_singleton] at hq'
    subst hq' heq
    exact (hp.left k hk).mpr rfl hq
  · have hj' := hp.left j hj
    rw [Ptr.owned.injEq] at hj'
    simp only [Heap.release, List.mem_append, List.mem_singleton, Ptr.owned.injEq, reduceCtorEq, iff_false,
      Classical.not_not]
    by_cases hmem : Ptr.owned j ∈ h.released
    · exact .inl hmem
    · exact .inr (hj'.mp hmem).symm

/-- The heap never handed out data of the program. -/
theorem not_sound_of_static {x : α} (hmem : .static x ∈ h.released) : ¬ h.Sound := by
  intro hsound
  obtain ⟨k, -, heq⟩ := hsound.owned (.static x) hmem
  cases heq

end Heap

end Lib
