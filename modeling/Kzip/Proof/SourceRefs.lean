import Kzip.Spec.SourceRefs

/-!
# Who holds which source

As long as the clients use only sources that they hold, no call uses a source that was freed, every source
counts those that hold it, and it is freed when the last of them gives it up (`sources_accounted`). The
counts are those of an arena of `Kzip.Lib.Refcount`.
-/

namespace Kzip.Impl

open Lib Kzip.Spec

/-! ## The arena of the sources -/

def SourceNode.toCounted (n : SourceNode) : Arena.Counted :=
  { count := n.refcount.toInt.toNat, below := n.lower }

def Sources.arena (s : Sources) : Arena Arena.Counted := s.map SourceNode.toCounted fun _ => rfl

variable {s : Sources} {i : Nat} {n : SourceNode}

theorem arena_block (s : Sources) (i : Nat) : (Sources.arena s).block i = (s.block i).map SourceNode.toCounted :=
  Arena.block_map _ _ s i

theorem arena_uppers (s : Sources) (i : Nat) : (Sources.arena s).uppers i = s.uppers i :=
  Arena.uppers_map _ _ s i

theorem arena_free (s : Sources) (i : Nat) : Sources.arena (s.free i) = (Sources.arena s).free i :=
  Arena.map_put _ _ s i none nofun nofun

theorem arena_replace (h : s.block i = some n) (n' : SourceNode) (hn : n'.lower = n.lower)
    {c : Arena.Counted} (hc : n'.toCounted = c) (hs : (Sources.arena s).block i = some n.toCounted)
    (hbelow : c.below = n.toCounted.below) :
    Sources.arena (s.replace i h n' hn) = (Sources.arena s).replace i hs c hbelow := by
  subst hc
  exact Arena.map_put _ _ s i (some n') _ _

theorem keep_eq (h : s.block i = some n) :
    Sources.keep s i = some (s.replace i h { n with refcount := n.refcount + 1 } rfl) := by
  rw [Sources.keep]
  split
  · rename_i hnone
    rw [h] at hnone
    cases hnone
  · rename_i n' hn'
    cases h.symm.trans hn'
    rfl

theorem unref_none (h : s.block i = none) : Sources.unref s i = none := by
  rw [Sources.unref]
  split
  · rfl
  · rename_i n hn
    rw [h] at hn
    cases hn

theorem unref_eq (h : s.block i = some n) : Sources.unref s i =
    if n.refcount ≤ 1 then n.lower.elim (some (s.free i)) (Sources.unref (s.free i))
    else some (s.replace i h { n with refcount := n.refcount - 1 } rfl) := by
  rw [Sources.unref]
  split
  · rename_i hnone
    rw [h] at hnone
    cases hnone
  · rename_i n' hn'
    cases h.symm.trans hn'
    split
    · split
      · rename_i hlower
        rw [hlower]
        rfl
      · rename_i l hlower
        rw [hlower]
        rfl
    · rfl

theorem keep_arena (h : s.block i = some n) (hpositive : 0 < n.refcount.toInt)
    (hfits : n.refcount < Int32.maxValue) :
    (Sources.keep s i).map Sources.arena = (Sources.arena s).retain i := by
  have hs : (Sources.arena s).block i = some n.toCounted := by rw [arena_block, h, Option.map_some]
  have hadd : (n.refcount + 1).toInt = n.refcount.toInt + 1 := by
    rw [Int32.lt_iff_toInt_lt] at hfits
    have hmax : Int32.maxValue.toInt = 2 ^ 31 - 1 := rfl
    rw [Int32.toInt_add, show (1 : Int32).toInt = 1 from rfl, Int.bmod_eq_of_le (by omega) (by omega)]
  have hcount : (n.refcount + 1).toInt.toNat = n.refcount.toInt.toNat + 1 := by omega
  rw [keep_eq h, Arena.retain_eq hs, Option.map_some]
  exact congrArg some (arena_replace h { n with refcount := n.refcount + 1 } rfl
    (congrArg (Arena.Counted.mk · n.lower) hcount) hs rfl)

theorem unref_arena (s : Sources) (i : Nat) :
    (Sources.unref s i).map Sources.arena = (Sources.arena s).release i := by
  induction i using Nat.strongRecOn generalizing s with
  | _ i ih =>
    cases h : s.block i with
    | none =>
      have hs : (Sources.arena s).block i = none := by rw [arena_block, h, Option.map_none]
      rw [unref_none h, Arena.release_none hs, Option.map_none]
    | some n =>
      have hs : (Sources.arena s).block i = some n.toCounted := by rw [arena_block, h, Option.map_some]
      have hlast : n.refcount ≤ 1 ↔ n.toCounted.count ≤ 1 := by
        show n.refcount ≤ 1 ↔ n.refcount.toInt.toNat ≤ 1
        rw [Int32.le_iff_toInt_le, show (1 : Int32).toInt = 1 from rfl]
        omega
      rw [unref_eq h, Arena.release_eq hs]
      by_cases hle : n.refcount ≤ 1
      · rw [if_pos hle, if_pos (hlast.mp hle), show n.toCounted.below = n.lower from rfl, ← arena_free]
        cases hlower : n.lower with
        | none => rfl
        | some l => exact ih l (s.older i n l h hlower) (s.free i)
      · have hsub : (n.refcount - 1).toInt.toNat = n.refcount.toInt.toNat - 1 := by
          rw [Int32.toInt_sub_of_le n.refcount 1 (by decide) (Int32.le_of_lt (Int32.not_le.mp hle)),
            show (1 : Int32).toInt = 1 from rfl]
          omega
        rw [if_neg hle, if_neg (mt hlast.mpr hle), Option.map_some]
        exact congrArg some (arena_replace h { n with refcount := n.refcount - 1 } rfl
          (congrArg (Arena.Counted.mk · n.lower) hsub) hs rfl)

/-! ## The clients -/

variable {held : List Nat}

/-- The sources count those that hold them. -/
abbrev Balances (c : Clients) : Prop := (Sources.arena c.sources).Balanced c.held

theorem exists_block (h : (Sources.arena s).Balanced held) (hi : i ∈ held) :
    ∃ n, s.block i = some n ∧ 0 < n.refcount.toInt := by
  obtain ⟨b, hb⟩ := h.block_of_mem hi
  have hpositive := h.positive i b hb
  rw [arena_block, Option.map_eq_some_iff] at hb
  obtain ⟨n, hn, rfl⟩ := hb
  exact ⟨n, hn, Int.lt_toNat.mp hpositive⟩

theorem reaches_of_mem (h : (Sources.arena s).Balanced held) (hi : i ∈ held) : s.reaches i = true := by
  obtain ⟨b, hb⟩ := h.block_of_mem hi
  exact (Arena.reaches_map _ _ s i).symm.trans (h.reaches hb)

theorem keep_balanced (h : (Sources.arena s).Balanced held) (hi : i ∈ held)
    (hfits : ∀ n, s.block i = some n → n.refcount < Int32.maxValue) :
    ∃ s', Sources.keep s i = some s' ∧ (Sources.arena s').Balanced (i :: held) := by
  obtain ⟨n, hn, hpositive⟩ := exists_block h hi
  obtain ⟨a, ha, hbalanced⟩ := h.retain hi
  rw [← keep_arena hn hpositive (hfits n hn)] at ha
  obtain ⟨s', hs', rfl⟩ := Option.map_eq_some_iff.mp ha
  exact ⟨s', hs', hbalanced⟩

/-- A client gives a reference up. -/
theorem unref_balanced (h : (Sources.arena s).Balanced held) (hi : i ∈ held) :
    ∃ s', Sources.unref s i = some s' ∧ (Sources.arena s').Balanced (held.erase i) := by
  obtain ⟨a, ha, hbalanced⟩ := (h.perm (List.perm_cons_erase hi)).release
  rw [← unref_arena] at ha
  obtain ⟨s', hs', rfl⟩ := Option.map_eq_some_iff.mp ha
  exact ⟨s', hs', hbalanced⟩

/-- A new source, which takes a reference over from the client that makes it. -/
theorem new_balanced (lower : Option Nat) (h : (Sources.arena s).Balanced (lower.toList ++ held))
    (hlower : ∀ l, lower = some l → l < s.blocks.length) :
    (Sources.arena (s.alloc (.new lower) hlower)).Balanced (s.blocks.length :: held) := by
  have hlen : (Sources.arena s).blocks.length = s.blocks.length := Arena.length_map ..
  have halloc : Sources.arena (s.alloc (.new lower) hlower) =
      (Sources.arena s).alloc { count := 1, below := lower } (hlen ▸ hlower) :=
    Arena.map_alloc _ _ s (.new lower) hlower (hlen ▸ hlower)
  have hnew : s.blocks.length :: held = (Sources.arena s).blocks.length :: held := by rw [hlen]
  rw [halloc, hnew]
  exact h.alloc (hlen ▸ hlower)

variable {c : Clients}

theorem step_layered (h : Balances c) (src : Option Nat) (supports : Option Int64)
    (hsrc : ∀ i ∈ src, i ∈ c.held) :
    ∃ c', c.step (.layered src supports) = some c' ∧ Balances c' := by
  cases src with
  | none => exact ⟨_, rfl, h⟩
  | some lower =>
    cases supports with
    | none => exact ⟨_, rfl, h⟩
    | some supports =>
      have hmem := hsrc lower rfl
      have hreaches := reaches_of_mem h hmem
      simp only [Clients.step, zipSourceLayeredCreate, dif_pos hreaches]
      by_cases hneg : supports < 0
      · rw [if_pos hneg]
        exact ⟨_, rfl, h⟩
      · rw [if_neg hneg]
        exact ⟨_, rfl, new_balanced _ (h.perm (List.perm_cons_erase hmem)) fun _ hl =>
          Option.some.inj hl ▸ Arena.lt_of_reaches hreaches⟩

theorem step_window (h : Balances c) (src : Option Nat) (reads inside : Bool) (hsrc : ∀ i ∈ src, i ∈ c.held) :
    ∃ c', c.step (.window src reads inside) = some c' ∧ Balances c' := by
  cases src with
  | none => cases reads <;> exact ⟨_, rfl, h⟩
  | some lower =>
    have hmem := hsrc lower rfl
    have hreaches := reaches_of_mem h hmem
    simp only [Clients.step, Sources.windowCreate, hreaches, Bool.not_true, Bool.false_eq_true, if_false]
    cases reads with
    | false => exact ⟨_, rfl, h⟩
    | true =>
      obtain ⟨s', hs', hbalanced⟩ := unref_balanced h hmem
      simp only [zipSourceFree, hs', Bool.not_true, Bool.false_eq_true, if_false, Option.map_some]
      cases inside with
      | false => exact ⟨_, rfl, hbalanced⟩
      | true => exact ⟨_, rfl, new_balanced none hbalanced nofun⟩

/-- A call of a client that holds the source it is on. -/
theorem step_balanced (h : Balances c) {x : RefCall} (hx : c.Permitted x) :
    ∃ c', c.step x = some c' ∧ Balances c' := by
  cases x with
  | create => exact ⟨_, rfl, new_balanced none h nofun⟩
  | keep src =>
    cases src with
    | none => exact ⟨_, rfl, h⟩
    | some i =>
      obtain ⟨s', hs', hbalanced⟩ := keep_balanced h (hx.held i rfl) (hx.fits i rfl)
      exact ⟨_, congrArg (Option.map _) hs', hbalanced⟩
  | free src =>
    cases src with
    | none => exact ⟨_, rfl, h⟩
    | some i =>
      obtain ⟨s', hs', hbalanced⟩ := unref_balanced h (hx.held i rfl)
      exact ⟨_, congrArg (Option.map _) hs', hbalanced⟩
  | use src =>
    have hall : src.all c.sources.reaches = true := by
      cases src with
      | none => rfl
      | some i => exact reaches_of_mem h (hx.held i rfl)
    exact ⟨c, if_pos hall, h⟩
  | layered src supports => exact step_layered h src supports hx.held
  | window src reads inside => exact step_window h src reads inside hx.held

theorem accounted_of_balanced (h : Balances c) : Accounted c where
  counted := fun i n hn => by
    have hb : (Sources.arena c.sources).block i = some n.toCounted := by rw [arena_block, hn, Option.map_some]
    have hcount := h.counted i _ hb
    have hpositive := h.positive i _ hb
    rw [arena_uppers] at hcount
    have hint : n.refcount.toInt = n.toCounted.count :=
      (Int.toNat_of_nonneg (Int.le_of_lt (Int.lt_toNat.mp hpositive))).symm
    rw [hint, hcount, Nat.cast_add]
  there := fun i => by
    have hsome : (c.sources.block i).isSome = ((Sources.arena c.sources).block i).isSome := by
      rw [arena_block, Option.isSome_map]
    rw [hsome, ← arena_uppers]
    refine ⟨fun hblock => ?_, h.live i⟩
    obtain ⟨b, hb⟩ := Option.isSome_iff_exists.mp hblock
    rw [← h.counted i b hb]
    exact h.positive i b hb
  usable := fun _ hi => reaches_of_mem h hi
  released := fun hnone i => by
    have hbalanced : (Sources.arena c.sources).Balanced [] := hnone ▸ h
    have hblock := hbalanced.none_left i
    rwa [arena_block, Option.map_eq_none_iff] at hblock

/-- Whatever the clients do with the sources that they hold, in whatever order: no call uses a source that was
freed, and every source is there exactly as long as it is held. -/
theorem sources_accounted {calls : List RefCall}
    (hcalls : Along Clients.call (fun c x => ∀ d ∈ c, Clients.Permitted d x) (some .fresh) calls) :
    ∃ c, calls.foldl Clients.call (some .fresh) = some c ∧ Accounted c := by
  have hfresh : ∃ c, some Clients.fresh = some c ∧ Balances c := ⟨_, rfl, Arena.balanced_empty⟩
  obtain ⟨c, hc, hbalanced⟩ := hcalls.invariant (I := fun c => ∃ d, c = some d ∧ Balances d)
    (fun c x hI hx => by
      obtain ⟨d, rfl, hd⟩ := hI
      exact step_balanced hd (hx d rfl)) hfresh
  exact ⟨c, hc, accounted_of_balanced hbalanced⟩

/-- Two layers over a source that the client keeps a reference to, and a window over the upper one. -/
def layerCalls : List RefCall :=
  [.create, .keep (some 0), .layered (some 0) (some 7), .layered (some 1) (some 7), .use (some 2),
    .window (some 2) true true, .free (some 0), .free (some 3)]

theorem sources_accounted_sample :
    ∃ c, layerCalls.foldl Clients.call (some .fresh) = some c ∧ Accounted c :=
  sources_accounted (by decide +kernel)

end Kzip.Impl
