import Kzip.Lib.Except
import Kzip.Lib.LittleEndian

/-!
# Parsers over a byte list

A `Cursor` reads a prefix of a byte list and leaves the rest. `Reads p bs a` says that `p` consumes
exactly `bs` and returns `a`, whatever follows; a parser written as a sequence of reads is shown to
invert an encoder that appends the same fields by chaining `Reads.bind`. `bind_ok` is the other
direction: it takes a successful run apart.
-/

namespace Lib

/-- A parser that consumes a prefix of a byte list or fails with an `ε`. -/
abbrev Cursor (ε α : Type) := StateT (List UInt8) (Except ε) α

namespace Cursor

variable {ε α β : Type}

/-- The next `n` bytes, or `e` when fewer are left. -/
def take (n : Nat) (e : ε) : Cursor ε (List UInt8) := fun s =>
  if n ≤ s.length then .ok (s.take n, s.drop n) else .error e

def u16 (e : ε) : Cursor ε UInt16 := fun s => (take 2 e s).map fun r => (LE.u16 r.1, r.2)
def u32 (e : ε) : Cursor ε UInt32 := fun s => (take 4 e s).map fun r => (LE.u32 r.1, r.2)
def u64 (e : ε) : Cursor ε UInt64 := fun s => (take 8 e s).map fun r => (LE.u64 r.1, r.2)

/-- A result that does not depend on the input. -/
def lift (x : Except ε α) : Cursor ε α := fun s => x.map fun a => (a, s)

/-- Runs `p` on a buffer of its own and leaves the input alone. -/
def within (buf : List UInt8) (p : Cursor ε α) : Cursor ε α := fun s =>
  (p buf).map fun r => (r.1, s)

/-- A read that is skipped when `c` is false, with `a` as its value then. -/
def readIf (c : Bool) (p : Cursor ε α) (a : α) : Cursor ε α := if c then p else pure a

/-! ## Successful runs -/

theorem bind_ok {p : Cursor ε α} {f : α → Cursor ε β} {s r : List UInt8} {b : β} :
    (p >>= f) s = .ok (b, r) ↔ ∃ a s', p s = .ok (a, s') ∧ f a s' = .ok (b, r) := by
  constructor
  · intro h
    cases hp : p s with
    | error e => simp [bind, StateT.bind, Except.bind, hp] at h
    | ok x => exact ⟨x.1, x.2, rfl, by simpa [bind, StateT.bind, Except.bind, hp] using h⟩
  · rintro ⟨a, s', hp, hf⟩
    simpa [bind, StateT.bind, Except.bind, hp] using hf

theorem pure_ok {a b : α} {s r : List UInt8} :
    (pure a : Cursor ε α) s = .ok (b, r) ↔ a = b ∧ s = r := by
  show (Except.ok (a, s) : Except ε (α × List UInt8)) = .ok (b, r) ↔ _
  rw [Except.ok.injEq, Prod.mk.injEq]

theorem throw_ok {e : ε} {b : α} {s r : List UInt8} :
    ¬ (throw e : Cursor ε α) s = .ok (b, r) := by
  simp [throw, throwThe, MonadExceptOf.throw, StateT.lift, bind, Except.bind]

theorem take_ok {n : Nat} {e : ε} {bs s r : List UInt8} :
    take n e s = .ok (bs, r) ↔ s = bs ++ r ∧ bs.length = n := by
  simp only [take]
  split
  · rename_i h
    simp only [Except.ok.injEq, Prod.mk.injEq]
    constructor
    · rintro ⟨rfl, rfl⟩
      exact ⟨(List.take_append_drop n s).symm, List.length_take_of_le h⟩
    · rintro ⟨rfl, rfl⟩
      exact ⟨List.take_left, List.drop_left⟩
  · rename_i h
    simp only [reduceCtorEq, false_iff, not_and]
    rintro rfl rfl
    simp only [List.length_append] at h
    omega

theorem u64_ok {e : ε} {x : UInt64} {s r : List UInt8} :
    u64 e s = .ok (x, r) ↔ s = LE.le64 x ++ r := by
  constructor
  · intro h
    obtain ⟨⟨bs, t⟩, ht, hx⟩ := map_ok.mp h
    obtain ⟨rfl, hl⟩ := take_ok.mp ht
    cases hx
    rw [LE.le64_u64 hl]
  · rintro rfl
    simp only [u64, take_ok.mpr ⟨rfl, LE.length_le64 x⟩, Except.map, LE.u64_le64]

theorem u32_ok {e : ε} {x : UInt32} {s r : List UInt8} :
    u32 e s = .ok (x, r) ↔ s = LE.le32 x ++ r := by
  constructor
  · intro h
    obtain ⟨⟨bs, t⟩, ht, hx⟩ := map_ok.mp h
    obtain ⟨rfl, hl⟩ := take_ok.mp ht
    cases hx
    rw [LE.le32_u32 hl]
  · rintro rfl
    simp only [u32, take_ok.mpr ⟨rfl, LE.length_le32 x⟩, Except.map, LE.u32_le32]

theorem u16_ok {e : ε} {x : UInt16} {s r : List UInt8} :
    u16 e s = .ok (x, r) ↔ s = LE.le16 x ++ r := by
  constructor
  · intro h
    obtain ⟨⟨bs, t⟩, ht, hx⟩ := map_ok.mp h
    obtain ⟨rfl, hl⟩ := take_ok.mp ht
    cases hx
    rw [LE.le16_u16 hl]
  · rintro rfl
    simp only [u16, take_ok.mpr ⟨rfl, LE.length_le16 x⟩, Except.map, LE.u16_le16]

theorem lift_ok {x : Except ε α} {a : α} {s r : List UInt8} :
    lift x s = .ok (a, r) ↔ x = .ok a ∧ s = r := by
  cases x <;> simp [lift, Except.map]

theorem within_ok {buf : List UInt8} {p : Cursor ε α} {a : α} {s r : List UInt8} :
    within buf p s = .ok (a, r) ↔ (∃ t, p buf = .ok (a, t)) ∧ s = r := by
  cases h : p buf <;> simp [within, Except.map, h, Prod.ext_iff]

/-- Two sequences agree where their continuations agree on what the first step returns. -/
theorem bind_congr {p : Cursor ε α} {f g : α → Cursor ε β} {s : List UInt8}
    (h : ∀ a s', p s = .ok (a, s') → f a s' = g a s') : (p >>= f) s = (p >>= g) s := by
  simp only [bind, StateT.bind, Except.bind]
  cases hp : p s with
  | error e => rfl
  | ok r => exact h r.1 r.2 hp

theorem run_ok {p : Cursor ε α} {f : α → Cursor ε β} {a : α} {s s' : List UInt8}
    (h : p s = .ok (a, s')) : (p >>= f) s = f a s' := by
  simp only [bind, StateT.bind, Except.bind, h]

theorem lift_ok_bind {a : α} {f : α → Cursor ε β} {s : List UInt8} :
    (lift (.ok a : Except ε α) >>= f) s = f a s := rfl

/-! ## Failing runs -/

/-- `p` fails with `e` only. -/
def FailsOnly (p : Cursor ε α) (e : ε) : Prop := ∀ s e', p s = .error e' → e' = e

theorem FailsOnly.pure (a : α) (e : ε) : FailsOnly (Pure.pure a : Cursor ε α) e := nofun

theorem FailsOnly.bind {p : Cursor ε α} {f : α → Cursor ε β} {e : ε} (hp : FailsOnly p e)
    (hf : ∀ a, FailsOnly (f a) e) : FailsOnly (p >>= f) e := by
  intro s e' h
  simp only [Bind.bind, StateT.bind, Except.bind] at h
  cases hps : p s with
  | error e'' =>
    rw [hps] at h
    cases h
    exact hp s e' hps
  | ok r =>
    rw [hps] at h
    exact hf r.1 r.2 e' h

theorem FailsOnly.take (n : Nat) (e : ε) : FailsOnly (Cursor.take n e) e := by
  intro s e' h
  simp only [Cursor.take] at h
  split at h
  · cases h
  · cases h; rfl

theorem FailsOnly.u32 (e : ε) : FailsOnly (Cursor.u32 e) e := by
  intro s e' h
  simp only [Cursor.u32] at h
  cases ht : Cursor.take 4 e s with
  | error e'' =>
    rw [ht] at h
    cases h
    exact FailsOnly.take 4 e s e' ht
  | ok r => rw [ht] at h; cases h

theorem FailsOnly.u64 (e : ε) : FailsOnly (Cursor.u64 e) e := by
  intro s e' h
  simp only [Cursor.u64] at h
  cases ht : Cursor.take 8 e s with
  | error e'' =>
    rw [ht] at h
    cases h
    exact FailsOnly.take 8 e s e' ht
  | ok r => rw [ht] at h; cases h

theorem FailsOnly.readIf {c : Bool} {p : Cursor ε α} {a : α} {e : ε} (hp : FailsOnly p e) :
    FailsOnly (Cursor.readIf c p a) e := by
  cases c
  · exact FailsOnly.pure a e
  · exact hp

/-- A sequence fails with `e` only if one of its steps does. -/
theorem bind_ne_error {p : Cursor ε α} {f : α → Cursor ε β} {e : ε} {s : List UInt8}
    (hp : p s ≠ .error e) (hf : ∀ a s', p s = .ok (a, s') → f a s' ≠ .error e) :
    (p >>= f) s ≠ .error e :=
  Lib.bind_ne_error hp fun r hr => hf r.1 r.2 hr

/-- `p` succeeds on every input of `n` bytes or more, and consumes `n` of them. -/
def Needs (p : Cursor ε α) (n : Nat) : Prop :=
  ∀ s, n ≤ s.length → ∃ a, p s = .ok (a, s.drop n)

theorem Needs.pure (a : α) : Needs (Pure.pure a : Cursor ε α) 0 := fun _ _ => ⟨a, rfl⟩

theorem Needs.bind {p : Cursor ε α} {f : α → Cursor ε β} {m n : Nat} (hp : Needs p m)
    (hf : ∀ a, Needs (f a) n) : Needs (p >>= f) (m + n) := by
  intro s hs
  obtain ⟨a, ha⟩ := hp s (by omega)
  obtain ⟨b, hb⟩ := hf a (s.drop m) (by rw [List.length_drop]; omega)
  exact ⟨b, bind_ok.mpr ⟨a, _, ha, by rw [hb, List.drop_drop]⟩⟩

theorem Needs.u16 (e : ε) : Needs (Cursor.u16 e) 2 := fun s hs =>
  ⟨LE.u16 (s.take 2), by simp only [Cursor.u16, Cursor.take, hs, ↓reduceIte, Except.map]⟩

theorem Needs.u32 (e : ε) : Needs (Cursor.u32 e) 4 := fun s hs =>
  ⟨LE.u32 (s.take 4), by simp only [Cursor.u32, Cursor.take, hs, ↓reduceIte, Except.map]⟩

/-! ## Exact reads -/

/-- `p` consumes exactly `bs` and returns `a`, whatever follows. -/
def Reads (p : Cursor ε α) (bs : List UInt8) (a : α) : Prop :=
  ∀ rest, p (bs ++ rest) = .ok (a, rest)

theorem Reads.pure (a : α) : Reads (Pure.pure a : Cursor ε α) [] a := fun _ => rfl

/-- A sequence runs its first step on the bytes that step consumes, and the rest on what follows. -/
theorem Reads.run {p : Cursor ε α} {f : α → Cursor ε β} {bs : List UInt8} {a : α}
    (hp : Reads p bs a) (rest : List UInt8) : (p >>= f) (bs ++ rest) = f a rest := by
  simp only [Bind.bind, StateT.bind, Except.bind, hp rest]

theorem Reads.bind {p : Cursor ε α} {f : α → Cursor ε β} {bs cs : List UInt8} {a : α} {b : β}
    (hp : Reads p bs a) (hf : Reads (f a) cs b) : Reads (p >>= f) (bs ++ cs) b := fun rest => by
  rw [List.append_assoc, hp.run, hf rest]

/-- The last read of a sequence. -/
theorem Reads.last {p : Cursor ε α} {f : α → β} {bs : List UInt8} {a : α} (hp : Reads p bs a) :
    Reads (p >>= fun x => Pure.pure (f x)) bs (f a) := by
  simpa only [List.append_nil] using hp.bind (f := fun x => Pure.pure (f x)) (Reads.pure (f a))

theorem Reads.take {n : Nat} {e : ε} {bs : List UInt8} (h : bs.length = n) :
    Reads (Cursor.take n e) bs bs := fun _ => take_ok.mpr ⟨rfl, h⟩

/-- A read that is skipped leaves the input alone. -/
theorem readIf_ok {c : Bool} {p : Cursor ε α} {a b : α} {s r : List UInt8} :
    readIf c p a s = .ok (b, r) ↔ if c then p s = .ok (b, r) else a = b ∧ s = r := by
  cases c
  · simp only [readIf, Bool.false_eq_true, ↓reduceIte, pure_ok]
  · simp only [readIf, ↓reduceIte]

theorem Reads.u16 (e : ε) (x : UInt16) : Reads (Cursor.u16 e) (LE.le16 x) x := fun rest => by
  simp only [Cursor.u16, Reads.take (LE.length_le16 x) rest, Except.map, LE.u16_le16]

theorem Reads.u32 (e : ε) (x : UInt32) : Reads (Cursor.u32 e) (LE.le32 x) x := fun rest => by
  simp only [Cursor.u32, Reads.take (LE.length_le32 x) rest, Except.map, LE.u32_le32]

theorem Reads.within {buf : List UInt8} {p : Cursor ε α} {a : α} (h : Reads p buf a)
    (tail : List UInt8) :
    Reads (Cursor.within (buf ++ tail) p) [] a :=
  fun _ => within_ok.mpr ⟨⟨tail, h tail⟩, rfl⟩

end Cursor

end Lib
