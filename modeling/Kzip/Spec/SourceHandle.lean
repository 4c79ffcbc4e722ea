import Kzip.Impl.SourceHandle

/-!
# What a failing call leaves behind

Ownership of a source passes to a call when the call succeeds. A call that fails leaves its caller what it
had, and the archive as it was.
-/

namespace Kzip.Spec

open Kzip.Impl

variable {σ : Type}

/-- The bytes that a source yields when it is opened and read to its end. -/
def Yields (C : Callback σ) (s : SourceHandle σ) (bs : Bytes) : Prop :=
  ∃ rounds data s', s.readAll C rounds = some (.ok data, s') ∧ data.val = bs

/-- What a source is to the one who owns it: the bytes it yields, if it yields any, and its reference count.
There is nothing to own behind a null pointer, nor in a source that was freed. -/
def held (C : Callback σ) (source : Option (SourceHandle σ)) : Option ((Bytes → Prop) × Int32) :=
  source.map fun s => (Yields C s, s.refcount)

/-- The calls that take a source or record an entry. -/
inductive TakingCall where
  | fileAdd (name : Option Bytes) (flags : UInt32)
  | fileReplace (index : Nat)
  | dirAdd (name : Option Bytes)
  | windowCreate (offset : UInt64) (len : Int64) (errorp : Option ZipErrorCode)

structure Outcome (σ : Type) where
  failed : Bool
  source : Option (SourceHandle σ)
  pending : PendingOps

def TakingCall.run (X : Extern) (C : Callback σ) (rounds : Nat) (z : Zip)
    (source : Option (SourceHandle σ)) : TakingCall → Option (Outcome σ)
  | .fileAdd name flags =>
    (zipFileAdd C rounds z name source flags).map fun r => ⟨r.1 = -1, r.2.2, r.2.1.pending⟩
  | .fileReplace index =>
    (zipFileReplace C rounds z index source).map fun r => ⟨r.1 = -1, r.2.2, r.2.1.pending⟩
  | .dirAdd name => some ⟨(z.dirAdd name).1 = -1, source, (z.dirAdd name).2.pending⟩
  | .windowCreate offset len errorp =>
    (zipSourceWindowCreate X C rounds source offset len errorp).map fun r =>
      ⟨r.1.isNone, r.2.1, z.pending⟩

/-- If the call fails, its caller still has what it had, and the pending edits are the same. -/
def FailsIntact (X : Extern) (C : Callback σ) (z : Zip) (source : Option (SourceHandle σ))
    (call : TakingCall) : Prop :=
  ∀ rounds o, call.run X C rounds z source = some o → o.failed = true →
    held C o.source = held C source ∧ o.pending = z.pending

/-- The source in memory whose buffer a call would move out. -/
def Movable (s : SourceHandle σ) : Prop := ∃ m mtime, s.backend = .memory m mtime ∧ m.data.val ≠ []

/-- A name that an add must not use: it is taken, and the add is not one that overwrites. -/
def Taken (z : Zip) (name : Lib.Utf8.Str) (flags : UInt32) : Prop :=
  (z.archive.nameLocate name).isSome = true ∧ flags &&& zipFlOverwrite = 0

/-- Reading the source `s` in the state `s₀` gives a result for which the call fails, and leaves `s` yielding
other bytes: its callback can be opened only once, for example. -/
def Spent (C : Callback σ) (s s₀ : SourceHandle σ) (fails : Result Vec → Prop) : Prop :=
  ∃ rounds r s', s₀.readAll C rounds = some (r, s') ∧ fails r ∧ held C (some s') ≠ held C (some s)

/-- The calls that lose a source they refuse: one that adds a non-empty buffer under a name that is taken,
one that opens a window past the end of the source, and one that reads a callback which yields other bytes
afterwards. -/
def LosesSource (C : Callback σ) (z : Zip) (source : Option (SourceHandle σ)) : TakingCall → Prop
  | .fileAdd name flags =>
    z.readOnly = false ∧ ∃ n s, cStr name = some n ∧ source = some s ∧
      (Movable s ∧ Taken z n flags ∨
        ∃ ud, s.backend = .callback ud ∧ Spent C s s fun r => r.toOption = none ∨ Taken z n flags)
  | .fileReplace index =>
    z.readOnly = false ∧ index < z.archive.len ∧ ∃ s ud, source = some s ∧ s.backend = .callback ud ∧
      Spent C s s fun r => r.toOption = none
  | .windowCreate offset _ _ =>
    ∃ s, source = some s ∧
      ((∃ bs, Yields C (s.dispatchStat C).2 bs ∧ bs.length < offset.toNat) ∨
        Spent C s (s.dispatchStat C).2 fun r => r.toOption = none)
  | .dirAdd _ => False

/-- Every callback can be read to an end, whatever it gives. -/
def ReadsEnd (C : Callback σ) : Prop :=
  ∀ ud refcount, ∃ rounds r, ({ backend := .callback ud, refcount } : SourceHandle σ).readAll C rounds = some r

end Kzip.Spec
