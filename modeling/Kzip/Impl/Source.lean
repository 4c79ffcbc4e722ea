import Kzip.Impl.Extern

/-!
# Byte sources

A source is a byte string behind one of the backings the crate opens archives from. They differ in
what they expose to the readers (`asSlice`, `sharedData`) and in the seeks they accept.
-/

namespace Kzip.Impl

/-- What a source is backed by. -/
inductive SourceKind where
  /-- `Cursor<Vec<u8>>` or `Cursor<Box<[u8]>>`. -/
  | vec
  /-- `Cursor<Arc<[u8]>>`. -/
  | arc
  /-- `File`; whether the system maps it. -/
  | file (maps : Bool)
  /-- `MmapSource`. -/
  | mmap
  /-- `SharedFile`, with a handle for each reader. The readers of the source share one, which differs
  only in a reader at position `u64::MAX` (`shared_eq_private_iff`). -/
  | shared
  deriving DecidableEq, Repr

structure Source where
  kind : SourceKind
  bytes : Bytes
  deriving DecidableEq, Repr

/-- The source as one slice. -/
def Source.asSlice (s : Source) : Option Bytes :=
  match s.kind with
  | .vec | .arc | .mmap => some s.bytes
  | .file _ | .shared => none

/-- The bytes as a reference-counted backing that readers share. -/
def Source.sharedData (s : Source) : Option Bytes :=
  match s.kind with
  | .arc | .mmap => some s.bytes
  | .vec | .file _ | .shared => none

/-- Whether a seek to `pos` succeeds; the system takes no file offset from `2 ^ 63` on. -/
def Source.canSeek (s : Source) (pos : Nat) : Bool :=
  match s.kind with
  | .file _ | .shared => pos < 2 ^ 63
  | .vec | .arc | .mmap => true

/-- `read_exact` of `n` bytes at `pos`. -/
def Source.readExact (s : Source) (pos n : Nat) : Option Bytes :=
  if n = 0 then some []
  else if pos + n ≤ s.bytes.length then some ((s.bytes.drop pos).take n)
  else none

/-- Seeks to `pos` and reads exactly `n` bytes. -/
def Source.readAt (s : Source) (pos n : Nat) : Result Bytes :=
  if n ≠ 0 ∧ !s.canSeek pos then .error (.err .read)
  else
    match s.readExact pos n with
    | some bs => .ok bs
    | none => .error (.err .eof)

/-- The source the entry readers use after `Archive::open`: a mapping where the system maps the
file, else the shared handle. -/
def Source.forEntries (s : Source) : Source :=
  match s.kind with
  | .file true => { s with kind := .mmap }
  | .file false => { s with kind := .shared }
  | .vec | .arc | .mmap | .shared => s

@[simp] theorem Source.forEntries_bytes (s : Source) : s.forEntries.bytes = s.bytes := by
  unfold forEntries
  split <;> rfl

theorem Source.asSlice_eq {s : Source} {bs : Bytes} (h : s.asSlice = some bs) : bs = s.bytes := by
  unfold asSlice at h
  split at h <;> cases h <;> rfl

theorem Source.sharedData_eq {s : Source} {bs : Bytes} (h : s.sharedData = some bs) :
    bs = s.bytes := by
  unfold sharedData at h
  split at h <;> cases h <;> rfl

/-- A source that is a slice is used for the entries as it is. -/
theorem Source.forEntries_of_asSlice {s : Source} (h : s.asSlice.isSome) : s.forEntries = s := by
  revert h
  unfold asSlice forEntries
  split <;> rename_i hkind <;> simp [hkind]

theorem Source.canSeek_of_lt (s : Source) {pos : Nat} (h : pos < 2 ^ 63) : s.canSeek pos = true := by
  unfold canSeek
  split
  all_goals first | rfl | exact decide_eq_true h

theorem Source.readExact_ok {s : Source} {pos n : Nat} (h : pos + n ≤ s.bytes.length) :
    s.readExact pos n = some ((s.bytes.drop pos).take n) := by
  by_cases hn : n = 0 <;> simp [readExact, hn, h]

end Kzip.Impl
