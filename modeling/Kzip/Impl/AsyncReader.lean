import Kzip.Impl.File

/-!
# The asynchronous entry reader

`AsyncEntryReader` bridges the reader of an entry to polls: a blocking task owns the reader while it
reads a chunk, and sends it back with the bytes, which polls then serve. The reader is any type `ρ`
with a read of a chunk; `EntryReader.readChunk` is the one of the crate.
-/

namespace Kzip.Impl

/-- The length of the buffer that a task reads into. -/
def chunk : Nat := 8192

/-- A read of an entry reader into a chunk; the schedule says how much a streaming decoder has ready
at each read. -/
def EntryReader.readChunk (X : Extern) (ready : Nat → Nat) (r : Nat × EntryReader) :
    Except IoError Bytes × Nat × EntryReader :=
  let (result, reader) := r.2.read X { len := chunk, ready := ready r.1 }
  (result, r.1 + 1, reader)

/-- What a task sends: the reader, and what its read returned, with the bytes of its buffer. -/
abbrev ReadResult (ρ : Type) := ρ × Except IoError Bytes

structure AsyncEntryReader (ρ : Type) where
  inner : Option ρ
  /-- The message of the task in flight. -/
  pending : Option (ReadResult ρ)
  staging : Bytes
  stagingPos : Nat

/-- What polling the receiver of a task gives: nothing yet, its message, or that it was dropped. -/
inductive Receiver where
  | pending
  | ready
  | cancelled
  deriving DecidableEq

/-- A call of `poll_read`: the room in the caller's buffer, and the state of the task, if the call polls
one. No call polls its receiver twice. -/
structure Poll where
  room : Nat
  receiver : Receiver

/-- What `poll_read` returns: the bytes it put into the buffer, or an error. -/
inductive PollOut where
  | pending
  | ready (bs : Bytes)
  | error (e : IoError)
  deriving DecidableEq

namespace AsyncEntryReader

variable {ρ : Type}

def new (reader : ρ) : AsyncEntryReader ρ :=
  { inner := some reader, pending := none, staging := [], stagingPos := 0 }

/-- Bytes of `staging` for a buffer with this room; `none` when there are none to serve. -/
def serveBuffered (s : AsyncEntryReader ρ) (room : Nat) : Option (Bytes × AsyncEntryReader ρ) :=
  let avail := s.staging.length - s.stagingPos
  let n := min avail room
  if s.stagingPos < s.staging.length ∧ n > 0 then
    some ((s.staging.drop s.stagingPos).take n,
      if s.stagingPos + n = s.staging.length then { s with staging := [], stagingPos := 0 }
      else { s with stagingPos := s.stagingPos + n })
  else none

/-- Takes the message of a task; the error of its read, if it failed. -/
def finishRead (s : AsyncEntryReader ρ) (msg : ReadResult ρ) : Option IoError × AsyncEntryReader ρ :=
  match msg.2 with
  | .error e => (some e, { s with inner := none, pending := none })
  | .ok bs =>
    if bs = [] then (none, { inner := none, pending := none, staging := [], stagingPos := 0 })
    else (none, { inner := some msg.1, pending := none, staging := bs, stagingPos := 0 })

/-- How far the loop of `poll_read` still has to go. -/
def phase (s : AsyncEntryReader ρ) : Nat :=
  if s.pending.isSome then 1 else if s.inner.isSome ∧ s.staging.length ≤ s.stagingPos then 2 else 0

theorem phase_finishRead (s : AsyncEntryReader ρ) (msg : ReadResult ρ) :
    (s.finishRead msg).2.phase = 0 := by
  unfold finishRead
  split
  · rfl
  · rename_i bs _
    split
    · rfl
    · rename_i hne
      simp [phase, hne]

theorem le_of_serveBuffered {s : AsyncEntryReader ρ} {room : Nat} (h : s.serveBuffered room = none)
    (hroom : room ≠ 0) : s.staging.length ≤ s.stagingPos := by
  unfold serveBuffered at h
  by_contra hlt
  rw [if_pos (by omega)] at h
  cases h

/-- The loop of `poll_read`. -/
def pollRead (read : ρ → Except IoError Bytes × ρ) (s : AsyncEntryReader ρ) (p : Poll) :
    PollOut × AsyncEntryReader ρ :=
  match _hserve : s.serveBuffered p.room with
  | some (bs, s) => (.ready bs, s)
  | none =>
    match _hpending : s.pending with
    | some msg =>
      match p.receiver with
      | .pending => (.pending, s)
      | .cancelled =>
        (.error ⟨.other, "blocking decode task cancelled"⟩, { s with pending := none, inner := none })
      | .ready =>
        match (s.finishRead msg).1 with
        | some e => (.error e, (s.finishRead msg).2)
        | none => pollRead read (s.finishRead msg).2 p
    | none =>
      if _hroom : p.room = 0 then (.ready [], s)
      else
        match _hinner : s.inner with
        | none => (.ready [], s)
        | some reader =>
          let (result, reader) := read reader
          pollRead read { s with inner := none, pending := some (reader, result), staging := [] } p
termination_by s.phase
decreasing_by
  · rw [phase_finishRead, phase, _hpending]
    exact Nat.one_pos
  · have hle := le_of_serveBuffered _hserve _hroom
    simp [phase, _hpending, _hinner, hle]

end AsyncEntryReader

end Kzip.Impl
