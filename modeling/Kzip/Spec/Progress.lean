import Kzip.Impl.Progress
import Kzip.Spec.Comment

/-!
# What a progress callback should see

A callback is made to keep a log of its calls (`recorded`). What they should tell of a write is `Tells`,
and what the write should give with them is `Obeys`.
-/

namespace Kzip.Impl

variable {σ : Type}

/-- A call of a progress callback, and whether it asked to cancel. -/
structure Report where
  completed : UInt64
  total : UInt64
  cancel : Bool

/-- The callback, with a log of its calls. -/
def WriteProgressPoll.recorded (poll : WriteProgressPoll σ) : WriteProgressPoll (σ × List Report) :=
  fun completed total s =>
    let (cancel, captured) := poll completed total s.1
    (cancel, captured, s.2 ++ [{ completed, total, cancel }])

end Kzip.Impl

namespace Kzip.Spec

open Kzip.Impl

/-- No call asked to cancel. -/
def Uncancelled (log : List Report) : Prop := ∀ r ∈ log, r.cancel = false

/-- What the calls tell of a write of `total` bytes with this result. -/
structure Tells (total : UInt64) (result : Result Vec) (log : List Report) : Prop where
  constant : ∀ r ∈ log, r.total = total
  nondecreasing : log.Pairwise fun r r' => r.completed ≤ r'.completed
  bounded : ∀ r ∈ log, r.completed ≤ total
  finished : ∀ out, result = .ok out → ∃ r, log.getLast? = some r ∧ r.completed = total

/-- A write that made these calls gave the right result; `quiet` is that of the write without them. -/
structure Obeys (X : Extern) (files : List ArchiveFile) (opts : CompressOptions) (password : Bytes)
    (methods : List UInt16) (archiveComment : Bytes) (quiet result : Result Vec) (log : List Report) :
    Prop where
  /-- The first call that asks to cancel is the last one. -/
  cancelled : ∀ pre r post, log = pre ++ r :: post → r.cancel = true →
    post = [] ∧ result = .error (.err .cancelled)
  uncancelled : Uncancelled log → result = quiet
  plain : Uncancelled log → archiveComment = [] →
    methods = [] ∨ methods = files.map (fun _ => encryption.none) → result = writeArchive X files opts
  encrypted : Uncancelled log → archiveComment = [] → (methods = [] → files = []) →
    (∀ c ∈ files.zip methods, isAesMethod c.2 = false) →
    ∀ salt, result = writeArchiveEncryptedMethods (withSalt X salt) files opts password methods

end Kzip.Spec
