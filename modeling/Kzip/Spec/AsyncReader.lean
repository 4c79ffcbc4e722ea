import Kzip.Impl.AsyncReader
import Kzip.Lib.Run

/-!
# What an asynchronous reader should deliver

The polls of an `AsyncEntryReader`, with what each returned, against the successive reads of the
synchronous reader it was made from (`MatchesSync`).
-/

namespace Kzip.Spec

open Lib Kzip.Impl

variable {ρ : Type}

/-- Successive reads return these chunks, none of them empty, and lead from one reader to another. -/
inductive Chunks (read : ρ → Except IoError Bytes × ρ) : ρ → List Bytes → ρ → Prop where
  | nil (r : ρ) : Chunks read r [] r
  | cons {r r' : ρ} {c : Bytes} {cs : List Bytes} (h : (read r).1 = .ok c) (hc : c ≠ [])
      (rest : Chunks read (read r).2 cs r') : Chunks read r (c :: cs) r'

/-- The polls of a reader in a state, each with what it returned. -/
def pollLog (read : ρ → Except IoError Bytes × ρ) : AsyncEntryReader ρ → List Poll →
    List (Poll × PollOut) :=
  outputs fun s p => ((s.pollRead read p).2, (p, (s.pollRead read p).1))

def bytesOf : PollOut → Bytes
  | .ready bs => bs
  | .pending | .error _ => []

/-- The bytes that polls delivered. -/
def delivered (log : List (Poll × PollOut)) : Bytes := log.flatMap fun x => bytesOf x.2

/-- A poll that reports an error, or the end of the file: it has room, and gets no bytes. -/
def Ends (x : Poll × PollOut) : Prop :=
  match x.2 with
  | .pending => False
  | .ready bs => x.1.room ≠ 0 ∧ bs = []
  | .error _ => True

/-- A poll with room that finds its task completed. -/
def prompt (p : Poll) : Bool := p.room ≠ 0 ∧ p.receiver = .ready

/-- The polls deliver what the successive reads of `r` return, in order: before an end of the file or an
error is reported, a prefix of it, and by then all of it; and the error of a read is surfaced once
there were more prompt polls than bytes before it. A task that was dropped surfaces an error of its
own. -/
structure MatchesSync (read : ρ → Except IoError Bytes × ρ) (r : ρ) (log : List (Poll × PollOut)) :
    Prop where
  bytes : ∀ pre post, log = pre ++ post → (∀ x ∈ pre, ¬ Ends x) →
    ∃ cs r', Chunks read r cs r' ∧ delivered pre <+: cs.flatten
  eof : ∀ pre p post, log = pre ++ (p, .ready []) :: post → p.room ≠ 0 → (∀ x ∈ pre, ¬ Ends x) →
    ∃ cs r', Chunks read r cs r' ∧ (read r').1 = .ok [] ∧ delivered pre = cs.flatten
  error : ∀ pre p e post, log = pre ++ (p, .error e) :: post → p.receiver ≠ .cancelled →
    (∀ x ∈ pre, ¬ Ends x) →
    ∃ cs r', Chunks read r cs r' ∧ (read r').1 = .error e ∧ delivered pre = cs.flatten
  surfaced : ∀ cs r' e, Chunks read r cs r' → (read r').1 = .error e →
    (∀ x ∈ log, x.1.receiver ≠ .cancelled) →
    cs.flatten.length < (log.filter fun x => prompt x.1).length → ∃ p, (p, .error e) ∈ log

end Kzip.Spec
