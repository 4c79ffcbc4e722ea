import Kzip.Impl.Parallel

/-!
# What parallel compression promises

A writer that compresses on a pool of threads against the one that compresses the files one after the other.
-/

namespace Kzip.Spec

open Kzip.Impl

/-- All files that cannot be compressed fail alike. -/
def FailAlike (X : Extern) (files : List ArchiveFile) (opts : CompressOptions) : Prop :=
  ∀ f ∈ files, ∀ g ∈ files, ∀ e e', compressFile X opts f = .error e → compressFile X opts g = .error e' → e = e'

/-- The writer on a pool, `on`, gives the bytes that the serial one gives, or fails where that fails, whatever
the threads do. If that fails since a file cannot be compressed, the error is that of such a file; any other
error, and this one if all such files fail alike, is the error of the serial writer. And the writer comes to
an end. -/
structure Deterministic {ω : Type} (X : Extern) (files : List ArchiveFile) (opts : CompressOptions)
    (on : ω → Option (Result Vec)) (serial : Result Vec) : Prop where
  same : ∀ o r, on o = some r → r.toOption = serial.toOption
  fault : ∀ o e, on o = some (.error e) → (∃ e', compressFiles X files opts = .error e') →
    ∃ f ∈ files, compressFile X opts f = .error e
  exact : ∀ o r, on o = some r → (∃ cfs, compressFiles X files opts = .ok cfs) ∨ FailAlike X files opts →
    r = serial
  returns : ∃ o r, on o = some r

end Kzip.Spec
