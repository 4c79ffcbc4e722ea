import Kzip.Impl.Compress

/-!
# Parallel compression

`compress_files` compresses on a pool of threads if there are several files and none is large. The pool is
one of the outside crate `rayon`, a parameter here (`Threads`): whether it can be built, and what comes of
mapping over a slice on it and collecting the results, which may depend on what the threads do when.
-/

namespace Kzip.Impl

/-- What the build and the system give: whether the feature `parallel` is on, the number of cores, if it
can be found out, whether a pool of some workers can be built, and what `collect` comes to on it, if it comes
to an end, under each way `ω` in which the threads may run. -/
structure Threads (ω : Type) where
  parallel : Bool
  cores : Option Nat
  builds : Nat → Bool
  collect : ω → Nat → (ArchiveFile → Result CompressedFile) → List ArchiveFile →
    Option (Result (List CompressedFile))

/-- What is documented of these: there is a core; the results are collected in the order of the slice, each
that of its own file; if one of them is an error, an error is collected, that of one of the files; and
collecting comes to an end. -/
structure Threads.Documented {ω : Type} (t : Threads ω) : Prop where
  cores_pos : ∀ n, t.cores = some n → 0 < n
  ok : ∀ o workers f files cfs, t.collect o workers f files = some (.ok cfs) →
    List.Forall₂ (fun file cf => f file = .ok cf) files cfs
  error : ∀ o workers f files e, t.collect o workers f files = some (.error e) →
    ∃ file ∈ files, f file = .error e
  returns : ∀ workers f files, 0 < workers → ∃ o r, t.collect o workers f files = some r

section
variable (X : Extern) {ω : Type} (t : Threads ω)

/-- The number of workers; 0 stands for one per core. -/
def Threads.workers (opts : CompressOptions) : Nat :=
  if opts.workers = 0 then t.cores.getD 1 else opts.workers

def parallelCompress (o : ω) (files : List ArchiveFile) (opts : CompressOptions) :
    Option (Result (List CompressedFile)) :=
  if t.builds (t.workers opts) then t.collect o (t.workers opts) (compressFile X opts) files
  else some (.error (.err .memory))

def hasLarge (files : List ArchiveFile) (opts : CompressOptions) : Bool :=
  files.any fun f => UInt64.ofNat f.data.val.length ≥ opts.largeFileThreshold

/-- `use_parallel`, in a build that has the feature. -/
def Threads.usesPool (files : List ArchiveFile) (opts : CompressOptions) : Bool :=
  (opts.parallel && files.length > 1 && !hasLarge files opts) && t.parallel

def compressFilesParallelOrSerial (o : ω) (files : List ArchiveFile) (opts : CompressOptions) :
    Option (Result (List CompressedFile)) :=
  if t.usesPool files opts then parallelCompress X t o files opts
  else some (files.mapM (compressFile X opts))

/-- `write_archive`, with its files compressed by the pool. -/
def writeArchiveOn (o : ω) (files : List ArchiveFile) (opts : CompressOptions) : Option (Result Vec) :=
  (compressFilesParallelOrSerial X t o files opts).map fun compressed => do
    writeCompressed X (← compressed) []

/-- `write_archive_encrypted_methods`, with its files compressed by the pool. -/
def writeArchiveEncryptedMethodsOn (o : ω) (files : List ArchiveFile) (opts : CompressOptions)
    (password : Bytes) (methods : List UInt16) : Option (Result Vec) :=
  (compressFilesParallelOrSerial X t o files opts).map fun compressed => do
    let compressed ← compressed
    if methods.length ≠ compressed.length then .error (.err .inval)
    else
      let compressed ← (compressed.zip methods).zipIdx.mapM fun c =>
        encryptFile X password c.2 c.1.1 c.1.2
      writeCompressed X compressed []

/-- `write_archive_encrypted`: the flags say which entries are encrypted. -/
def writeArchiveEncryptedOn (o : ω) (files : List ArchiveFile) (opts : CompressOptions)
    (password : Bytes) (encrypt : List Bool) : Option (Result Vec) :=
  writeArchiveEncryptedMethodsOn X t o files opts password
    (encrypt.map fun e => if e then encryption.tradPkware else 0)

end

end Kzip.Impl
