import Kzip.Impl.Reference
import Kzip.Lib.Indexed
import Kzip.Lib.Pool
import Kzip.Spec.Parallel

/-!
# Parallel compression gives what the serial loop gives

The pool gives the files that the plain loop gives, in the same order, whatever its threads do
(`compressFilesParallelOrSerial_sound`), so every archive is the same byte for byte
(`writers_deterministic`). A pool of workers that take the files one by one is as documented
(`poolThreads_documented`).
-/

namespace Kzip.Impl

open Lib Kzip.Spec

variable {X : Extern} {ω : Type} {t : Threads ω} {o : ω} {files : List ArchiveFile}
  {opts : CompressOptions}

theorem Threads.Documented.workers_pos (h : t.Documented) (opts : CompressOptions) : 0 < t.workers opts := by
  unfold workers
  split
  · cases hcores : t.cores with
    | none => exact Nat.one_pos
    | some n => exact h.cores_pos n hcores
  · omega

/-- The plain loop fails as one of the files does. -/
theorem compressFiles_error {e : Fault} (h : compressFiles X files opts = .error e) :
    ∃ f ∈ files, compressFile X opts f = .error e := by
  rw [compressFiles] at h
  induction files with
  | nil => cases h
  | cons f files ih =>
    rw [List.mapM_cons] at h
    cases hf : compressFile X opts f with
    | error e' =>
      rw [hf] at h
      cases h
      exact ⟨f, List.mem_cons_self, hf⟩
    | ok c =>
      rw [hf, ok_bind] at h
      cases hfs : files.mapM (compressFile X opts) with
      | error e' =>
        rw [hfs] at h
        cases h
        obtain ⟨g, hg, he⟩ := ih hfs
        exact ⟨g, List.mem_cons_of_mem f hg, he⟩
      | ok cs =>
        rw [hfs] at h
        cases h

/-- Where one file fails, so does the plain loop. -/
theorem compressFiles_ne_ok {f : ArchiveFile} (hf : f ∈ files) {e : Fault} (he : compressFile X opts f = .error e)
    (cfs : List CompressedFile) : compressFiles X files opts ≠ .ok cfs := by
  intro h
  obtain ⟨i, hi⟩ := List.mem_iff_getElem?.mp hf
  obtain ⟨cf, -, hok⟩ := exists_of_forall₂ (mapM_ok.mp h) hi
  rw [he] at hok
  cases hok

/-- What the files compress to does not depend on the threads; when one fails, some file does. -/
theorem compressFilesParallelOrSerial_sound (ht : t.Documented) (hbuilds : t.builds (t.workers opts) = true)
    {r : Result (List CompressedFile)} (h : compressFilesParallelOrSerial X t o files opts = some r) :
    (∀ cfs, r = .ok cfs ↔ compressFiles X files opts = .ok cfs) ∧
      ∀ e, r = .error e → ∃ f ∈ files, compressFile X opts f = .error e := by
  simp only [compressFilesParallelOrSerial] at h
  split at h
  · rw [parallelCompress, if_pos hbuilds] at h
    have hok (cfs : List CompressedFile) (hr : r = .ok cfs) : compressFiles X files opts = .ok cfs :=
      mapM_ok.mpr (ht.ok o _ _ files cfs (hr ▸ h))
    have herror (e : Fault) (hr : r = .error e) : ∃ f ∈ files, compressFile X opts f = .error e :=
      ht.error o _ _ files e (hr ▸ h)
    refine ⟨fun cfs => ⟨hok cfs, fun hserial => ?_⟩, herror⟩
    cases hr : r with
    | ok cfs' => rw [← Except.ok.inj ((hok cfs' hr).symm.trans hserial)]
    | error e =>
      obtain ⟨f, hf, he⟩ := herror e hr
      exact absurd hserial (compressFiles_ne_ok hf he cfs)
  · cases h
    exact ⟨fun cfs => Iff.rfl, fun e he => compressFiles_error he⟩

theorem exists_compressed_on (X : Extern) (ht : t.Documented) (files : List ArchiveFile)
    (opts : CompressOptions) : ∃ o r, compressFilesParallelOrSerial X t o files opts = some r := by
  obtain ⟨o, r, hr⟩ := ht.returns (t.workers opts) (compressFile X opts) files (ht.workers_pos opts)
  simp only [compressFilesParallelOrSerial, parallelCompress]
  split
  · split
    · exact ⟨o, r, hr⟩
    · exact ⟨o, _, rfl⟩
  · exact ⟨o, _, rfl⟩

/-- A writer that goes on with the compressed files in the same way. -/
theorem deterministic_bind (X : Extern) (ht : t.Documented) (files : List ArchiveFile) (opts : CompressOptions)
    (hbuilds : t.builds (t.workers opts) = true) (k : List CompressedFile → Result Vec) :
    Deterministic X files opts
      (fun o => (compressFilesParallelOrSerial X t o files opts).map (· >>= k))
      (compressFiles X files opts >>= k) where
  same := fun o r h => by
    obtain ⟨r, hr, rfl⟩ := Option.map_eq_some_iff.mp h
    obtain ⟨hok, -⟩ := compressFilesParallelOrSerial_sound ht hbuilds hr
    cases r with
    | ok cfs => rw [(hok cfs).mp rfl]
    | error e =>
      cases hs : compressFiles X files opts with
      | error e' => rfl
      | ok cfs => cases (hok cfs).mpr hs
  fault := fun o e h hserial => by
    obtain ⟨r, hr, hre⟩ := Option.map_eq_some_iff.mp h
    obtain ⟨hok, herror⟩ := compressFilesParallelOrSerial_sound ht hbuilds hr
    obtain ⟨e', hserial⟩ := hserial
    cases r with
    | ok cfs => cases ((hok cfs).mp rfl).symm.trans hserial
    | error e'' =>
      cases hre
      exact herror e rfl
  exact := fun o r h hcase => by
    obtain ⟨r, hr, rfl⟩ := Option.map_eq_some_iff.mp h
    obtain ⟨hok, herror⟩ := compressFilesParallelOrSerial_sound ht hbuilds hr
    cases r with
    | ok cfs => rw [(hok cfs).mp rfl]
    | error e =>
      cases hs : compressFiles X files opts with
      | ok cfs => cases (hok cfs).mpr hs
      | error e' =>
        have halike : FailAlike X files opts := hcase.resolve_left fun ⟨cfs, hcfs⟩ => by
          cases hs.symm.trans hcfs
        obtain ⟨f, hf, hfe⟩ := herror e rfl
        obtain ⟨g, hg, hge⟩ := compressFiles_error hs
        rw [halike f hf g hg e e' hfe hge]
  returns := by
    obtain ⟨o, r, hr⟩ := exists_compressed_on X ht files opts
    exact ⟨o, r >>= k, by simp only [hr, Option.map_some]⟩

theorem writeArchiveEncryptedMethodsOn_eq (X : Extern) (t : Threads ω) (o : ω) (files : List ArchiveFile)
    (opts : CompressOptions) (password : Bytes) (methods : List UInt16) :
    writeArchiveEncryptedMethodsOn X t o files opts password methods =
      (compressFilesParallelOrSerial X t o files opts).map (· >>= fun compressed =>
        (if methods.length ≠ compressed.length then .error (.err .inval)
          else (compressed.zip methods).zipIdx.mapM fun c => encryptFile X password c.2 c.1.1 c.1.2) >>=
        fun compressed => writeCompressed X compressed []) := by
  simp only [writeArchiveEncryptedMethodsOn]
  congr 1
  funext r
  cases r with
  | error e => rfl
  | ok cfs => by_cases hl : methods.length = cfs.length <;> simp [hl]

/-- Every writer that compresses a batch gives the same archive, whatever threads do what when, if the pool can
be built; if it cannot and is used, every one is refused for lack of memory. -/
theorem writers_deterministic (X : Extern) {ω : Type} {t : Threads ω} (ht : t.Documented)
    (files : List ArchiveFile) (opts : CompressOptions) :
    (t.builds (t.workers opts) = true →
      Deterministic X files opts (fun o => writeArchiveOn X t o files opts) (writeArchive X files opts) ∧
      (∀ password methods, Deterministic X files opts
        (fun o => writeArchiveEncryptedMethodsOn X t o files opts password methods)
        (writeArchiveEncryptedMethods X files opts password methods)) ∧
      ∀ password encrypt, Deterministic X files opts
        (fun o => writeArchiveEncryptedOn X t o files opts password encrypt)
        (writeArchiveEncryptedMethods X files opts password
          (encrypt.map fun e => if e then encryption.tradPkware else encryption.none))) ∧
    (t.builds (t.workers opts) = false → t.usesPool files opts = true → ∀ o,
      writeArchiveOn X t o files opts = some (.error (.err .memory)) ∧
      (∀ password methods, writeArchiveEncryptedMethodsOn X t o files opts password methods =
        some (.error (.err .memory))) ∧
      ∀ password encrypt, writeArchiveEncryptedOn X t o files opts password encrypt =
        some (.error (.err .memory))) := by
  constructor
  · intro hbuilds
    have hencrypted (password : Bytes) (methods : List UInt16) : Deterministic X files opts
        (fun o => writeArchiveEncryptedMethodsOn X t o files opts password methods)
        (writeArchiveEncryptedMethods X files opts password methods) := by
      convert deterministic_bind X ht files opts hbuilds fun compressed =>
        (if methods.length ≠ compressed.length then .error (.err .inval)
          else (compressed.zip methods).zipIdx.mapM fun c => encryptFile X password c.2 c.1.1 c.1.2) >>=
        fun compressed => writeCompressed X compressed [] using 1
      · funext o
        exact writeArchiveEncryptedMethodsOn_eq X t o files opts password methods
      · simp only [writeArchiveEncryptedMethods, encryptedFiles]
        cases compressFiles X files opts <;> rfl
    exact ⟨deterministic_bind X ht files opts hbuilds _, hencrypted, fun password encrypt => hencrypted password _⟩
  · intro hbuilds hpool o
    have hcompress : compressFilesParallelOrSerial X t o files opts = some (.error (.err .memory)) := by
      rw [compressFilesParallelOrSerial, if_pos hpool, parallelCompress, hbuilds]
      rfl
    have hencrypted (password : Bytes) (methods : List UInt16) :
        writeArchiveEncryptedMethodsOn X t o files opts password methods = some (.error (.err .memory)) := by
      rw [writeArchiveEncryptedMethodsOn, hcompress]
      rfl
    refine ⟨?_, hencrypted, fun password encrypt => hencrypted password _⟩
    rw [writeArchiveOn, hcompress]
    rfl

/-- Two workers that take the files one by one, under a schedule. -/
def poolThreads : Threads (List PoolAction) :=
  { parallel := true, cores := some 2, builds := fun _ => true,
    collect := fun schedule workers f files => Pool.run f files workers schedule }

theorem poolThreads_documented : poolThreads.Documented where
  cores_pos n h := by
    cases h
    decide
  ok schedule workers f files cfs h := mapM_ok.mp ((Pool.run_sound f files workers schedule h).1 cfs |>.mp rfl)
  error schedule workers f files e h := (Pool.run_sound f files workers schedule h).2 e rfl
  returns workers f files hworkers := by
    obtain ⟨more, r, hr⟩ := Pool.exists_run f files workers [] hworkers
    exact ⟨[] ++ more, r, hr⟩

/-- The second worker takes the second file and is done before the first. -/
theorem writers_deterministic_sample : ∃ r,
    writeArchiveOn reference poolThreads [.take 1 1, .take 0 0, .finish 1, .finish 0] sampleFiles
      storeOptions = some r ∧ r.toOption = (writeArchive reference sampleFiles storeOptions).toOption := by
  have hrun : (writeArchiveOn reference poolThreads [.take 1 1, .take 0 0, .finish 1, .finish 0] sampleFiles
      storeOptions).isSome = true := by decide +kernel
  obtain ⟨r, hr⟩ := Option.isSome_iff_exists.mp hrun
  exact ⟨r, hr, ((writers_deterministic reference poolThreads_documented sampleFiles storeOptions).1 rfl).1.same
    _ r hr⟩

end Kzip.Impl
