import Kzip.Lib.Run
import Kzip.Proof.Archive
import Kzip.Spec.History

/-!
# History independence

Reads of an open archive give what they give on a fresh one, whatever was opened, read and dropped
before (`readEntry_history`). Two archives that differ in their pools and in which data offsets they have
cached (`Archive.Equiv`) open and read alike: a cached offset leaves the position where the local header
would (`findDataOffsetAt_eq`), and a recycled buffer is cleared. Every call keeps an archive in use
equivalent to the fresh one.
-/

namespace Kzip.Impl

open Lib Kzip.Spec

variable {X : Extern}

/-! ## Positions -/

/-- A seek leaves the position that it returns. -/
theorem seekStart_ok {s t : SourceAt} {pos off : Nat} (h : s.seekStart pos = .ok (off, t)) :
    off = pos ∧ t = { src := s.src, pos } := by
  unfold SourceAt.seekStart at h
  split at h
  · split at h
    · cases h
      exact ⟨rfl, rfl⟩
    · cases h
  all_goals cases h; exact ⟨rfl, rfl⟩

/-- It does not matter where a seek to an absolute position starts. -/
theorem seekStart_from (s : SourceAt) (p pos : Nat) :
    ({ src := s.src, pos := p } : SourceAt).seekStart pos = s.seekStart pos := rfl

/-- A relative seek does what the seek to the position it returns does. -/
theorem seekCurrent_ok {s t : SourceAt} {d off : Nat} (h : s.seekCurrent X d = .ok (off, t)) :
    s.seekStart off = .ok (off, t) := by
  have hstart {pos : Nat} (h : s.seekStart pos = .ok (off, t)) : s.seekStart off = .ok (off, t) := by
    obtain ⟨rfl, -⟩ := seekStart_ok h
    exact h
  unfold SourceAt.seekCurrent at h
  split at h
  case h_1 | h_2 =>
    split at h
    · exact hstart h
    · cases h
  case h_3 => exact hstart h
  all_goals
    obtain ⟨pos, -, h⟩ := bind_ok.mp h
    exact hstart h

/-- Skipping the local header leaves the position that a seek to the data offset would. -/
theorem localHeaderLenAt_ok {s t : SourceAt} {off : Nat} (h : localHeaderLenAt X s = .ok (off, t)) :
    s.seekStart off = .ok (off, t) := by
  obtain ⟨⟨raw, s'⟩, hraw, h⟩ := bind_ok.mp h
  obtain ⟨-, h⟩ := guard_ok.mp h
  obtain ⟨bs, -, hs'⟩ := bind_ok.mp hraw
  cases hs'
  rw [← seekStart_from s (s.pos + size.localHeader)]
  exact seekCurrent_ok h

theorem seekStart_of_lt (s : SourceAt) {pos : Nat} (h : pos < 2 ^ 63) :
    s.seekStart pos = .ok (pos, { src := s.src, pos }) := by
  unfold SourceAt.seekStart
  split
  · exact if_pos h
  all_goals rfl

theorem seekCurrent_of_lt (s : SourceAt) {d : Nat} (h : s.pos + d < 2 ^ 63) :
    s.seekCurrent X d = .ok (s.pos + d, { src := s.src, pos := s.pos + d }) := by
  have hsum : addI64 X (asI64 s.pos) d = .ok ((s.pos + d : Nat) : Int) := by
    rw [asI64_of_lt (by omega), addI64, if_pos (by omega), Int.natCast_add]
  unfold SourceAt.seekCurrent
  rw [hsum, ok_bind, Int.max_eq_left (Int.natCast_nonneg _), Int.toNat_natCast, if_pos (by omega),
    seekStart_of_lt s h]
  split <;> rfl

/-- Where the sum fits, the local header is skipped to the data offset. -/
theorem localHeaderLenAt_eq (s : SourceAt) (h : ∀ off, localHeaderLen s.src s.pos = .ok off → off < 2 ^ 63) :
    localHeaderLenAt X s = (localHeaderLen s.src s.pos).map fun off => (off, { src := s.src, pos := off }) := by
  unfold localHeaderLenAt localHeaderLen SourceAt.readExact at *
  cases hraw : s.src.readAt s.pos size.localHeader with
  | error e => rfl
  | ok raw =>
    rw [hraw] at h
    simp only [ok_bind] at h ⊢
    by_cases hmagic : raw.take 4 ≠ magic.localHeader
    · rw [if_pos hmagic, if_pos hmagic]
      rfl
    · rw [if_neg hmagic] at h ⊢
      rw [if_neg hmagic, seekCurrent_of_lt _ (h _ rfl)]
      rfl

/-- Where the data offsets fit, an entry is opened as if every read named its position. -/
theorem openDirentAt_eq {a : Archive} {d : Dirent}
    (h : ∀ off, d.findDataOffset a.src = .ok off → off < 2 ^ 63) (index : Nat) (password : Option Bytes) :
    a.openDirentAt X index d password = a.openDirent X index d password := by
  have hfind : d.findDataOffsetAt X (a.openSourceAt d.offset) =
      (d.findDataOffset a.src).map fun off => (off, { src := a.src, pos := off }) := by
    rw [Dirent.findDataOffsetAt]
    cases hcache : d.dataOffset with
    | some off =>
      have hoff : d.findDataOffset a.src = .ok off := by rw [Dirent.findDataOffset, hcache]
      rw [hoff]
      exact seekStart_of_lt _ (h off hoff)
    | none =>
      have hmiss : d.findDataOffset a.src = localHeaderLen a.src d.offset.toNat := by
        rw [Dirent.findDataOffset, hcache]
      rw [hmiss] at h ⊢
      exact localHeaderLenAt_eq (a.openSourceAt d.offset) h
  rw [Archive.openDirentAt, Archive.openDirent, hfind]
  cases d.findDataOffset a.src <;> rfl

/-! ## Archives that read alike -/

/-- Every cached data offset is the one that the local header gives. -/
def Archive.CachedRight (X : Extern) (a : Archive) : Prop :=
  ∀ d ∈ a.entries, ∀ off, d.dataOffset = some off →
    ∃ dup, localHeaderLenAt X (a.openSourceAt d.offset) = .ok (off, dup)

/-- With the right offset in the cache, a hit is the same as a miss. -/
theorem findDataOffsetAt_eq {a : Archive} (h : a.CachedRight X) {d : Dirent} (hd : d ∈ a.entries) :
    d.findDataOffsetAt X (a.openSourceAt d.offset) = localHeaderLenAt X (a.openSourceAt d.offset) := by
  unfold Dirent.findDataOffsetAt
  split
  · rename_i off hoff
    obtain ⟨dup, hdup⟩ := h d hd off hoff
    rw [localHeaderLenAt_ok hdup, hdup]
  · rfl

/-- The archives differ in their pools and in which data offsets are cached, at most. -/
structure Archive.Equiv (X : Extern) (a b : Archive) : Prop where
  src : a.src = b.src
  entries : a.entries.map uncached = b.entries.map uncached
  password : a.password = b.password
  left : a.CachedRight X
  right : b.CachedRight X

theorem Archive.Equiv.entry {a b : Archive} (h : a.Equiv X b) (index : Nat) :
    a.entries[index]?.map uncached = b.entries[index]?.map uncached := by
  rw [← List.getElem?_map, h.entries, List.getElem?_map]

/-- Equivalent archives give the same reader of an entry, or the same error. -/
theorem openEntryAt_congr {a b : Archive} (h : a.Equiv X b) (index : Nat) (password : Option Bytes) :
    (a.openEntryAt X index password).1 = (b.openEntryAt X index password).1 := by
  have hentry := h.entry index
  unfold Archive.openEntryAt
  cases hd : a.entries[index]? with
  | none =>
    rw [hd] at hentry
    rw [Option.map_eq_none_iff.mp hentry.symm]
  | some d =>
    rw [hd] at hentry
    obtain ⟨e, he, heq⟩ := Option.map_eq_some_iff.mp hentry.symm
    rw [he]
    show (a.openDirentAt X index d password).1 = (b.openDirentAt X index e password).1
    have hoffset : a.openSourceAt d.offset = b.openSourceAt e.offset := by
      have hoff : e.offset = d.offset := (congrArg Dirent.offset heq :)
      rw [Archive.openSourceAt, Archive.openSourceAt, h.src, hoff]
    have hfind : d.findDataOffsetAt X (a.openSourceAt d.offset) =
        e.findDataOffsetAt X (b.openSourceAt e.offset) := by
      rw [findDataOffsetAt_eq h.left (List.mem_of_getElem? hd),
        findDataOffsetAt_eq h.right (List.mem_of_getElem? he), hoffset]
    rw [Archive.openDirentAt, Archive.openDirentAt, hfind]
    cases e.findDataOffsetAt X (b.openSourceAt e.offset) with
    | error _ => rfl
    | ok r =>
      obtain ⟨off, dup⟩ := r
      have hzero := @openZeroCopy_congr X (a.cacheOffset index off) (b.cacheOffset index off) _ _ h.src
        heq.symm off
      have hstreaming := @openStreaming_congr X (a.cacheOffset index off) (b.cacheOffset index off) _ _
        h.src h.password heq.symm dup.pos password
      revert hzero
      dsimp only
      cases (a.cacheOffset index off).openZeroCopy X d off <;>
        cases (b.cacheOffset index off).openZeroCopy X e off
      case none.none => exact fun _ => hstreaming
      case some.some => exact fun hzero => Option.some.inj hzero
      all_goals
        intro hzero
        cases hzero

theorem equiv_cacheOffset {a b : Archive} (h : a.Equiv X b) {index off : Nat} {d : Dirent} {dup : SourceAt}
    (hd : b.entries[index]? = some d)
    (hoff : d.findDataOffsetAt X (b.openSourceAt d.offset) = .ok (off, dup)) :
    a.Equiv X (b.cacheOffset index off) where
  src := h.src
  entries := h.entries.trans (uncached_cacheOffset b index off).symm
  password := h.password
  left := h.left
  right e he off' hoff' := by
    rcases mem_cacheOffset hd he with rfl | he
    · cases hoff'
      rw [findDataOffsetAt_eq h.right (List.mem_of_getElem? hd)] at hoff
      exact ⟨dup, hoff⟩
    · exact h.right e he off' hoff'

theorem Archive.Equiv.pool {a b : Archive} (h : a.Equiv X b) (pool : BufferPool) :
    a.Equiv X { b with pool } :=
  ⟨h.src, h.entries, h.password, h.left, h.right⟩

/-! ## Calls -/

theorem equiv_openEntryAt {a b : Archive} (h : a.Equiv X b) (index : Nat) (password : Option Bytes) :
    a.Equiv X (b.openEntryAt X index password).2 := by
  unfold Archive.openEntryAt
  split
  · exact h
  · rename_i d hd
    unfold Archive.openDirentAt
    split
    · exact h
    · rename_i off dup hoff
      have hcached := equiv_cacheOffset h hd hoff
      dsimp only
      split
      · rename_i res hz
        obtain ⟨-, ⟨pool, hpool⟩, -⟩ := openZeroCopy_some (show _ = some (res.1, res.2) from hz)
        rw [hpool]
        exact hcached.pool pool
      · exact hcached

theorem equiv_dropReader {a b : Archive} (h : a.Equiv X b) (r : EntryReader) :
    a.Equiv X (b.dropReader r) := by
  unfold Archive.dropReader
  split
  · exact h.pool _
  all_goals exact h

theorem equiv_readEntryAt {a b : Archive} (h : a.Equiv X b) (sched : Schedule) (index : Nat)
    (password : Option Bytes) : a.Equiv X (b.readEntryAt X sched index password).2 := by
  have hopen := equiv_openEntryAt h index password
  unfold Archive.readEntryAt
  revert hopen
  cases b.openEntryAt X index password with
  | mk o b' =>
    intro hopen
    cases o with
    | error e => exact hopen
    | ok r => exact equiv_dropReader hopen _

theorem readEntryAt_congr {a b : Archive} (h : a.Equiv X b) (sched : Schedule) (index : Nat)
    (password : Option Bytes) :
    (a.readEntryAt X sched index password).1 = (b.readEntryAt X sched index password).1 := by
  have hopen := openEntryAt_congr h index password
  unfold Archive.readEntryAt
  revert hopen
  cases a.openEntryAt X index password with
  | mk o a' =>
    cases b.openEntryAt X index password with
    | mk o' b' =>
      rintro rfl
      cases o <;> rfl

/-- Every call keeps the archive equivalent to a fresh one. -/
theorem equiv_step {a : Archive} {u : InUse} (h : a.Equiv X u.archive) (call : ReaderCall) :
    a.Equiv X (u.step X call).archive := by
  cases call with
  | openEntry index password =>
    have hopen := equiv_openEntryAt h index password
    simp only [InUse.step]
    revert hopen
    cases u.archive.openEntryAt X index password with
    | mk o a' =>
      cases o <;> exact id
  | readEntry sched index password => exact equiv_readEntryAt h sched index password
  | read i call => exact h
  | readToEnd i sched => exact h
  | drop i =>
    simp only [InUse.step]
    split
    · exact equiv_dropReader h _
    · exact h

theorem equiv_usedArchive {a : Archive} (h : a.CachedRight X) (calls : List ReaderCall) :
    a.Equiv X (usedArchive X a calls) :=
  Along.invariant (I := fun u : InUse => a.Equiv X u.archive) (P := fun _ _ => True)
    (fun _ call hu _ => equiv_step hu call) (.of_forall fun _ _ => trivial) ⟨rfl, rfl, rfl, h, h⟩

theorem open_cachedRight {src : Source} {a : Archive} (h : Archive.open src = .ok a) :
    a.CachedRight X := by
  obtain ⟨cd, hcd, h⟩ := bind_ok.mp h
  cases h
  intro d hd off hoff
  rw [(readCentralDir_parsed hcd d hd).not_cached] at hoff
  cases hoff

/-! ## Reading -/

theorem openEntryAt_fresh {a : Archive} {index : Nat} {password : Option Bytes} {r : EntryReader}
    (h : (a.openEntryAt X index password).1 = .ok r) :
    ∃ inner crc size check, r = .fresh inner crc size check := by
  simp only [Archive.openEntryAt, Archive.openDirentAt] at h
  split at h
  · cases h
  · split at h
    · cases h
    · split at h
      · rename_i res hz
        obtain ⟨-, -, hr⟩ := openZeroCopy_some (show _ = some (res.1, res.2) from hz)
        obtain ⟨inner, hr⟩ := hr r h
        exact ⟨inner, _, _, _, hr⟩
      · rcases openStreaming_ok h with ⟨-, dec, hr⟩ | ⟨-, dec, pw, hr, -⟩
        · exact ⟨_, _, _, _, hr⟩
        · exact ⟨_, _, _, _, hr⟩

/-- The bytes that are read, if any, do not depend on the lengths of the reads. -/
theorem readEntryAt_sched (a : Archive) (sched sched' : Schedule) (index : Nat) (password : Option Bytes) :
    (a.readEntryAt X sched index password).1.toOption =
      (a.readEntryAt X sched' index password).1.toOption := by
  have hfresh := @openEntryAt_fresh X a index password
  unfold Archive.readEntryAt
  revert hfresh
  cases a.openEntryAt X index password with
  | mk o a' =>
    cases o with
    | error e => exact fun _ => rfl
    | ok r =>
      intro hfresh
      obtain ⟨inner, crc, size, check, rfl⟩ := hfresh rfl
      refine Option.ext fun v => ?_
      show (EntryReader.readToEnd X sched _).1.toOption = some v ↔
        (EntryReader.readToEnd X sched' _).1.toOption = some v
      rw [toOption_eq_some, toOption_eq_some, readToEnd_fresh, readToEnd_fresh]

/-- Reading an entry gives what it gives on a freshly opened archive, whatever was done before. -/
theorem readEntry_history (X : Extern) {src : Source} {a : Archive} (hopen : Archive.open src = .ok a)
    (calls : List ReaderCall) (index : Nat) (password : Option Bytes) :
    (∀ sched, ((usedArchive X a calls).readEntryAt X sched index password).1 =
      (a.readEntryAt X sched index password).1) ∧
    ∀ sched sched', ((usedArchive X a calls).readEntryAt X sched index password).1.toOption =
      (a.readEntryAt X sched' index password).1.toOption := by
  have hequiv := equiv_usedArchive (open_cachedRight hopen (X := X)) calls
  have hsame (sched : Schedule) := (readEntryAt_congr hequiv sched index password).symm
  refine ⟨hsame, fun sched sched' => ?_⟩
  rw [hsame sched]
  exact readEntryAt_sched a sched sched' index password

/-- One entry, opened, read in part and dropped, and read again. -/
theorem readEntry_history_sample : ∃ a, Archive.open { kind := .vec, bytes := sampleArchive } = .ok a ∧
    (∀ sched, ((usedArchive reference a [.openEntry 0 none, .read 0 ⟨1, 0⟩, .drop 0]).readEntryAt reference
        sched 0 none).1 = (a.readEntryAt reference sched 0 none).1) ∧
    ∀ sched sched', ((usedArchive reference a [.openEntry 0 none, .read 0 ⟨1, 0⟩, .drop 0]).readEntryAt
        reference sched 0 none).1.toOption = (a.readEntryAt reference sched' 0 none).1.toOption := by
  obtain ⟨a, ha, -⟩ := exists_ok (x := Archive.open { kind := .vec, bytes := sampleArchive })
    (p := fun _ => true) (by decide +kernel)
  exact ⟨a, ha, readEntry_history reference ha _ 0 none⟩

end Kzip.Impl
