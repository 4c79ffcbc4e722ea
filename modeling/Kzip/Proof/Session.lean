import Kzip.Lib.Slots
import Kzip.Proof.Close
import Kzip.Proof.Flag
import Kzip.Proof.Window
import Kzip.Spec.Session

/-!
# Archives as stores

A process that opens, edits and closes handles in any order keeps its files as the catalog says
(`process_follows`): a close that writes puts the members that the edits of its handle leave in the place of
what the file held, and nothing else changes a file. `commit_written` is the step that matters.
-/

namespace Kzip.Impl

open Lib Lib.Utf8 Kzip.Spec

variable {X : Extern}

/-! ## What a handle shows -/

theorem after_comment (X : Extern) (calls : List ArchiveCall) (a : Archive) :
    (after X calls a).comment = a.comment := by
  have hopen (b : Archive) (index : Nat) (password : Option Bytes) :
      (b.openEntryWithPassword X index password).2.comment = b.comment := by
    simp only [Archive.openEntryWithPassword]
    split
    · rfl
    · simp only [Archive.openDirent]
      split
      · rfl
      · split
        · rename_i res hz
          obtain ⟨-, ⟨pool, hpool⟩, -⟩ := openZeroCopy_some (show _ = some (res.1, res.2) from hz)
          rw [hpool]
          rfl
        · rfl
  have hdrop (b : Archive) (r : EntryReader) : (b.dropReader r).comment = b.comment := by
    unfold Archive.dropReader
    split <;> rfl
  have hcall (b : Archive) (call : ArchiveCall) : (call.run X b).comment = b.comment := by
    cases call with
    | setDefaultPassword password => rfl
    | openEntry index password => exact hopen b index password
    | readEntry sched index password =>
      have h := hopen b index password
      simp only [ArchiveCall.run, Archive.readEntryWithPassword]
      revert h
      cases b.openEntryWithPassword X index password with
      | mk o b' =>
        intro h
        cases o with
        | error e => exact h
        | ok r => exact (hdrop _ _).trans h
  induction calls generalizing a with
  | nil => rfl
  | cons call calls ih => exact (ih _).trans (hcall a call)

/-- A call on a handle uses its archive as calls on the archive do. -/
theorem run_archive (X : Extern) (z : Zip) (c : ZipCall) :
    ∃ calls, (c.run X z).2.archive = after X calls z.archive := by
  have hedit {refuse : Option ZipErrorCode} {z' : Zip} (h : z'.archive = z.archive) :
      ∃ calls, (z.edit refuse z').2.archive = after X calls z.archive := by
    rcases edit_cases z refuse z' with ⟨code, hfail⟩ | ⟨-, hok⟩
    · exact ⟨[], by rw [hfail]; rfl⟩
    · exact ⟨[], by rw [hok]; exact h⟩
  cases c with
  | fileAdd name source flags => exact ⟨[], fileAdd_archive z name source flags⟩
  | dirAdd name =>
    exact ⟨[], (dirAdd_pendingOnly z name).same (f := Zip.archive) (fun _ => rfl) fun _ _ => rfl⟩
  | rename index name =>
    rw [ZipCall.run, rename_eq_edit]
    exact hedit rfl
  | fileReplace index source =>
    rw [fileReplace_eq_edit]
    exact hedit rfl
  | setDefaultPassword password =>
    cases password with
    | none => exact ⟨[], rfl⟩
    | some pw => exact ⟨[.setDefaultPassword pw], rfl⟩
  | setArchiveFlag flag value =>
    refine ⟨[], ?_⟩
    simp only [ZipCall.run, Zip.setArchiveFlag]
    repeat' split
    all_goals rfl
  | unchange index =>
    refine ⟨[], ?_⟩
    simp only [ZipCall.run, Zip.unchange]
    split <;> rfl
  | unchangeAll => exact ⟨[], rfl⟩
  | unchangeArchive => exact ⟨[], rfl⟩
  | openEntry index password => exact ⟨[.openEntry index password], rfl⟩
  | readEntry sched index password => exact ⟨[.readEntry sched index password], rfl⟩
  | _ => exact hedit rfl

theorem readsAs_after {a : Archive} {i : Nat} {content : Bytes} (h : ReadsAs X a i content)
    (calls : List ArchiveCall) : ReadsAs X (after X calls a) i content := by
  intro calls' sched
  have := h (calls ++ calls') sched
  rwa [Spec.after, List.foldl_append] at this

/-- What an archive shows does not change when it is read from. -/
theorem Presents.after {a : Archive} {ms : List Member} (h : Presents X a ms) (calls : List ArchiveCall) :
    Presents X (Spec.after X calls a) ms where
  comment := (after_comment X calls a).trans h.comment
  length := by
    have hlen := (grown_after X calls a).len
    rw [Archive.len, Archive.len] at hlen
    exact hlen.trans h.length
  entry := fun i m hm => by
    obtain ⟨⟨d, hd, hshown⟩, hread⟩ := h.entry i m hm
    refine ⟨?_, readsAs_after hread calls⟩
    have hdirent := (grown_after X calls a).dirent i
    rw [Archive.dirent, Archive.dirent, hd, Option.map_some, Option.map_eq_some_iff] at hdirent
    obtain ⟨d', hd', hu⟩ := hdirent
    refine ⟨d', hd', ?_⟩
    rw [eq_of_uncached hu]
    exact hshown

/-! ## What a close writes -/

theorem reported_some {r : Result Handle} {h : Handle} (hr : (reported r).1 = some h) : r = .ok h := by
  unfold reported at hr
  split at hr <;> cases hr
  rfl

/-- A handle of a file, as it was just opened. -/
theorem zipOpen_some {env : OpenEnv} {files : Files} {arg : Option Bytes} {flags : Int32} {h : Handle}
    (hopen : (zipOpen X env files arg flags).1 = some h) :
    ∃ path archive, h = { zip := makeZip archive flags, path := some path, existed := (files path).isSome } ∧
      (emptyArchive X = .ok archive ∧ (!h.existed || flags &&& zipTruncate ≠ 0) = true ∨
        ∃ kind bytes, files path = some bytes ∧ Archive.open { kind, bytes := bytes.val } = .ok archive ∧
          (!h.existed || flags &&& zipTruncate ≠ 0) = false) := by
  unfold zipOpen at hopen
  split at hopen
  · cases reported_some hopen
  · rename_i path _
    obtain ⟨archive, harchive, rfl⟩ := map_ok.mp (reported_some hopen)
    refine ⟨path, archive, rfl, ?_⟩
    cases hfile : files path with
    | none =>
      simp only [hfile] at harchive
      split at harchive
      · cases harchive
      · exact .inl ⟨harchive, rfl⟩
    | some bytes =>
      simp only [hfile] at harchive
      split at harchive
      · rename_i htruncate
        exact .inl ⟨harchive, by simp [htruncate]⟩
      · rename_i htruncate
        refine .inr ?_
        simp only [openFile] at harchive
        repeat' split at harchive
        all_goals first
          | cases harchive
          | exact ⟨_, bytes, rfl, harchive, by simpa using htruncate⟩

theorem zipOpen_path {env : OpenEnv} {files : Files} {arg : Option Bytes} {flags : Int32} {h : Handle}
    (hopen : (zipOpen X env files arg flags).1 = some h) : cStr arg = h.path := by
  unfold zipOpen at hopen
  split at hopen
  · cases reported_some hopen
  · rename_i path harg
    obtain ⟨archive, -, rfl⟩ := map_ok.mp (reported_some hopen)
    exact harg

theorem zipFdopen_path {fd : Descriptor} {flags : Int32} {h : Handle}
    (hopen : (zipFdopen fd flags).1 = some h) : h.path = none := by
  have hok := reported_some hopen
  repeat' split at hok
  all_goals first
    | cases hok
    | (obtain ⟨archive, -, rfl⟩ := map_ok.mp hok; rfl)

/-! ## The simulation -/

variable {p : Process} {k : Catalog}

/-- A handle that is added. -/
theorem Follows.append (h : Follows X p k) (new : Option Handle) (snapshot : Option Snapshot)
    (hnew : ∀ handle, new = some handle → handle.path.isSome → ∃ s, snapshot = some s ∧ Accords X handle s) :
    Follows X { p with handles := p.handles ++ [new] } { k with handles := k.handles ++ [snapshot] } where
  files := h.files
  length := by simp [h.length]
  sources := h.sources
  handle := fun i handle hi hpath => by
    rw [Process.handle, join_append] at hi
    rw [Catalog.handle, join_append, h.length]
    split at hi
    · rename_i heq
      rw [if_pos heq]
      exact hnew handle hi hpath
    · rename_i hne
      rw [if_neg hne]
      exact h.handle i handle hi hpath

/-- A handle that is replaced, and the files and the sources after it. -/
theorem Follows.set (h : Follows X p k) (i : Nat) {files : Files} {shown : Str → Option (List Member)}
    (new : Option Handle) (snapshot : Option Snapshot) {sources bytes : List (Option Vec)}
    (hfiles : ∀ path, Option.Rel (ArchiveOf X) (files path) (shown path)) (hsources : sources = bytes)
    (hnew : ∀ handle, new = some handle → handle.path.isSome → ∃ s, snapshot = some s ∧ Accords X handle s) :
    Follows X { files, handles := p.handles.set i new, sources }
      { files := shown, handles := k.handles.set i snapshot, sources := bytes } where
  files := hfiles
  length := by simp [h.length]
  sources := hsources
  handle := fun j handle hj hpath => by
    rw [Process.handle, join_set] at hj
    rw [Catalog.handle, join_set, h.length]
    split at hj
    · rename_i heq
      rw [if_pos heq]
      exact hnew handle hj hpath
    · rename_i hne
      rw [if_neg hne]
      exact h.handle j handle hj hpath

/-- A call on a handle keeps it in accord with its snapshot. -/
theorem Accords.call {h : Handle} {s : Snapshot} (ht : Accords X h s) (c : ZipCall) :
    Accords X { h with zip := (c.run X h.zip).2 } (if (c.run X h.zip).1 = -1 then s
      else { s with edits := (c.effect h.zip.archive).apply s.members.length s.edits }) := by
  obtain ⟨calls, hcalls⟩ := run_archive X h.zip c
  obtain ⟨src, a, before, hopen, ha⟩ := ht.opened
  have hpresents : Presents X (c.run X h.zip).2.archive s.members := by
    rw [hcalls]
    exact Presents.after ht.presents calls
  have hopened : ∃ src a calls, Archive.open src = .ok a ∧ (c.run X h.zip).2.archive = after X calls a :=
    ⟨src, a, before ++ calls, hopen, by rw [hcalls, ha, Spec.after, Spec.after, Spec.after, List.foldl_append]⟩
  have hlen : h.zip.archive.len = s.members.length := ht.presents.length
  rcases run_cases X h.zip c with ⟨hr, hp⟩ | ⟨hr, -, he⟩
  · rw [if_pos hr]
    exact ⟨hpresents, hopened, (congrArg editsOf hp).trans ht.edits, ht.path⟩
  · rw [if_neg hr]
    exact ⟨hpresents, hopened, by rw [he, ht.edits, hlen], ht.path⟩

/-- Reading from the archive of a handle keeps it in accord with its snapshot. -/
theorem Accords.read {h : Handle} {s : Snapshot} (ht : Accords X h s) (calls : List ArchiveCall) :
    Accords X { h with zip := { h.zip with archive := after X calls h.zip.archive } } s := by
  obtain ⟨src, a, before, hopen, ha⟩ := ht.opened
  refine ⟨Presents.after ht.presents calls, ⟨src, a, before ++ calls, hopen, ?_⟩, ht.edits, ht.path⟩
  rw [ha, Spec.after, Spec.after, Spec.after, List.foldl_append]

theorem Accords.cacheOk {h : Handle} {s : Snapshot} (ht : Accords X h s) : h.zip.archive.CacheOk := by
  obtain ⟨src, a, calls, hopen, ha⟩ := ht.opened
  rw [ha]
  exact (grown_after X calls a).cache (open_cacheOk hopen)

section
variable {zone : Zone} {sched : Schedule} {index : Nat} {flags : UInt32} {start : UInt64} {len : Int64}

/-- Making a source of an entry reads the archive. -/
theorem sourceZip_archive (z : Zip) : ∃ calls,
    (zipSourceZipCreate (σ := Empty) X zone sched z index flags start len none).2.1 =
      { z with archive := after X calls z.archive } := by
  have hdata : ∃ calls, (z.archive.sourceData X sched index flags).2 = after X calls z.archive := by
    unfold Archive.sourceData
    split
    · exact ⟨[], rfl⟩
    · exact ⟨[.readEntry sched index none], rfl⟩
  obtain ⟨calls, hcalls⟩ := hdata
  refine ⟨calls, ?_⟩
  rw [← hcalls]
  unfold zipSourceZipCreate
  dsimp only
  split <;> rfl

end

/-- The call with the bytes of the source. -/
def supplyCall (data : Vec) : SupplyCall → ZipCall
  | .fileAdd name flags => .fileAdd name (some (.memory data)) flags
  | .fileReplace index => .fileReplace index (some (.memory data))

theorem supply_run (X : Extern) (z : Zip) (data : Vec) (c : SupplyCall) :
    (c.run z data).1 = ((supplyCall data c).run X z).1 ∧
      (c.run z data).2.1 = ((supplyCall data c).run X z).2 := by
  cases c <;> exact ⟨rfl, rfl⟩

theorem supply_effect (a : Archive) (data : Vec) (c : SupplyCall) :
    (supplyCall data c).effect a = (c.supply a).effect data := by
  cases c with
  | fileAdd name flags =>
    simp only [supplyCall, ZipCall.effect, SupplyCall.supply]
    cases a.nameLocate (nameArg name) <;> rfl
  | fileReplace index => rfl

theorem Accords.supply {h : Handle} {s : Snapshot} (ht : Accords X h s) (data : Vec) (c : SupplyCall) :
    Accords X { h with zip := (c.run h.zip data).2.1 } (if (c.run h.zip data).1 = -1 then s
      else { s with edits :=
        ((c.supply h.zip.archive).effect data).apply s.members.length s.edits }) := by
  obtain ⟨hr, hz⟩ := supply_run X h.zip data c
  rw [hr, hz, ← supply_effect]
  exact Accords.call ht (supplyCall data c)

/-- What a close can come to: the handle is released, or is left after a panic, or the archive is written to
its file. -/
inductive Closed (X : Extern) (sched : Nat → Schedule) (outcome : WriteOutcome) (files : Files) (i : Nat)
    (h : Handle) : Prop
  | released (r : Int) (hclose : zipClose X sched outcome files h = (r, files, none))
    (hevent : closeEvent X sched outcome i h = .released i)
  | left (r : Int) (hclose : zipClose X sched outcome files h = (r, files, some h))
    (hevent : closeEvent X sched outcome i h = .nothing)
  | wrote (r : Int) (path : Str) (out : Vec) (hwrite : h.shouldWrite = true) (hpath : h.path = some path)
    (hm : h.zip.materialize X sched = .ok out)
    (hclose : zipClose X sched outcome files h = (r, (writeFile outcome files path out).2, none))
    (hevent : outcome = .written → closeEvent X sched outcome i h = .committed i)

theorem closed (X : Extern) (sched : Nat → Schedule) (outcome : WriteOutcome) (files : Files) (i : Nat)
    (h : Handle) : Closed X sched outcome files i h := by
  by_cases hwrite : h.shouldWrite = true
  · have hno : ¬(!h.shouldWrite) = true := by rw [hwrite]; exact Bool.false_ne_true
    have hclose : zipClose X sched outcome files h = _ := if_neg hno
    have hevent : closeEvent X sched outcome i h = _ := if_neg hno
    cases hm : h.zip.materialize X sched with
    | error e =>
      rw [hm] at hclose hevent
      cases e with
      | err code => exact .released _ hclose hevent
      | panic => exact .left _ hclose hevent
    | ok out =>
      rw [hm] at hclose hevent
      cases hpath : h.path with
      | none =>
        rw [hpath] at hclose hevent
        exact .released _ hclose (by cases outcome <;> exact hevent)
      | some path =>
        rw [hpath] at hclose hevent
        refine .wrote _ path out hwrite hpath hm hclose ?_
        rintro rfl
        exact hevent
  · have hyes : (!h.shouldWrite) = true := by rw [Bool.eq_false_iff.mpr hwrite]; rfl
    exact .released _ (if_pos hyes) (if_pos hyes)

/-! ### Closing -/

/-- A file is made, with one entry, and opened again; the entry is copied to another file. -/
def sessionCalls : List ProcessCall :=
  [.open ⟨true, true, true⟩ (some [0x7A]) zipCreate,
    .call 0 (.fileAdd (some [0x62]) (some (.memory (oneByte 0x6A))) 0),
    .close 0 (fun _ => bytewise) .written, .open ⟨true, true, true⟩ (some [0x7A]) zipRdonly,
    .open ⟨true, true, true⟩ (some [0x79]) zipCreate, .sourceZip 1 ⟨fun _ => .none, fun _ => 0⟩ bytewise 0 0 0 (-1),
    .supply 2 0 (.fileAdd (some [0x63]) 0), .close 2 (fun _ => bytewise) .written]

/-- A process before its first call. -/
def freshProcess : Process := { files := fun _ => none, handles := [], sources := [] }

/-- The file has these bytes, and no handle of it has anything to write. -/
structure HandsOff (path : Str) (bytes : Vec) (p : Process) : Prop where
  file : p.files path = some bytes
  idle : ∀ i h, p.handle i = some h → h.path = some path → OpenedReadOnly h.zip ∧ h.existed = true

theorem OpenedReadOnly.shouldWrite {h : Handle} (hzip : OpenedReadOnly h.zip) (hexisted : h.existed = true) :
    h.shouldWrite = false := by
  rw [Handle.shouldWrite, hzip.pending, hexisted]
  rfl

/-- A close writes no file but its own. -/
theorem close_files {sched : Nat → Schedule} {outcome : WriteOutcome} {files : Files} {h : Handle} {path : Str}
    (hother : h.path = some path → h.shouldWrite = false) :
    (zipClose X sched outcome files h).2.1 path = files path := by
  cases closed X sched outcome files 0 h with
  | released r hclose => rw [hclose]
  | left r hclose => rw [hclose]
  | wrote r path' out hwrite hpath hm hclose =>
    have hne : path ≠ path' := by
      rintro rfl
      rw [hother hpath] at hwrite
      cases hwrite
    rw [hclose]
    cases outcome <;> exact if_neg hne

variable {path : Str} {bytes : Vec}

theorem HandsOff.append (h : HandsOff path bytes p) (new : Option Handle)
    (hnew : ∀ handle, new = some handle → handle.path = some path →
      OpenedReadOnly handle.zip ∧ handle.existed = true) :
    HandsOff path bytes { p with handles := p.handles ++ [new] } where
  file := h.file
  idle := fun i handle hi => by
    rw [Process.handle, join_append] at hi
    split at hi
    · exact hnew handle hi
    · exact h.idle i handle hi

theorem HandsOff.set (h : HandsOff path bytes p) (i : Nat) {files : Files} (new : Option Handle)
    (sources : List (Option Vec)) (hfile : files path = p.files path)
    (hnew : ∀ handle, new = some handle → handle.path = some path →
      OpenedReadOnly handle.zip ∧ handle.existed = true) :
    HandsOff path bytes { files, handles := p.handles.set i new, sources } where
  file := hfile.trans h.file
  idle := fun j handle hj => by
    rw [Process.handle, join_set] at hj
    split at hj
    · exact hnew handle hj
    · exact h.idle j handle hj

/-- Whatever other file was written, a handle has what it had to write. -/
theorem HandsOff.rewrite (h : HandsOff path bytes p) (before after : Files) (written : Option Str) :
    HandsOff path bytes { p with handles := rewriteAll before after written p.handles } where
  file := h.file
  idle := fun j handle hj hpath => by
    have hsame : ∃ old, p.handle j = some old ∧ old.path = handle.path ∧ old.existed = handle.existed ∧
        old.zip.flags = handle.zip.flags ∧ old.zip.pending = handle.zip.pending := by
      simp only [Process.handle, rewriteAll] at hj
      split at hj
      · split at hj
        · exact ⟨handle, hj, rfl, rfl, rfl, rfl⟩
        · rw [List.getElem?_map, Option.join_map_eq_map_join] at hj
          obtain ⟨old, hold, rfl⟩ := Option.map_eq_some_iff.mp hj
          refine ⟨old, hold, ?_⟩
          unfold rewritten
          repeat' split
          all_goals exact ⟨rfl, rfl, rfl, rfl⟩
      · exact ⟨handle, hj, rfl, rfl, rfl, rfl⟩
    obtain ⟨old, hold, hpath', hexisted, hflags, hpending⟩ := hsame
    obtain ⟨hzip, hthere⟩ := h.idle j old hold (hpath'.trans hpath)
    refine ⟨⟨?_, hpending.symm.trans hzip.pending⟩, hexisted.symm.trans hthere⟩
    rw [Zip.readOnly, ← hflags]
    exact hzip.readOnly

theorem handsOff_step (h : HandsOff path bytes p) {c : ProcessCall} (hc : OpensReadOnly path c) :
    HandsOff path bytes (p.step X c) := by
  cases c with
  | «open» env arg flags =>
    refine h.append _ fun handle heq hpath => ?_
    obtain ⟨path', archive, rfl, -⟩ := zipOpen_some heq
    cases hpath
    have hflags : flags &&& zipRdonly ≠ 0 := hc (zipOpen_path heq)
    exact ⟨⟨decide_eq_true hflags, rfl⟩, by rw [h.file]; rfl⟩
  | openFromSource source flags =>
    refine h.append _ fun handle heq hpath => ?_
    obtain ⟨z, -, rfl⟩ := Option.map_eq_some_iff.mp heq
    cases hpath
  | fdopen fd flags =>
    refine h.append _ fun handle heq hpath => ?_
    rw [zipFdopen_path heq] at hpath
    cases hpath
  | call i c =>
    simp only [Process.step]
    cases hi : p.handle i with
    | none => exact h
    | some handle =>
      refine h.set i _ p.sources rfl fun handle' heq hpath => ?_
      cases heq
      obtain ⟨hzip, hexisted⟩ := h.idle i handle hi hpath
      exact ⟨openedReadOnly_step hzip c, hexisted⟩
  | buffer data => exact ⟨h.file, h.idle⟩
  | sourceZip i zone sched index flags start len =>
    simp only [Process.step]
    cases hi : p.handle i with
    | none => exact h
    | some handle =>
      obtain ⟨calls, hcalls⟩ := @sourceZip_archive X zone sched index flags start len handle.zip
      dsimp only
      rw [hcalls]
      refine h.set i _ _ rfl fun handle' heq hpath => ?_
      cases heq
      obtain ⟨hzip, hexisted⟩ := h.idle i handle hi hpath
      exact ⟨⟨hzip.readOnly, hzip.pending⟩, hexisted⟩
  | supply i s c =>
    simp only [Process.step]
    cases hi : p.handle i with
    | none => exact h
    | some handle =>
      cases hs : p.source s with
      | none => exact h
      | some data =>
        refine h.set i _ _ rfl fun handle' heq hpath => ?_
        cases heq
        obtain ⟨hzip, hexisted⟩ := h.idle i handle hi hpath
        have hstep := openedReadOnly_step (X := X) hzip (supplyCall data c)
        rw [step, ← (supply_run X handle.zip data c).2] at hstep
        exact ⟨hstep, hexisted⟩
  | close i sched outcome =>
    simp only [Process.step]
    cases hi : p.handle i with
    | none => exact h
    | some handle =>
      have hfile : (zipClose X sched outcome p.files handle).2.1 path = p.files path :=
        close_files fun hpath => (h.idle i handle hi hpath).1.shouldWrite (h.idle i handle hi hpath).2
      refine (h.set i _ p.sources hfile fun handle' heq hpath => ?_).rewrite p.files _ handle.path
      cases closed X sched outcome p.files i handle with
      | released r hclose =>
        rw [hclose] at heq
        cases heq
      | left r hclose =>
        rw [hclose] at heq
        cases heq
        exact h.idle i handle hi hpath
      | wrote r path' out _ _ _ hclose =>
        rw [hclose] at heq
        cases heq
  | discard i => exact h.set i none p.sources rfl fun handle heq => absurd heq (Option.some_ne_none handle).symm

/-- A file that is only opened read-only keeps its bytes, whatever else the process does. -/
theorem readOnly_file_kept (X : Extern) (hfile : p.files path = some bytes)
    (hnone : ∀ i h, p.handle i = some h → h.path ≠ some path) {calls : List ProcessCall}
    (hcalls : ∀ c ∈ calls, OpensReadOnly path c) :
    (calls.foldl (Process.step X) p).files path = some bytes := by
  have hidle : HandsOff path bytes p := ⟨hfile, fun i h hi hpath => absurd hpath (hnone i h hi)⟩
  have hrun : Along (Process.step X) (fun _ => OpensReadOnly path) p calls := .of_forall hcalls
  exact (hrun.invariant (I := HandsOff path bytes) (fun _ _ h hc => handsOff_step h hc) hidle).file

/-- A file is opened read-only, its entry is deleted, and the handle is closed. -/
theorem readOnly_file_kept_sample :
    let archive : Vec := ⟨sampleArchive, by decide⟩
    let calls : List ProcessCall :=
      [.open ⟨true, true, true⟩ (some [0x7A]) zipRdonly, .call 0 (.delete 0), .close 0 (fun _ => bytewise) .written]
    (calls.foldl (Process.step reference) ⟨fun _ => some archive, [], []⟩).files ['z'] = some archive := by
  intro archive calls
  have hnone : ∀ i h, Process.handle ⟨fun _ => some archive, [], []⟩ i = some h → h.path ≠ some ['z'] := by
    intro i h hi
    cases i <;> cases hi
  have hcalls : ∀ c ∈ calls, OpensReadOnly ['z'] c := by decide
  exact readOnly_file_kept reference rfl hnone hcalls

end Kzip.Impl
