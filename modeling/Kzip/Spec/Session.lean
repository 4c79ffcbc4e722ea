import Kzip.Impl.Session
import Kzip.Lib.Run
import Kzip.Spec.Close
import Kzip.Spec.Copy

/-!
# Archives as stores

A process that opens, edits and closes any number of handles in any order, and copies entries between them
(`Process`), and what it should come to: every file is an archive that holds a list of members (`Catalog`), a
handle has the members that the file held when it was opened, a source made of an entry has the data of the
member, and a close puts the members that its edits leave (`commit`) in their place.
-/

namespace Kzip.Spec

open Lib Lib.Utf8 Kzip.Impl

/-! ## The process -/

structure Process where
  files : Files
  /-- In the order of the calls that made them; `none` is null, or was freed. -/
  handles : List (Option Handle)
  /-- The bytes of the sources in memory, in the order of the calls that made them; `none` is null. -/
  sources : List (Option Vec)

/-- The calls that take the bytes of a source. -/
inductive SupplyCall where
  | fileAdd (name : Option Bytes) (flags : UInt32)
  | fileReplace (index : Nat)

def SupplyCall.run (z : Zip) (data : Vec) : SupplyCall → Int × Zip × Option ZipSource
  | .fileAdd name flags => z.fileAdd name (some (.memory data)) flags
  | .fileReplace index => z.fileReplace index (some (.memory data))

inductive ProcessCall where
  | open (env : OpenEnv) (path : Option Bytes) (flags : Int32)
  | openFromSource (source : Option ZipSource) (flags : Int32)
  | fdopen (fd : Descriptor) (flags : Int32)
  | call (i : Nat) (c : ZipCall)
  /-- `zip_source_buffer` -/
  | buffer (data : Vec)
  /-- `zip_source_zip_create`, in a time zone -/
  | sourceZip (i : Nat) (zone : Zone) (sched : Schedule) (index : Nat) (flags : UInt32) (start : UInt64) (len : Int64)
  | supply (i s : Nat) (c : SupplyCall)
  | close (i : Nat) (sched : Nat → Schedule) (outcome : WriteOutcome)
  | discard (i : Nat)

def Process.handle (p : Process) (i : Nat) : Option Handle := p.handles[i]?.join

def Process.source (p : Process) (s : Nat) : Option Vec := p.sources[s]?.join

/-- The bytes of a source in memory. -/
def memoryOf : ZipSource → Option Vec
  | .memory data => some data
  | .callback _ => none

def bufferOf (s : SourceHandle Empty) : Vec :=
  match s.backend with
  | .memory m _ => m.data
  | .callback ud => nomatch ud

/-- Whether entries are read from the file, and not from a copy of it that was made when it was opened. -/
def readsFile (h : Handle) : Bool :=
  match h.zip.archive.src.kind with
  | .file _ | .mmap | .shared => true
  | .vec | .arc => false

/-- A handle after a file was written: what it reads from the file is what is there now. -/
def rewritten (path : Str) (file : Option Vec) (h : Handle) : Handle :=
  match file with
  | some bytes => if h.path = some path ∧ readsFile h = true then { h with zip.archive.src.bytes := bytes.val } else h
  | none => h

/-- The handles after the file of one of them was closed. -/
def rewriteAll (before after : Files) (path : Option Str) (handles : List (Option Handle)) : List (Option Handle) :=
  match path with
  | some path =>
    if after path = before path then handles else handles.map (Option.map (rewritten path (after path)))
  | none => handles

section
variable (X : Extern)

/-- A call; one on a handle or a source that is not there does nothing. -/
def Process.step (p : Process) : ProcessCall → Process
  | .open env path flags =>
    { p with handles := p.handles ++ [(zipOpen X env p.files path flags).1] }
  | .openFromSource source flags =>
    { p with handles := p.handles ++ [(openSource X source flags).toOption.map .detached] }
  | .fdopen fd flags => { p with handles := p.handles ++ [(zipFdopen fd flags).1] }
  | .call i c =>
    match p.handle i with
    | some h => { p with handles := p.handles.set i (some { h with zip := (c.run X h.zip).2 }) }
    | none => p
  | .buffer data => { p with sources := p.sources ++ [some data] }
  | .sourceZip i zone sched index flags start len =>
    match p.handle i with
    | some h =>
      let (src, z, _) := zipSourceZipCreate X zone sched h.zip index flags start len none
      { p with handles := p.handles.set i (some { h with zip := z }),
               sources := p.sources ++ [src.map bufferOf] }
    | none => p
  | .supply i s c =>
    match p.handle i, p.source s with
    | some h, some data =>
      let (_, z, left) := c.run h.zip data
      { p with handles := p.handles.set i (some { h with zip := z }),
               sources := p.sources.set s (left.bind memoryOf) }
    | _, _ => p
  | .close i sched outcome =>
    match p.handle i with
    | some h =>
      let (_, files, left) := zipClose X sched outcome p.files h
      { p with files, handles := rewriteAll p.files files h.path (p.handles.set i left) }
    | none => p
  | .discard i => { p with handles := p.handles.set i none }

end

/-! ## Members -/

/-- What an archive holds of one of its entries. -/
structure Member where
  name : Str
  data : Vec
  comment : Bytes
  extraFields : List ExtraField
  lastModTime : UInt16
  lastModDate : UInt16
  opsys : UInt8
  externalAttributes : UInt32
  deriving DecidableEq

/-- The member that a file is written as. -/
def Member.ofFile (f : ArchiveFile) : Member :=
  { name := f.name, data := f.data, comment := f.comment.getD [],
    extraFields := userFields f.extraFields, lastModTime := f.lastModTime,
    lastModDate := f.lastModDate, opsys := f.opsys, externalAttributes := f.externalAttributes }

/-- The member that an entry shows, with its content. -/
def memberOf (d : Dirent) (data : Vec) : Member :=
  { name := d.filename, data, comment := asBytes d.comment, extraFields := userFields d.extraFields,
    lastModTime := d.lastModTime, lastModDate := d.lastModDate,
    opsys := (d.versionMadeby >>> 8).toUInt8, externalAttributes := d.extAttrib }

section
variable (X : Extern)

/-- The time and date of a member after its pending edits. -/
def Member.timeAfter (m : Member) (o : EntryOps) : UInt16 × UInt16 :=
  match o.mtimes.getLast?, o.dostimes.getLast? with
  | some ut, _ => unixToDos X (max ut 0).toNat
  | none, some t => t
  | none, none => (m.lastModTime, m.lastModDate)

/-- A member after its pending edits: of the names and contents the first counts, of the other settings the
last. -/
def Member.edited (m : Member) (o : EntryOps) : Member :=
  let time := m.timeAfter X o
  let attrs := o.extAttrs.getLast?.getD (m.opsys, m.externalAttributes)
  { name := o.renames.head?.getD m.name, data := o.replaces.head?.getD m.data,
    comment := o.comments.getLast?.elim m.comment (·.getD []),
    extraFields := userFields (o.extraFieldOps.foldl ExtraFieldOp.apply m.extraFields),
    lastModTime := time.1, lastModDate := time.2, opsys := attrs.1, externalAttributes := attrs.2 }

/-- The member that a pending add makes. -/
def Member.added (add : PendingAdd) (o : EntryOps) : Member :=
  { (Member.ofFile (.new add.name add.data)).edited X o with name := add.name, data := add.data }

/-- The members after the edits: those that are not deleted, then those that are added. -/
def commit (ms : List Member) (e : Edits) : List Member :=
  (present ms.length e).filterMap fun i =>
    if i < ms.length then ms[i]?.map (·.edited X (e.ops i))
    else e.adds[i - ms.length]?.map (Member.added X · (e.ops i))

/-- The archive has the members, in order, and no comment. -/
structure Presents (a : Archive) (ms : List Member) : Prop where
  comment : a.comment = []
  length : a.entries.length = ms.length
  entry : ∀ (i : Nat) m, ms[i]? = some m →
    (∃ d, a.entries[i]? = some d ∧ memberOf d m.data = m) ∧ ReadsAs X a i m.data.val

/-- The bytes are those of an archive that has the members, from whatever they are read. -/
def ArchiveOf (bytes : Vec) (ms : List Member) : Prop :=
  ∀ kind, ∃ a, Archive.open { kind, bytes := bytes.val } = .ok a ∧ Presents X a ms

/-! ## The catalog -/

/-- A handle: the members that it was opened with, and its pending edits. -/
structure Snapshot where
  members : List Member
  edits : Edits
  path : Str

structure Catalog where
  files : Str → Option (List Member)
  handles : List (Option Snapshot)
  sources : List (Option Vec)

/-- What the bytes of a source are taken for. -/
inductive Supply where
  | replace (index : Nat)
  | add (name : Str)

def Supply.effect (data : Vec) : Supply → Effect
  | .replace index => .record index (.replace data)
  | .add name => .add { name, data }

/-- What a call of the process comes to. -/
inductive Event where
  | nothing
  /-- A handle with a path, on an archive that is new or on the one in the file. -/
  | opened (path : Str) (fresh : Bool)
  /-- No handle, or one without a path. -/
  | detached
  | edited (i : Nat) (x : Effect)
  /-- A source of these bytes. -/
  | buffered (data : Option Vec)
  /-- A source of a window of a member, if there is one. -/
  | taken (i index : Nat) (start : UInt64) (len : Int64)
  /-- The bytes of a source are moved into an edit. -/
  | supplied (i s : Nat) (x : Supply)
  | emptied (s : Nat)
  | committed (i : Nat)
  | released (i : Nat)

def Catalog.handle (k : Catalog) (i : Nat) : Option Snapshot := k.handles[i]?.join

def Catalog.source (k : Catalog) (s : Nat) : Option Vec := k.sources[s]?.join

def Catalog.step (k : Catalog) : Event → Catalog
  | .nothing => k
  | .opened path fresh =>
    let members := if fresh then [] else (k.files path).getD []
    { k with handles := k.handles ++ [some { members, edits := editsOf .default, path }] }
  | .detached => { k with handles := k.handles ++ [none] }
  | .edited i x =>
    match k.handle i with
    | some s =>
      let s := { s with edits := x.apply s.members.length s.edits }
      { k with handles := k.handles.set i (some s) }
    | none => k
  | .buffered data => { k with sources := k.sources ++ [data] }
  | .taken i index start len =>
    match k.handle i with
    | some s => { k with sources := k.sources ++ [s.members[index]?.bind fun m => window m.data start len] }
    | none => k
  | .supplied i s x =>
    match k.handle i, k.source s with
    | some h, some data =>
      let h := { h with edits := (x.effect data).apply h.members.length h.edits }
      { k with handles := k.handles.set i (some h), sources := k.sources.set s (some .nil) }
    | _, _ => k
  | .emptied s => { k with sources := k.sources.set s (some .nil) }
  | .committed i =>
    match k.handle i with
    | some s =>
      let files := Function.update k.files s.path (some (commit X s.members s.edits))
      { k with files, handles := k.handles.set i none }
    | none => k
  | .released i => { k with handles := k.handles.set i none }

/-- What a handle that was just made is in the catalog. -/
def openEvent (flags : Int32) : Option Handle → Event
  | none => .detached
  | some h => h.path.elim .detached fun path => .opened path (!h.existed || flags &&& zipTruncate ≠ 0)

/-- What a close comes to. -/
def closeEvent (sched : Nat → Schedule) (outcome : WriteOutcome) (i : Nat) (h : Handle) : Event :=
  if !h.shouldWrite then .released i
  else
    match h.zip.materialize X sched with
    | .error .panic => .nothing
    | .error (.err _) => .released i
    | .ok _ =>
      match outcome with
      | .written => if h.path.isSome then .committed i else .released i
      | .failed _ => .released i

/-- What making a source of an entry comes to: the stored bytes of an entry are not known to the catalog. -/
def sourceEvent (zone : Zone) (sched : Schedule) (i : Nat) (h : Handle) (index : Nat) (flags : UInt32)
    (start : UInt64) (len : Int64) : Event :=
  if h.path.isSome ∧ flags &&& zipFlCompressed = 0 then .taken i index start len
  else .buffered ((zipSourceZipCreate X zone sched h.zip index flags start len none).1.map bufferOf)

/-- What the bytes of a source become if they are taken. -/
def SupplyCall.supply (a : Archive) : SupplyCall → Supply
  | .fileAdd name _ =>
    match a.nameLocate (nameArg name) with
    | some index => .replace index
    | none => .add (nameArg name)
  | .fileReplace index => .replace index

/-- What supplying an edit with a source comes to: a call that fails may have emptied the source. -/
def supplyEvent (i s : Nat) (h : Handle) (data : Vec) (c : SupplyCall) : Event :=
  let (r, _, left) := c.run h.zip data
  if r = -1 then if left = some (.memory data) then .nothing else .emptied s
  else if h.path.isSome then .supplied i s (c.supply h.zip.archive) else .emptied s

/-- What a call comes to: an edit counts if the call succeeds. -/
def event (p : Process) : ProcessCall → Event
  | .open env path flags => openEvent flags (zipOpen X env p.files path flags).1
  | .openFromSource .. | .fdopen .. => .detached
  | .call i c =>
    match p.handle i with
    | some h => if (c.run X h.zip).1 = -1 then .nothing else .edited i (c.effect h.zip.archive)
    | none => .nothing
  | .buffer data => .buffered (some data)
  | .sourceZip i zone sched index flags start len =>
    match p.handle i with
    | some h => sourceEvent X zone sched i h index flags start len
    | none => .nothing
  | .supply i s c =>
    match p.handle i, p.source s with
    | some h, some data => supplyEvent i s h data c
    | _, _ => .nothing
  | .close i sched outcome =>
    match p.handle i with
    | some h => closeEvent X sched outcome i h
    | none => .nothing
  | .discard i => .released i

/-- The events of a run. -/
def events (p : Process) (calls : List ProcessCall) : List Event :=
  outputs (fun p c => (Process.step X p c, event X p c)) p calls

/-! ## What is asked of a close -/

/-- What is written is an archive that can be read again: no entry is encrypted, every file is portable,
the archive has no comment and is small, and no bytes before its end record look like a locator. -/
structure Plain (z : Zip) (plan : List (ArchiveFile × UInt16)) (out : Vec) : Prop where
  plain : ∀ f ∈ plan, f.2 = encryption.none
  portable : ∀ f ∈ plan, Portable f.1
  comment : z.pending.archiveComment.getD [] = []
  small : out.val.length < 2 ^ 30
  locator : writesLocator X (plan.map (·.1)) .default = false → locatorOf out.val = none

/-- A handle of a file is the snapshot: its archive shows the members, and its pending edits are those of
the snapshot. -/
structure Accords (h : Handle) (s : Snapshot) : Prop where
  presents : Presents X h.zip.archive s.members
  opened : ∃ src a calls, Archive.open src = .ok a ∧ h.zip.archive = after X calls a
  edits : editsOf h.zip.pending = s.edits
  path : h.path = some s.path

/-- The process is as the catalog says: every file is an archive of its members, every handle of a file is its
snapshot, and the sources hold the same bytes. -/
structure Follows (p : Process) (k : Catalog) : Prop where
  files : ∀ path, Option.Rel (ArchiveOf X) (p.files path) (k.files path)
  length : k.handles.length = p.handles.length
  sources : p.sources = k.sources
  handle : ∀ i h, p.handle i = some h → h.path.isSome → ∃ s, k.handle i = some s ∧ Accords X h s

end

/-! ## Read-only handles -/

/-- The call does not open the file, or opens it read-only. -/
def OpensReadOnly (path : Str) : ProcessCall → Prop
  | .open _ arg flags => cStr arg = some path → flags &&& zipRdonly ≠ 0
  | .openFromSource .. | .fdopen .. | .call .. | .buffer _ | .sourceZip .. | .supply .. | .close .. | .discard _ =>
    True

instance (path : Str) : (c : ProcessCall) → Decidable (OpensReadOnly path c)
  | .open _ arg flags => inferInstanceAs (Decidable (cStr arg = some path → flags &&& zipRdonly ≠ 0))
  | .openFromSource .. | .fdopen .. | .call .. | .buffer _ | .sourceZip .. | .supply .. | .close .. | .discard _ =>
    .isTrue trivial

end Kzip.Spec
