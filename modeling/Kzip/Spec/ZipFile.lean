import Kzip.Impl.ZipFile
import Kzip.Spec.Edit
import Kzip.Spec.WriteSession

/-!
# Files as their readers see them

An open archive with the files that are open on it (`ZipFiles`), and a table of cursors that says what they
should do (`FileTable`). A cursor stands in the content that its entry had when the archive was opened. Of a
file on an entry whose content cannot be read nothing is said, but that it is open until it is closed.
-/

namespace Kzip.Spec

open Lib Lib.Utf8 Kzip.Impl

/-! ## Calls -/

inductive Opening where
  | byName (name : Option Bytes)
  | byIndex (index : Nat)
  | encryptedByName (Z : Zone) (sched : Schedule) (name password : Option Bytes)
  | encryptedByIndex (Z : Zone) (sched : Schedule) (index : Nat) (password : Option Bytes)

inductive ZipFileOp where
  | read (buf : Bool) (call : ReadCall)
  | seek (offset : Int64) (whence : Int32)
  | tell
  | isSeekable
  | close

def ZipFileOp.closes : ZipFileOp → Bool
  | .close => true
  | .read .. | .seek .. | .tell | .isSeekable => false

inductive ZipFileCall where
  /-- A call on the archive. -/
  | call (c : ZipCall)
  | open (o : Opening)
  | file (f : Nat) (op : ZipFileOp)

structure ZipFiles where
  zip : Zip
  files : List (Option ZipFile)

/-- What a call returns, and the bytes that it puts into the buffer of its caller. A handle is 0, and a null
pointer -1. -/
structure Reply where
  returned : Int
  bytes : Bytes
  deriving DecidableEq

def Opening.run (X : Extern) (z : Zip) : Opening → Option ZipFile × Zip
  | .byName name => zipFopen X z name
  | .byIndex index => zipFopenIndex X z index
  | .encryptedByName Z sched name password => zipFopenEncrypted X Z sched z name password
  | .encryptedByIndex Z sched index password => zipFopenIndexEncrypted X Z sched z index password

/-- A call on a file; it leaves the file, unless that was closed. -/
def ZipFileOp.run (X : Extern) (z : Zip) (f : ZipFile) : ZipFileOp → Reply × Option ZipFile × Zip
  | .read buf call => let (n, bs, f) := zipFread X f buf call; (⟨n, bs⟩, some f, z)
  | .seek offset whence => let (r, f) := zipFseek X f offset whence; (⟨r, []⟩, some f, z)
  | .tell => (⟨zipFtell f, []⟩, some f, z)
  | .isSeekable => (⟨zipFileIsSeekable f, []⟩, some f, z)
  | .close => (⟨0, []⟩, none, zipFclose z f)

/-- A call; one on a file that is not open fails. -/
def ZipFiles.step (X : Extern) (s : ZipFiles) : ZipFileCall → ZipFiles × Reply
  | .call c => let (r, zip) := c.run X s.zip; ({ s with zip }, ⟨r, []⟩)
  | .open o =>
    let (file, zip) := o.run X s.zip
    ({ zip, files := s.files ++ [file] }, ⟨if file.isSome then 0 else -1, []⟩)
  | .file f op =>
    match s.files[f]?.join with
    | some file =>
      let (reply, left, zip) := op.run X s.zip file
      ({ zip, files := s.files.set f left }, reply)
    | none => (s, ⟨-1, []⟩)

/-! ## Cursors -/

/-- A cursor in the content of an entry. -/
structure View where
  content : Vec
  cursor : Nat
  seekable : Bool
  /-- Whether it was sought in, or read from without taking anything. -/
  checked : Bool

/-- The bytes that the next read takes; a reader that decompresses may have fewer ready than there is room
for. -/
def View.next (v : View) (call : ReadCall) : Bytes :=
  (v.content.val.drop v.cursor).take (if v.seekable then call.len else min call.len (call.ready + 1))

def View.read (v : View) (call : ReadCall) : Reply × View :=
  let bs := v.next call
  (⟨bs.length, bs⟩, { v with cursor := v.cursor + bs.length, checked := v.checked || bs.isEmpty })

/-- A seek, to the end at most. -/
def View.seek (v : View) (offset : Int64) (whence : Int32) : Reply × View :=
  match (target whence offset v.cursor v.content.val.length).filter fun n => 0 ≤ n ∧ n < 2 ^ 63 with
  | some n =>
    if v.seekable then
      (⟨0, []⟩, { v with cursor := min n.toNat v.content.val.length, checked := true })
    else (⟨-1, []⟩, v)
  | none => (⟨-1, []⟩, v)

def View.run (v : View) : ZipFileOp → Reply × Option View
  | .read buf call =>
    if buf then let (reply, v) := v.read call; (reply, some v) else (⟨-1, []⟩, some v)
  | .seek offset whence => let (reply, v) := v.seek offset whence; (reply, some v)
  | .tell => (⟨v.cursor, []⟩, some v)
  | .isSeekable => (⟨if v.seekable then 1 else 0, []⟩, some v)
  | .close => (⟨0, []⟩, none)

/-- An empty read before the end of the content, in a file that was not sought in and had none before: the
reader takes it for the end, and fails its check of the size. -/
def View.stumbles (v : View) : ZipFileOp → Bool
  | .read buf call => buf && call.len == 0 && v.cursor < v.content.val.length && !v.checked
  | .seek .. | .tell | .isSeekable | .close => false

/-! ## The table -/

/-- A file that is open: on content that cannot be read, or at a cursor. -/
inductive OpenFile where
  | unreadable
  | cursor (v : View)

/-- The names and the contents of an archive, the entries that are decoded as a whole when they are opened, the
default password, and the files that were opened. The content of an entry depends on the password. -/
structure FileTable where
  names : List Str
  content : Nat → Option Bytes → Option Vec
  whole : Nat → Bool
  password : Option Bytes
  files : List (Option OpenFile)

/-- The entry and the password that are asked for, if there is such an entry. -/
def FileTable.wanted (t : FileTable) : Opening → Option (Nat × Option Bytes)
  | .byName name => (cStr name).bind fun name =>
    (t.names.findIdx? (· == name)).map fun index => (index, t.password)
  | .byIndex index => if index < t.names.length then some (index, t.password) else none
  | .encryptedByName _ _ name password => (cStr name).bind fun name => password.bind fun pw =>
    (t.names.findIdx? (· == name)).map fun index => (index, some pw)
  | .encryptedByIndex _ _ index password => password.bind fun pw =>
    if index < t.names.length then some (index, some pw) else none

/-- Whether the content is decoded before the file is open. -/
def Opening.decodes : Opening → Bool
  | .byName _ | .byIndex _ => false
  | .encryptedByName .. | .encryptedByIndex .. => true

/-- The default password after a call. -/
def ZipCall.passwordAfter (password : Option Bytes) : ZipCall → Option Bytes
  | .setDefaultPassword (some pw) => some pw
  | _ => password

/-- What a call replies. -/
inductive FileTable.Step : FileTable → ZipFileCall → Reply → FileTable → Prop
  | called (t : FileTable) (c : ZipCall) (r : Reply) :
    Step t (.call c) r { t with password := c.passwordAfter t.password }
  /-- A file can be sought in if its content was decoded as a whole. -/
  | opened (t : FileTable) (o : Opening) (index : Nat) (password : Option Bytes) (content : Vec)
    (hwanted : t.wanted o = some (index, password)) (hcontent : t.content index password = some content) :
    Step t (.open o) ⟨0, []⟩
      { t with files := t.files ++
        [some (.cursor { content, cursor := 0, seekable := o.decodes || t.whole index, checked := false })] }
  /-- That the content cannot be read may show now or in the reads. -/
  | unreadable (t : FileTable) (o : Opening) (index : Nat) (password : Option Bytes) (file : Option OpenFile)
    (hwanted : t.wanted o = some (index, password)) (hcontent : t.content index password = none)
    (hfile : file = none ∨ file = some .unreadable) :
    Step t (.open o) ⟨if file.isSome then 0 else -1, []⟩ { t with files := t.files ++ [file] }
  | refused (t : FileTable) (o : Opening) (hwanted : t.wanted o = none) :
    Step t (.open o) ⟨-1, []⟩ { t with files := t.files ++ [none] }
  | answered (t : FileTable) (f : Nat) (op : ZipFileOp) (v : View) (hfile : t.files[f]?.join = some (.cursor v))
    (hop : v.stumbles op = false) :
    Step t (.file f op) (v.run op).1 { t with files := t.files.set f ((v.run op).2.map .cursor) }
  | stumbled (t : FileTable) (f : Nat) (op : ZipFileOp) (v : View) (hfile : t.files[f]?.join = some (.cursor v))
    (hop : v.stumbles op = true) :
    Step t (.file f op) ⟨-1, []⟩ { t with files := t.files.set f (some (.cursor { v with checked := true })) }
  | unknown (t : FileTable) (f : Nat) (op : ZipFileOp) (r : Reply) (hfile : t.files[f]?.join = some .unreadable)
    (hop : op.closes = false) : Step t (.file f op) r t
  | closed (t : FileTable) (f : Nat) (op : ZipFileOp) (hfile : t.files[f]?.join = some .unreadable)
    (hop : op.closes = true) : Step t (.file f op) ⟨0, []⟩ { t with files := t.files.set f none }
  /-- There is no such file, or it was closed. -/
  | absent (t : FileTable) (f : Nat) (op : ZipFileOp) (hfile : t.files[f]?.join = none) :
    Step t (.file f op) ⟨-1, []⟩ t

/-- The content of an entry that is read with a password, if it can be. -/
def contentWith (X : Extern) (sched : Schedule) (a : Archive) (index : Nat) (password : Option Bytes) :
    Option Vec :=
  ((a.readEntryWithPassword X sched index password).1.bind Vec.ofBytes).toOption

/-- Whether an entry is decoded as a whole when it is opened without a password: it is small and plain, the
archive is in memory as one piece, and the data of the entry begin within it. -/
def decodedWhole (a : Archive) (index : Nat) : Bool :=
  a.entries[index]?.any fun d => (d.findDataOffset a.src).toOption.any fun off =>
    d.zeroCopy && a.src.asSlice.isSome && decide (off + d.compSize.toNat < 2 ^ 64 ∧ off ≤ a.src.bytes.length)

/-- The table of an archive that was just opened. -/
def tableOf (X : Extern) (sched : Schedule) (a : Archive) : FileTable :=
  { names := a.entries.map (·.filename), content := contentWith X sched a, whole := decodedWhole a,
    password := none, files := [] }

end Kzip.Spec
