import Kzip.Spec.Close

/-!
# What was set last

A `Ledger` records for every entry what was set of it since it was last unchanged; it follows the
entries when a pending add is removed. `ShowsLast` says that an entry of the archive that was written has
every attribute as it was set last. `Steady` says which steps keep the pending edits in accord with the ledger.
-/

namespace Kzip.Spec

open Lib Lib.Utf8 Kzip.Impl

/-- What was set of each entry since it was last unchanged, in order, by logical index. -/
structure Ledger where
  adds : Nat
  log : Nat → List Setting

/-- The ledger of a handle that was just opened. -/
def Ledger.empty : Ledger := { adds := 0, log := fun _ => [] }

/-- The ledger after an effect, on an archive of `n` entries. The entries after a pending add that is
removed keep what was set of them, under their new indices. -/
def Ledger.step (n : Nat) (l : Ledger) : Effect → Ledger
  | .keep => l
  | .record i s => { l with log := Function.update l.log i (l.log i ++ [s]) }
  | .add _ => { adds := l.adds + 1, log := Function.update l.log (n + l.adds) [] }
  | .unchange i =>
    if n ≤ i then { adds := l.adds - 1, log := fun j => if j < i then l.log j else l.log (j + 1) }
    else { l with log := Function.update l.log i [] }
  | .clear => .empty

/-- The last setting of the attribute that `pick` picks. -/
def lastSet {β : Type} (pick : Setting → Option β) (log : List Setting) : Option β :=
  (log.filterMap pick).getLast?

def Setting.name : Setting → Option Str
  | .rename name => some name
  | _ => none

def Setting.content : Setting → Option Vec
  | .replace data => some data
  | _ => none

def Setting.commentText : Setting → Option (Option Bytes)
  | .comment text => some text
  | _ => none

/-- DOS time and date; those of a Unix timestamp are its conversion. -/
def Setting.time (X : Extern) : Setting → Option (UInt16 × UInt16)
  | .dostime time date => some (time, date)
  | .mtime ut => some (unixToDos X (max ut 0).toNat)
  | _ => none

def Setting.attributes : Setting → Option (UInt8 × UInt32)
  | .extAttrs opsys attributes => some (opsys, attributes)
  | _ => none

def Setting.method : Setting → Option (Int × UInt32)
  | .compression method level => some (method, level)
  | _ => none

def Setting.encryptionMethod : Setting → Option UInt16
  | .encryption method => some method
  | _ => none

/-- Every attribute of the entry at `k` that was set is as it was set last: its comment as a reader decodes it,
its content behind the password if it is encrypted. -/
structure ShowsLast (X : Extern) (log : List Setting) (b : Archive) (password : Bytes) (k : Nat) (d : Dirent) :
    Prop where
  entry : b.entries[k]? = some d
  name : ∀ x, lastSet Setting.name log = some x → d.filename = x
  content : ∀ x, lastSet Setting.content log = some x → GivesBack X b password k x.val
  comment : ∀ x, lastSet Setting.commentText log = some x → d.comment = fromUtf8Lossy (x.getD [])
  time : ∀ x, lastSet (Setting.time X) log = some x → (d.lastModTime, d.lastModDate) = x
  extAttrs : ∀ x, lastSet Setting.attributes log = some x →
    ((d.versionMadeby >>> 8).toUInt8, d.extAttrib) = x
  method : ∀ x, lastSet Setting.method log = some x →
    d.compMethod = (compressionFromI32 x.1).getD CompressOptions.default.method
  encryption : ∀ x, lastSet Setting.encryptionMethod log = some x → d.encryptionMethod = x

/-- An effect that keeps the pending edits in accord with the ledger: a name or a content is not set a
second time to something else, a DOS time is not set where another Unix time is pending, and a pending
add is not removed while a later one has pending edits. -/
def Steady (X : Extern) (n : Nat) (e : Edits) : Effect → Prop
  | .record i (.rename name) =>
    (e.ops i).deleted = true ∨ ∀ first ∈ (e.ops i).renames.head?, first = name
  | .record i (.replace data) =>
    (e.ops i).deleted = true ∨ ∀ first ∈ (e.ops i).replaces.head?, first = data
  | .record i (.dostime time date) => (e.ops i).deleted = true ∨
    ∀ ut ∈ (e.ops i).mtimes.getLast?, unixToDos X (max ut 0).toNat = (time, date)
  | .unchange i => n ≤ i → ∀ j < n + e.adds.length, i < j → e.ops j = .none
  | _ => True

instance (X : Extern) (n : Nat) (e : Edits) : (x : Effect) → Decidable (Steady X n e x)
  | .record i (.rename name) => inferInstanceAs (Decidable ((e.ops i).deleted = true ∨
      ∀ first ∈ (e.ops i).renames.head?, first = name))
  | .record i (.replace data) => inferInstanceAs (Decidable ((e.ops i).deleted = true ∨
      ∀ first ∈ (e.ops i).replaces.head?, first = data))
  | .record i (.dostime time date) => inferInstanceAs (Decidable ((e.ops i).deleted = true ∨
      ∀ ut ∈ (e.ops i).mtimes.getLast?, unixToDos X (max ut 0).toNat = (time, date)))
  | .unchange i => inferInstanceAs (Decidable (n ≤ i → ∀ j < n + e.adds.length, i < j →
      e.ops j = .none))
  | .record _ .delete | .record _ (.encryption _) | .record _ (.extraField _) | .record _ (.comment _)
  | .record _ (.mtime _) | .record _ (.extAttrs _ _) | .record _ (.compression _ _)
  | .keep | .add _ | .clear => .isTrue trivial

end Kzip.Spec
