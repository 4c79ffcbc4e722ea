import Kzip.Spec.Close

/-!
# The names of entries

A call that adds or renames an entry gives it a name. What becomes of a call whose name another entry holds
(`SettlesName`), and which calls keep the names apart (`KeepsApart`).
-/

namespace Kzip.Spec

open Lib Lib.Utf8 Kzip.Impl

/-- Whether a call takes edits back. -/
def ZipCall.isUnchange : ZipCall → Bool
  | .unchange _ | .unchangeAll => true
  | _ => false

/-! ## What becomes of a name -/

/-- The name that a call gives to an entry. -/
def ZipCall.givenName : ZipCall → Option Str
  | .fileAdd name _ _ | .rename _ name => cStr name
  | .dirAdd name => (cStr name).map dirName
  | _ => none

/-- The entry that a call renames. -/
def ZipCall.renamed : ZipCall → Option Nat
  | .rename index _ => some index
  | _ => none

/-- The same call with another name. -/
def ZipCall.withName (name : Option Bytes) : ZipCall → ZipCall
  | .fileAdd _ source flags => .fileAdd name source flags
  | .dirAdd _ => .dirAdd name
  | .rename index _ => .rename index name
  | c => c

/-- The call is refused with `ZIP_ER_EXISTS`, or it would be refused under any name. -/
def CallRefused (X : Extern) (z : Zip) (c : ZipCall) : Prop :=
  (c.run X z).1 = -1 ∧
    ((c.run X z).2.error = .exists ∨ ∀ name, ((c.withName name).run X z).1 = -1)

/-- The call is an overwriting add that gives the entry at `j` its content, and leaves it its name. -/
def Replaces (X : Extern) (z : Zip) (c : ZipCall) (j : Nat) : Prop :=
  ∃ name source flags, c = .fileAdd name source flags ∧ flags &&& zipFlOverwrite ≠ 0 ∧ (c.run X z).1 = j ∧
    j ∈ present (c.run X z).2.archive.len (editsOf (c.run X z).2.pending) ∧
    nameOf (c.run X z).2.archive (editsOf (c.run X z).2.pending) j =
      nameOf z.archive (editsOf z.pending) j ∧
    Contents X (c.run X z).2.archive (editsOf (c.run X z).2.pending) j (sourceArg source)

/-- If another entry that will be written holds the name that the call gives, then the call is refused or
replaces that entry. -/
def SettlesName (X : Extern) (z : Zip) (c : ZipCall) : Prop :=
  ∀ j ∈ present z.archive.len (editsOf z.pending), c.renamed ≠ some j →
    c.givenName = some (nameOf z.archive (editsOf z.pending) j) → CallRefused X z c ∨ Replaces X z c j

/-! ## When the names stay apart -/

/-- The name that a call gives, if nothing but the name can have it refused. -/
def ZipCall.asked (z : Zip) : ZipCall → Option Str
  | .fileAdd name source _ =>
    if z.readOnly = false ∧ (source.bind fun s => s.takeData.1).isSome = true then cStr name else none
  | .dirAdd name => if z.readOnly = false then (cStr name).map dirName else none
  | .rename index name => if z.readOnly = false ∧ index < z.archive.len then cStr name else none
  | _ => none

/-- A call may give the name that the entry at `j` holds: a file is added that the original directory has
already, without overwriting it, or overwriting just that entry when no other content is pending for it; a
directory is added that the original directory has already; or the entry is renamed to its own name. -/
def MayName (z : Zip) (name : Str) (j : Nat) : ZipCall → Prop
  | .fileAdd _ source flags => ∃ i ∈ z.archive.nameLocate name, flags &&& zipFlOverwrite = 0 ∨
      i = j ∧ ∀ first ∈ ((editsOf z.pending).ops i).replaces.head?, first = sourceArg source
  | .dirAdd _ => (z.archive.nameLocate name).isSome = true
  | .rename index _ => index = j
  | _ => True

instance (z : Zip) (name : Str) (j : Nat) : (c : ZipCall) → Decidable (MayName z name j c)
  | .fileAdd _ source flags => inferInstanceAs (Decidable (∃ i ∈ z.archive.nameLocate name,
      flags &&& zipFlOverwrite = 0 ∨
        i = j ∧ ∀ first ∈ ((editsOf z.pending).ops i).replaces.head?, first = sourceArg source))
  | .dirAdd _ => inferInstanceAs (Decidable ((z.archive.nameLocate name).isSome = true))
  | .rename index _ => inferInstanceAs (Decidable (index = j))
  | .delete _ | .fileReplace .. | .setArchiveComment .. | .fileSetComment .. | .setFileComment ..
  | .fileExtraFieldSet .. | .fileExtraFieldDelete .. | .fileExtraFieldDeleteById .. | .fileSetMtime ..
  | .fileSetDostime .. | .fileSetExternalAttributes .. | .setFileCompression .. | .fileSetEncryption ..
  | .setDefaultPassword _ | .setArchiveFlag .. | .unchange _ | .unchangeAll | .unchangeArchive
  | .openEntry .. | .readEntry .. => .isTrue trivial

/-- The call gives no name that an entry to be written holds, unless it may. -/
def KeepsApart (z : Zip) (c : ZipCall) : Prop :=
  ∀ name ∈ c.asked z, ∀ j ∈ present z.archive.len (editsOf z.pending),
    nameOf z.archive (editsOf z.pending) j = name → MayName z name j c

instance (z : Zip) (c : ZipCall) : Decidable (KeepsApart z c) :=
  inferInstanceAs (Decidable (∀ name ∈ c.asked z, ∀ j ∈ present z.archive.len (editsOf z.pending),
    nameOf z.archive (editsOf z.pending) j = name → MayName z name j c))

end Kzip.Spec
