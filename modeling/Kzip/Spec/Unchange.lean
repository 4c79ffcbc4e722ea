import Kzip.Spec.Close

/-!
# Undoing the edits of one entry

What taking back the edits of an entry should leave (`withoutEntry`): when the entry is a pending add,
the edits of the later adds follow them to their new indices.
-/

namespace Kzip.Spec

open Lib Kzip.Impl

/-- The values of the entries but the one at `k`, on an archive of `n` entries. -/
def removeAt {β : Type} (n : Nat) (l : List (Nat × β)) (k : Nat) : List (Nat × β) :=
  if n ≤ k then closeAt l k else dropAt l k

/-- The pending edits without those of the entry at `k`, and without the entry itself if it is a
pending add. -/
def withoutEntry (n : Nat) (p : PendingOps) (k : Nat) : PendingOps :=
  { p with
    adds := if n ≤ k then p.adds.eraseIdx (k - n) else p.adds,
    deletes := if n ≤ k then closeKeys p.deletes k else p.deletes.filter (· != k),
    renames := removeAt n p.renames k,
    replaces := removeAt n p.replaces k,
    encryptions := removeAt n p.encryptions k,
    extraFieldOps := removeAt n p.extraFieldOps k,
    fileComments := removeAt n p.fileComments k,
    dostimes := removeAt n p.dostimes k,
    mtimes := removeAt n p.mtimes k,
    extAttrs := removeAt n p.extAttrs k,
    compressions := removeAt n p.compressions k }

/-- Unchanging the entry at `k` undoes the edits of that entry and no others: the archive that is
written, the edits of the entries that are left, and those of any entry that is added later. -/
structure UndoesEntry (X : Extern) (z : Zip) (k : Nat) : Prop where
  accepted : (z.unchange k).1 = 0
  materialize : ∀ sched, (z.unchange k).2.materialize X sched =
    Zip.materialize X sched { z with pending := withoutEntry z.archive.len z.pending k }
  adds : (z.unchange k).2.pending.adds = (withoutEntry z.archive.len z.pending k).adds
  kept : ∀ j < (z.unchange k).2.total,
    opsAt (z.unchange k).2.pending j = opsAt (withoutEntry z.archive.len z.pending k) j
  fresh : ∀ j, (z.unchange k).2.total ≤ j → opsAt (z.unchange k).2.pending j = .none

end Kzip.Spec
