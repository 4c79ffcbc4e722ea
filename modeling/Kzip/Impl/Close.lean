import Kzip.Impl.Edit

/-!
# Closing a handle

`materialize` turns a handle into the bytes of the archive to be written: the original entries but the
deleted ones, with their edits, then the pending adds. It hands a list of files with their encryption
methods, the plan, to `writeArchiveFull`. No progress and no cancel callback is registered.
-/

namespace Kzip.Impl

open Lib Lib.Utf8

/-- `compression_from_i32` -/
def compressionFromI32 (m : Int) : Option CompressionMethod :=
  if m = zipCmStore then some .store else if m = zipCmDeflate then some .deflate else none

section
variable (X : Extern)

/-- `apply_meta`: the file with the metadata of its logical index. -/
def applyMeta (a : Archive) (p : PendingOps) (f : ArchiveFile) (index : Nat) : ArchiveFile :=
  let (time, date) := effectiveDostime X a p index
  let f := { f with comment := effectiveComment a p index,
                    extraFields := effectiveExtraFields a p index,
                    lastModTime := time, lastModDate := date }
  let f := match effectiveExtAttrs a p index with
    | some (opsys, attrs) => { f with opsys, externalAttributes := attrs }
    | none => f
  match firstAt p.compressions index with
  | some (method, level) =>
    match compressionFromI32 method with
    | some cm => { f with method := some cm, level := some level }
    | none => f
  | none => f

/-- The encryption method that is pending for a logical index. -/
def pendingEncryption (p : PendingOps) (index : Nat) : UInt16 := (firstAt p.encryptions index).getD 0

/-- The entry of a logical index: the file, and how it is encrypted. -/
def planEntry (a : Archive) (p : PendingOps) (index : Nat) (name : Str) (data : Vec) :
    ArchiveFile × UInt16 :=
  (applyMeta X a p (.new name data) index, pendingEncryption p index)

/-- The name of an original entry. -/
def effectiveName (a : Archive) (p : PendingOps) (index : Nat) : Str :=
  (firstAt p.renames index).getD ((a.name index).getD [])

/-- The content of an original entry: a pending replacement, else what is read from the archive,
which is left with its caches filled. -/
def entryData (sched : Schedule) (a : Archive) (p : PendingOps) (index : Nat) :
    Result Vec × Archive :=
  match firstAt p.replaces index with
  | some data => (.ok data, a)
  | none =>
    let (r, a) := a.readEntry X sched index
    (r >>= Vec.ofBytes, a)

/-- The loop of `materialize` over the original entries. -/
def planOriginals (sched : Nat → Schedule) (p : PendingOps) :
    Archive → List Nat → Result (List (ArchiveFile × UInt16))
  | _, [] => .ok []
  | a, i :: is =>
    if i ∈ p.deletes then planOriginals sched p a is
    else
      match entryData X (sched i) a p i with
      | (.error e, _) => .error e
      | (.ok data, a) => do
        let rest ← planOriginals sched p a is
        .ok (planEntry X a p i (effectiveName a p i) data :: rest)

/-- The loop of `materialize` over the pending adds. -/
def planAdds (a : Archive) (p : PendingOps) : List (ArchiveFile × UInt16) :=
  p.adds.mapIdx fun k add => planEntry X a p (a.len + k) add.name add.data

/-- The files that `materialize` hands to the writer, each with its encryption method. -/
def Zip.plan (sched : Nat → Schedule) (z : Zip) : Result (List (ArchiveFile × UInt16)) := do
  let originals ← planOriginals X sched z.pending z.archive (List.range z.archive.len)
  .ok (originals ++ planAdds X z.archive z.pending)

def Zip.materialize (sched : Nat → Schedule) (z : Zip) : Result Vec := do
  let plan ← z.plan X sched
  let archiveComment := z.pending.archiveComment.getD (asBytes z.archive.comment)
  let pw ← if plan.any (fun f => f.2 != 0) then
      match z.password with
      | some pw => .ok pw
      | none => .error (.err .nopasswd)
    else .ok []
  writeArchiveFull X (plan.map (·.1)) .default pw (plan.map (·.2)) archiveComment

end

end Kzip.Impl
