import Kzip.Impl.CdirFile
import Kzip.Impl.Modify
import Kzip.Lib.Buffer

/-!
# Modification of a file

`modifyArchiveFile` modifies the archive in a file: everything is read and serialized first, then the
directory is overwritten and the file truncated. Any of its operations on the file may fail.
-/

namespace Kzip.Impl

open Lib Lib.Utf8

/-- `write_all` at the file pointer; a file holds less than `2 ^ 63` bytes. -/
def OsFile.writeAll (f : OsFile) (bs : Bytes) : Option OsFile :=
  if bs = [] then some f
  else if h : (splice 0 f.content.val f.pos bs).length < 2 ^ 63 then
    some { content := ⟨splice 0 f.content.val f.pos bs, h⟩, pos := f.pos + bs.length }
  else none

def OsFile.setLen (f : OsFile) (len : UInt64) : Option OsFile :=
  if h : ((padTo 0 len.toNat f.content.val).take len.toNat).length < 2 ^ 63 then
    some { f with content := ⟨(padTo 0 len.toNat f.content.val).take len.toNat, h⟩ }
  else none

section
variable (sys : FileSystem)

/-- An operation on the file, and what it leaves when it fails. -/
def fileCall (call : FileCall) (code : ZipErrorCode) (act : OsFile → Option OsFile)
    (spoil : OsFile → OsFile) : OnDisk Unit := fun disk =>
  match if sys.fails disk.calls call then none else act disk.file with
  | some file => (.ok (), { disk with file, calls := disk.calls + 1 })
  | none =>
    (.error (.err code),
      { file := spoil disk.file, calls := disk.calls + 1, faults := disk.faults ++ [call] })

/-- The end of `modify_archive_file`: the new directory in place of the old one; it gives the new
length. -/
def overwriteTail (X : Extern) (cdirOffset : UInt64) (newSerialized : Bytes) : OnDisk UInt64 := do
  fileCall sys .seek .seek (fun f => f.seek cdirOffset) id
  fileCall sys .write .write (fun f => f.writeAll newSerialized) sys.torn
  let newLen ← plainly (addU64 X cdirOffset (UInt64.ofNat newSerialized.length))
  fileCall sys .setLen .write (fun f => f.setLen newLen) id
  pure newLen

/-- `modify_archive_file`, once the directory was read. -/
def replaceDirectory (X : Extern) (renames : List (UInt64 × Str)) (deletes : List UInt64) (cd : CentralDir) :
    OnDisk UInt64 := do
  fileCall sys .metadata .seek some id
  let disk ← get
  let fileLen := disk.file.content.val.length
  if cd.cdirOffset.toNat > fileLen ∨ cd.cdirSize.toNat > fileLen ∨
      2 ^ 64 ≤ cd.cdirOffset.toNat + cd.cdirSize.toNat ∨
      cd.cdirOffset.toNat + cd.cdirSize.toNat > fileLen then
    plainly (.error (.err .incons))
  else do
    let entries := applyDeletes deletes (applyRenames renames cd.entries)
    let newSerialized ← plainly (CentralDir.serialize X { cd with entries })
    overwriteTail sys X cd.cdirOffset newSerialized

def modifyArchiveFile (X : Extern) (renames : List (UInt64 × Str)) (deletes : List UInt64) :
    OnDisk UInt64 := do
  fileCall sys .open .open some id
  fileCall sys .tryClone .open some id
  let cd ← readCentralDirFile sys
  replaceDirectory sys X renames deletes cd

end

end Kzip.Impl
