import Kzip.Impl.Edit
import Kzip.Impl.Seek
import Kzip.Impl.Stat
import Kzip.Impl.WriteSession

/-!
# Files in an archive

The handles of the C interface on the entries of an open archive. A handle has a reader of its own: it is not
told of anything that is done to the archive later.
-/

namespace Kzip.Impl

structure ZipFile where
  reader : EntryReader
  error : ZipErrorCode

def ZipFile.setErr (f : ZipFile) (code : ZipErrorCode) : ZipFile := { f with error := code }

/-- A panic leaves no code. -/
def Zip.setFault (z : Zip) : Fault → Zip
  | .err code => z.setErr code
  | .panic => z

/-! ## Opening -/

/-- `make_zipfile`: a handle on content that is decrypted already. -/
def makeZipfile (Z : Zone) (z : Zip) (data : Bytes) (index : Nat) : Option ZipFile × Zip :=
  let isAes := (z.archive.dirent index).elim false fun d => isAesMethod d.encryptionMethod
  match z.archive.stat Z index with
  | .ok stat =>
    let size := stat.size.getD 0
    let buffered :=
      if isAes then .fromBufferSkipCrc data size false else .fromBuffer data (stat.crc.getD 0) size false
    (some { reader := buffered, error := .ok }, z)
  | .error e => (none, z.setFault e)

/-- `make_zipfile_reader` -/
def makeZipfileReader (reader : EntryReader) : ZipFile := { reader, error := .ok }

section
variable (X : Extern)

def zipFopenIndex (z : Zip) (index : Nat) : Option ZipFile × Zip :=
  match z.archive.openEntry X index with
  | (.ok reader, archive) => (some (makeZipfileReader reader), { z with archive })
  | (.error e, archive) => (none, { z with archive }.setFault e)

def zipFopen (z : Zip) (name : Option Bytes) : Option ZipFile × Zip :=
  match cStr name with
  | none => (none, z.setErr .inval)
  | some name =>
    match z.archive.nameLocate name with
    | some idx => zipFopenIndex X z idx
    | none => (none, z.setErr .noent)

/-- The content of an entry, read with a password, as a file. -/
def openDecrypted (Z : Zone) (sched : Schedule) (z : Zip) (index : Nat) (password : Bytes) :
    Option ZipFile × Zip :=
  match z.archive.readEntryWithPassword X sched index (some password) with
  | (.ok data, archive) => makeZipfile Z { z with archive } data index
  | (.error e, archive) => (none, { z with archive }.setFault e)

def zipFopenEncrypted (Z : Zone) (sched : Schedule) (z : Zip) (name password : Option Bytes) :
    Option ZipFile × Zip :=
  match cStr name, password with
  | some name, some pw =>
    match z.archive.nameLocate name with
    | some idx => openDecrypted X Z sched z idx pw
    | none => (none, z.setErr .noent)
  | _, _ => (none, z.setErr .inval)

def zipFopenIndexEncrypted (Z : Zone) (sched : Schedule) (z : Zip) (index : Nat) (password : Option Bytes) :
    Option ZipFile × Zip :=
  match password with
  | some pw => openDecrypted X Z sched z index pw
  | none => (none, z.setErr .inval)

/-! ## Calls on a file -/

/-- The result, and the bytes put into the buffer; `buf` says whether there is one. -/
def zipFread (f : ZipFile) (buf : Bool) (call : ReadCall) : Int × Bytes × ZipFile :=
  if buf then
    match f.reader.read X call with
    | (.ok bs, reader) => (bs.length, bs, { f with reader })
    | (.error _, reader) => (-1, [], ({ f with reader } : ZipFile).setErr .read)
  else (-1, [], f.setErr .inval)

/-- A sum that overflows is a panic or turns negative. -/
def zipFseek (f : ZipFile) (offset : Int64) (whence : Int32) : Int × ZipFile :=
  let size := f.reader.expectedSize.toNat
  let cur := UInt64.ofNat f.reader.position
  match seekTarget X whence offset cur size with
  | .error _ => (-1, f)
  | .ok none => (-1, f.setErr .inval)
  | .ok (some target) =>
    if target < 0 then (-1, f.setErr .inval)
    else
      match f.reader.seek (UInt64.ofNat target.toNat) with
      | (.ok _, reader) => (0, { f with reader })
      | (.error _, reader) => (-1, ({ f with reader } : ZipFile).setErr .seek)

end

def zipFtell (f : ZipFile) : Int := asI64 f.reader.position

def EntryReader.isSeekable (r : EntryReader) : Bool :=
  match r.inner with
  | .buffered .. | .shared .. => true
  | .streaming _ => false

def zipFileIsSeekable (f : ZipFile) : Int := if f.reader.isSeekable then 1 else 0

/-- Closing a file gives the buffer of its reader back to the pool of the archive. -/
def zipFclose (z : Zip) (f : ZipFile) : Zip := { z with archive := z.archive.dropReader f.reader }

end Kzip.Impl
