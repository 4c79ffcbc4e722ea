import Kzip.Impl.WriteSession
import Kzip.Lib.Run

/-!
# What a write session should do

A source as its callers see it: its content with a read cursor, and at most one session, which is a base
with the writes made on it (`Store`). `Store.accepts` says which calls succeed, and `Store.apply` what
they do; any other call does nothing.
-/

namespace Kzip.Impl

/-- A call on a source. -/
inductive SourceCall where
  | open
  | read (len : UInt64)
  | seek (offset : Int64) (whence : Int32)
  | beginWrite
  | beginWriteCloning (offset : UInt64)
  | write (data : WriteData)
  | seekWrite (offset : Int64) (whence : Int32)
  | tellWrite
  | commitWrite
  | rollbackWrite

/-- A call: what it returns, and the bytes it reads. Rolling back returns nothing. -/
def MemorySource.call (X : Extern) (s : MemorySource) : SourceCall → (Int × Bytes) × MemorySource
  | .open => let (r, s) := zipSourceOpen s; ((r, []), s)
  | .read len => let (bs, r, s) := zipSourceRead s len; ((r, bs), s)
  | .seek offset whence => let (r, s) := zipSourceSeek X s offset whence; ((r, []), s)
  | .beginWrite => let (r, s) := zipSourceBeginWrite s; ((r, []), s)
  | .beginWriteCloning offset => let (r, s) := zipSourceBeginWriteCloning s offset; ((r, []), s)
  | .write data => let (r, s) := zipSourceWrite s data; ((r, []), s)
  | .seekWrite offset whence => let (r, s) := zipSourceSeekWrite X s offset whence; ((r, []), s)
  | .tellWrite => let (r, s) := zipSourceTellWrite s; ((r, []), s)
  | .commitWrite => let (r, s) := zipSourceCommitWrite s; ((r, []), s)
  | .rollbackWrite => ((0, []), zipSourceRollbackWrite s)

end Kzip.Impl

namespace Kzip.Spec

open Lib Kzip.Impl

/-! ## The abstract source -/

/-- A session: what it started from, the writes with their positions, and where the next one goes. -/
structure Session where
  base : Bytes
  writes : List (Nat × Bytes)
  cursor : Nat

/-- The base with the writes applied in order; gaps are filled with zeros. -/
def Session.bytes (t : Session) : Bytes := t.writes.foldl (fun buf w => splice 0 buf w.1 w.2) t.base

structure Store where
  content : Bytes
  pos : Nat
  session : Option Session

/-- The bytes that a write names. -/
def WriteData.toBytes : WriteData → Bytes
  | .null _ => []
  | .bytes bs => bs.val

/-- Where a seek of a cursor in `len` bytes leads, if `whence` is known. -/
def target (whence : Int32) (offset : Int64) (cursor len : Nat) : Option Int :=
  if whence = seekSet then some offset.toInt
  else if whence = seekCur then some (cursor + offset.toInt)
  else if whence = seekEnd then some (len + offset.toInt)
  else none

/-- A cursor position that a seek can lead to. -/
def Reached (t : Option Int) : Prop := ∃ n, t = some n ∧ 0 ≤ n ∧ n < 2 ^ 63

def Store.accepts (s : Store) : SourceCall → Prop
  | .open | .read _ | .rollbackWrite => True
  | .seek offset whence => Reached (target whence offset s.pos s.content.length)
  | .beginWrite => s.session = none
  | .beginWriteCloning n => s.session = none ∧ n.toNat ≤ s.content.length
  | .write data => ∃ t, s.session = some t ∧ (∀ len, data = .null len → len = 0) ∧
      (splice 0 t.bytes t.cursor (WriteData.toBytes data)).length < 2 ^ 63
  | .seekWrite offset whence => ∃ t, s.session = some t ∧
      Reached (target whence offset t.cursor t.bytes.length)
  | .tellWrite | .commitWrite => s.session.isSome

/-- The session after a write. -/
def Session.write (t : Session) (bs : Bytes) : Session :=
  { t with writes := t.writes ++ [(t.cursor, bs)], cursor := t.cursor + bs.length }

/-- What an accepted call does. -/
def Store.apply (s : Store) : SourceCall → Store
  | .open => { s with pos := 0 }
  | .read len => { s with pos := s.pos + min (s.content.length - s.pos) len.toNat }
  | .seek offset whence =>
    { s with pos := min ((target whence offset s.pos s.content.length).getD 0).toNat s.content.length }
  | .beginWrite => { s with session := some { base := [], writes := [], cursor := 0 } }
  | .beginWriteCloning n =>
    { s with session := some { base := s.content.take n.toNat, writes := [], cursor := n.toNat } }
  | .write data => { s with session := s.session.map (·.write (WriteData.toBytes data)) }
  | .seekWrite offset whence =>
    { s with session := s.session.map fun t =>
      { t with cursor := ((target whence offset t.cursor t.bytes.length).getD 0).toNat } }
  | .tellWrite => s
  | .commitWrite => (s.session.map fun t => { content := t.bytes, pos := 0, session := none }).getD s
  | .rollbackWrite => { s with session := none }

/-- What an accepted call returns. -/
def Store.returns (s : Store) : SourceCall → Nat
  | .read len => min (s.content.length - s.pos) len.toNat
  | .write data => (WriteData.toBytes data).length
  | .tellWrite => (s.session.map (·.cursor)).getD 0
  | _ => 0

/-- The bytes that a call reads. -/
def Store.reads (s : Store) : SourceCall → Bytes
  | .read len => (s.content.drop s.pos).take len.toNat
  | _ => []

/-! ## The source against it -/

/-- The source is in the state of the store: it has the same content, cursors and session. -/
structure Represents (s : MemorySource) (t : Store) : Prop where
  content : s.data.val = t.content
  pos : s.pos.toNat = t.pos
  session : (s.pending.map fun pw => (pw.out.val, pw.offset.toNat)) =
    t.session.map fun u => (u.bytes, u.cursor)
  write_open : s.writeOpen = s.pending.isSome

/-- A call does to the source what it does to the store: where the store accepts it, and nothing where
it does not. -/
structure CallFollows (X : Extern) (s : MemorySource) (t : Store) (call : SourceCall) : Prop where
  accepted : t.accepts call → (s.call X call).1 = ((t.returns call : Int), t.reads call) ∧
    Represents (s.call X call).2 (t.apply call)
  refused : ¬ t.accepts call → (s.call X call).1 = (-1, []) ∧ Represents (s.call X call).2 t

open Classical in
/-- The store after a call. -/
noncomputable def Store.step (t : Store) (call : SourceCall) : Store :=
  if t.accepts call then t.apply call else t

/-- Every call of a run does to the source what it does to the store. -/
def RunFollows (X : Extern) : MemorySource → Store → List SourceCall → Prop
  | s, t, [] => Represents s t
  | s, t, call :: calls => Represents s t ∧ CallFollows X s t call ∧
      RunFollows X (s.call X call).2 (t.step call) calls

end Kzip.Spec
