import Kzip.Lib.Refcount
import Mathlib.Data.UInt

/-!
# Reference counts of sources

A source as the calls that make, keep and free sources see it: a reference count, and the lower source that
a layered one owns. Sources are numbered in the order in which they were made. A call that uses a source that
was freed has no result.
-/

namespace Kzip.Impl

open Lib

structure SourceNode where
  refcount : Int32
  lower : Option Nat
  deriving DecidableEq

instance : Holder SourceNode := ⟨SourceNode.lower⟩

abbrev Sources := Arena SourceNode

/-- `ZipSource::new` -/
def SourceNode.new (lower : Option Nat) : SourceNode := { refcount := 1, lower }

def Sources.keep (s : Sources) (i : Nat) : Option Sources :=
  match h : s.block i with
  | none => none
  | some n => some (s.replace i h { n with refcount := n.refcount + 1 } rfl)

/-- A source that is dropped frees the lower one. -/
def Sources.unref (s : Sources) (i : Nat) : Option Sources :=
  match h : s.block i with
  | none => none
  | some n =>
    if n.refcount ≤ 1 then
      match hlower : n.lower with
      | none => some (s.free i)
      | some l => Sources.unref (s.free i) l
    else some (s.replace i h { n with refcount := n.refcount - 1 } rfl)
termination_by i
decreasing_by exact s.older i n l h hlower

/-! ## The calls -/

def zipSourceKeep (s : Sources) : Option Nat → Option Sources
  | none => some s
  | some src => Sources.keep s src

def zipSourceFree (s : Sources) : Option Nat → Option Sources
  | none => some s
  | some source => Sources.unref s source

/-- A source without a lower one: over a buffer, a file, an entry or a function. -/
def Sources.create (s : Sources) : Nat × Sources := (s.blocks.length, s.alloc (.new none) nofun)

/-- The layered source, or null; `supports` is what the callback answers when it is asked for the commands
it supports, if there is a callback. -/
def zipSourceLayeredCreate (s : Sources) (src : Option Nat) (supports : Option Int64) :
    Option (Option Nat × Sources) :=
  match src, supports with
  | some lower, some supports =>
    if h : s.reaches lower = true then
      if supports < 0 then some (none, s)
      else some (some s.blocks.length, s.alloc (.new (some lower)) fun _ hl =>
        Option.some.inj hl ▸ Arena.lt_of_reaches h)
    else none
  | _, _ => some (none, s)

/-- `zip_source_window_create`: the window, or null. The lower source can be read or not, and the window lies in
what is read or not. -/
def Sources.windowCreate (s : Sources) (src : Option Nat) (reads inside : Bool) : Option (Option Nat × Sources) :=
  match src with
  | none => some (none, s)
  | some lower =>
    if !s.reaches lower then none
    else if !reads then some (none, s)
    else
      (zipSourceFree s src).map fun s =>
        if inside then (some s.blocks.length, s.alloc (.new none) nofun) else (none, s)

end Kzip.Impl
