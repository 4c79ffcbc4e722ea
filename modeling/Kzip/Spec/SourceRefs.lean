import Kzip.Impl.SourceRefs
import Kzip.Lib.Run

/-!
# Who holds which source

The clients of the library hold references to sources: one to each source that a call makes for them, and one
for each `zip_source_keep` (`Clients`). A client is to use only sources that it holds, and gives a reference
up when it frees the source or makes a layer or a window over it.
-/

namespace Kzip.Spec

open Lib Kzip.Impl

inductive RefCall where
  | create
  | keep (src : Option Nat)
  | free (src : Option Nat)
  /-- Any other call: it sends commands to the source. -/
  | use (src : Option Nat)
  | layered (src : Option Nat) (supports : Option Int64)
  | window (src : Option Nat) (reads inside : Bool)

def RefCall.source : RefCall → Option Nat
  | .create => none
  | .keep src | .free src | .use src | .layered src _ | .window src .. => src

/-- The source whose count the call raises. -/
def RefCall.kept : RefCall → Option Nat
  | .keep src => src
  | .create | .free _ | .use _ | .layered .. | .window .. => none

structure Clients where
  sources : Sources
  /-- A source for each reference to it. -/
  held : List Nat

/-- No source was made yet. -/
def Clients.fresh : Clients := { sources := .empty, held := [] }

/-- The references without one to the source. -/
def Clients.without (c : Clients) (src : Option Nat) : List Nat := src.elim c.held c.held.erase

/-- A call; it has no result if it uses a source that was freed. -/
def Clients.step (c : Clients) : RefCall → Option Clients
  | .create => some { sources := (Sources.create c.sources).2, held := (Sources.create c.sources).1 :: c.held }
  | .keep src => (zipSourceKeep c.sources src).map fun sources => { sources, held := src.toList ++ c.held }
  | .free src => (zipSourceFree c.sources src).map fun sources => { sources, held := c.without src }
  | .use src => if src.all c.sources.reaches then some c else none
  | .layered src supports =>
    (zipSourceLayeredCreate c.sources src supports).map fun (made, sources) =>
      match made with
      | some new => { sources, held := new :: c.without src }
      | none => { sources, held := c.held }
  | .window src reads inside =>
    (Sources.windowCreate c.sources src reads inside).map fun (made, sources) =>
      -- the lower source is freed once it was read, also if there is no window
      { sources, held := made.toList ++ if reads then c.without src else c.held }

/-- The call is on a source that its client holds, and a count that it raises can still be raised. -/
structure Clients.Permitted (c : Clients) (x : RefCall) : Prop where
  held : ∀ i ∈ x.source, i ∈ c.held
  fits : ∀ i ∈ x.kept, ∀ n ∈ c.sources.block i, n.refcount < Int32.maxValue

instance (c : Clients) (x : RefCall) : Decidable (c.Permitted x) :=
  decidable_of_iff ((∀ i ∈ x.source, i ∈ c.held) ∧
      ∀ i ∈ x.kept, ∀ n ∈ c.sources.block i, n.refcount < Int32.maxValue)
    ⟨fun h => ⟨h.1, h.2⟩, fun h => ⟨h.held, h.fits⟩⟩

def Clients.call (c : Option Clients) (x : RefCall) : Option Clients := c.bind (·.step x)

structure Accounted (c : Clients) : Prop where
  /-- A source counts the clients and the layered sources that hold it. -/
  counted : ∀ i n, c.sources.block i = some n → n.refcount.toInt = c.held.count i + c.sources.uppers i
  /-- It is there exactly as long as one of them does. -/
  there : ∀ i, (c.sources.block i).isSome ↔ 0 < c.held.count i + c.sources.uppers i
  /-- A client can use what it holds. -/
  usable : ∀ i ∈ c.held, c.sources.reaches i = true
  /-- When no client holds any source, nothing is left. -/
  released : c.held = [] → ∀ i, c.sources.block i = none

end Kzip.Spec
