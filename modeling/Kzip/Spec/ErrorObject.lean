import Kzip.Impl.ErrorObject
import Kzip.Lib.Run

/-!
# Who owns the string of an error object

The calls on one error object, in an order that the interface permits. A call keeps the ownership of the
strings if what it releases was handed out and not released before, and if the call that ends the object
leaves no string behind.
-/

namespace Kzip.Spec

open Kzip.Impl Lib

inductive ErrorCall where
  | init
  | initWithCode (code : Int32)
  | set (zipErr sysErr : Int32)
  | strerror
  | fini
  | openFromSource (src : Option ZipSource) (flags : Int32)
  deriving DecidableEq

def ErrorCall.run (X : Extern) (o : ErrorObject) : ErrorCall → ErrorObject
  | .init => zipErrorInit o
  | .initWithCode code => zipErrorInitWithCode code o
  | .set zipErr sysErr => zipErrorSet zipErr sysErr o
  | .strerror => (zipErrorStrerror o).2
  | .fini => zipErrorFini o
  | .openFromSource src flags => (zipOpenFromSource X src flags o).2

def ErrorCall.inits : ErrorCall → Prop
  | .init | .initWithCode _ => True
  | _ => False

/-- The calls that release what they find in the object. -/
def ErrorCall.releases : ErrorCall → Prop
  | .set _ _ | .fini => True
  | _ => False

/-- An object is initialized at the start, and then only right after it was ended. -/
structure Permitted (calls : List ErrorCall) : Prop where
  starts : ∀ call ∈ calls.head?, call.inits
  chain : calls.IsChain fun last call => call.inits → last = .fini

/-- What is released was handed out and not released before, and `fini` leaves nothing. -/
def KeepsOwnership (X : Extern) (o : ErrorObject) (call : ErrorCall) : Prop :=
  (call.run X o).heap.Sound ∧ (call = .fini → (call.run X o).heap.NoneLeft)

/-- The calls that fail to open an archive: the arguments are not valid, the source cannot be read, or what it
holds is no archive, unless it is discarded anyway. -/
def ErrorCall.failsToOpen : ErrorCall → Prop
  | .openFromSource src flags =>
    flags < 0 ∨ ∀ s bytes, src = some s → s.readAll = some bytes →
      flags &&& zipTruncate = 0 ∧ ∀ archive, Archive.open { kind := .vec, bytes := bytes.val } ≠ .ok archive
  | _ => False

end Kzip.Spec
