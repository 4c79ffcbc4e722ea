import Kzip.Impl.Callbacks
import Kzip.Spec.Progress

/-!
# What callbacks should see

Callbacks are made to keep a log of what is done with them (`recorded`), each under a tag. What they should
see of a close, and what they should do to it, is `Monitors`.
-/

namespace Kzip.Impl

open Lib Kzip.Spec

variable {σ : Type}

/-- What is done with a callback: it is told of a fraction, or asked whether to cancel, or its user data is
freed. -/
inductive CallbackEvent where
  | told (tag : Nat) (frac : ℚ)
  | polled (tag : Nat) (cancel : Bool)
  | freed (tag : Nat)

def CallbackEvent.tag : CallbackEvent → Nat
  | .told tag _ | .polled tag _ | .freed tag => tag

abbrev Logged (σ : Type) := σ × List CallbackEvent

def recordedHook (tag : Nat) (udFree : σ → σ) : Logged σ → Logged σ :=
  fun s => (udFree s.1, s.2 ++ [.freed tag])

def ProgressReg.recorded (tag : Nat) (p : ProgressReg σ) : ProgressReg (Logged σ) :=
  { precision := p.precision, cb := fun za frac s => (p.cb za frac s.1, s.2 ++ [.told tag frac]),
    udFree := p.udFree.map (recordedHook tag) }

def CancelReg.recorded (tag : Nat) (c : CancelReg σ) : CancelReg (Logged σ) :=
  { cb := fun za s => ((c.cb za s.1).1, (c.cb za s.1).2, s.2 ++ [.polled tag (c.cb za s.1).1]),
    udFree := c.udFree.map (recordedHook tag) }

/-- The callbacks, with a log. -/
def Callbacks.recorded (progressTag cancelTag : Nat) (cs : Callbacks σ) : Callbacks (Logged σ) :=
  { progress := cs.progress.map (·.recorded progressTag), cancel := cs.cancel.map (·.recorded cancelTag) }

end Kzip.Impl

namespace Kzip.Spec

open Lib Kzip.Impl

variable {σ : Type}

def CallbackEvent.fraction : CallbackEvent → Option ℚ
  | .told _ frac => some frac
  | .polled .. | .freed _ => none

def CallbackEvent.answer : CallbackEvent → Option Bool
  | .polled _ cancel => some cancel
  | .told .. | .freed _ => none

/-- The fractions that the progress callback was told. -/
def fractions (log : List CallbackEvent) : List ℚ := log.filterMap CallbackEvent.fraction

/-- The answers of the cancel callback. -/
def answers (log : List CallbackEvent) : List Bool := log.filterMap CallbackEvent.answer

/-- The close writes, is not cancelled, and makes the archive. -/
def Makes (X : Extern) (sched : Nat → Schedule) (h : Handle) (log : List CallbackEvent) : Prop :=
  h.shouldWrite = true ∧ true ∉ answers log ∧ ∃ out, h.zip.materialize X sched = .ok out

/-- What callbacks saw of a close of `h`, and what they did to it: `run` is the close, and `quiet` the one
without callbacks. -/
structure Monitors (X : Extern) (D : Doubles) (sched : Nat → Schedule) (files : Files) (h : Handle)
    (cs : Callbacks σ) (quiet run : Int × Files × Option Handle) (log : List CallbackEvent) : Prop where
  uncancelled : true ∉ answers log → run = quiet
  /-- A close that is cancelled fails, writes nothing, and asks no more. -/
  cancelled : ∀ before after, answers log = before ++ true :: after → run = (-1, files, none) ∧ after = []
  nondecreasing : (fractions log).Pairwise (· ≤ ·)
  bounded : ∀ frac ∈ fractions log, 0 ≤ frac ∧ frac ≤ 1
  started : ∀ frac ∈ (fractions log).head?, frac = 0
  /-- If the archive was made, the last fraction is 1. -/
  finished : cs.progress.isSome → h.shouldWrite → true ∉ answers log →
    ∀ out, h.zip.materialize X sched = .ok out → (fractions log).getLast? = some 1
  /-- Each fraction exceeds the one before it by more than the precision, or is the first that is 1; if the
  archive was made, 1 is told at the end, also when it was told before. -/
  throttled : ∀ p ∈ cs.progress, ∃ written, written.IsChain (fun last frac => p.due D last frac = true) ∧
    (Makes X sched h log → fractions log = written ++ [1]) ∧ (¬Makes X sched h log → fractions log = written)

/-! ## The life of user data -/

/-- A registration with a handle; without a callback the one before is unregistered. -/
inductive RegCall (σ : Type) where
  | progress (reg : Option (ProgressReg σ))
  | cancel (reg : Option (CancelReg σ))

/-- Whether a hook for the user data is registered. -/
def RegCall.hooked : RegCall σ → Bool
  | .progress reg => (reg.bind (·.udFree)).isSome
  | .cancel reg => (reg.bind (·.udFree)).isSome

def RegCall.run (tag : Nat) (cs : Callbacks (Logged σ)) (captured : Logged σ) :
    RegCall σ → Callbacks (Logged σ) × Logged σ
  | .progress reg => cs.registerProgress (reg.map (·.recorded tag)) captured
  | .cancel reg => cs.registerCancel (reg.map (·.recorded tag)) captured

/-- Registrations with a handle, each tagged with its number. -/
def registerFrom : Nat → List (RegCall σ) → Callbacks (Logged σ) → Logged σ → Callbacks (Logged σ) × Logged σ
  | _, [], cs, captured => (cs, captured)
  | tag, call :: calls, cs, captured =>
    let (cs, captured) := call.run tag cs captured
    registerFrom (tag + 1) calls cs captured

/-- The registrations with a new handle, when the user is in this state. -/
def registerAll (calls : List (RegCall σ)) (captured : σ) : Callbacks (Logged σ) × Logged σ :=
  registerFrom 0 calls .none (captured, [])

/-- The user data of each registration with a hook was freed, and after it was freed the callback was neither
called nor freed again. -/
structure Released (calls : List (RegCall σ)) (log : List CallbackEvent) : Prop where
  exactly : ∀ tag, .freed tag ∈ log ↔ ∃ call, calls[tag]? = some call ∧ call.hooked = true
  final : log.Pairwise fun e e' => ∀ tag, e = .freed tag → e'.tag ≠ tag

end Kzip.Spec
