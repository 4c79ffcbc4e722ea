import Kzip.Impl.Progress
import Kzip.Impl.Session
import Kzip.Lib.Rounding

/-!
# Callbacks of a handle

A user can register a progress callback and a cancel callback with a handle. They are called with the handle
while a close writes the archive, and their user data is freed when they are replaced or the handle is dropped.
A callback is given here as what it does on a state of the user, its user data included, when it is called with
the handle as it is during the close. It makes no calls on that handle: the close holds the locks of the pending
edits and of the callback's own registration while it runs, and a call that needs one of them would never
return. Fractions are doubles.
-/

namespace Kzip.Impl

open Lib Lib.Utf8

/-- The rounding of `f64`, which has 0 and 1. -/
structure Doubles extends Rounding where
  zero : representable 0
  one : representable 1

/-- The precision that a user asks for, which may be any double. -/
inductive Precision where
  | nan
  | negInf
  | finite (q : ℚ)
  | posInf

/-- `d > precision` -/
def Precision.exceeded (d : ℚ) : Precision → Bool
  | .nan | .posInf => false
  | .negInf => true
  | .finite q => q < d

variable {σ : Type}

structure ProgressReg (σ : Type) where
  precision : Precision
  cb : Zip → ℚ → σ → σ
  udFree : Option (σ → σ)

structure CancelReg (σ : Type) where
  cb : Zip → σ → Bool × σ
  udFree : Option (σ → σ)

structure Callbacks (σ : Type) where
  progress : Option (ProgressReg σ)
  cancel : Option (CancelReg σ)

def Callbacks.none : Callbacks σ := { progress := .none, cancel := .none }

/-- Runs the hook of a callback that is released. -/
def freeUd (udFree : Option (σ → σ)) (captured : σ) : σ := udFree.elim captured (· captured)

/-- `zip_register_progress_callback_with_state`; without a callback the one before is unregistered. -/
def Callbacks.registerProgress (cs : Callbacks σ) (reg : Option (ProgressReg σ)) (captured : σ) :
    Callbacks σ × σ :=
  ({ cs with progress := reg }, freeUd (cs.progress.bind (·.udFree)) captured)

/-- `zip_register_cancel_callback_with_state` -/
def Callbacks.registerCancel (cs : Callbacks σ) (reg : Option (CancelReg σ)) (captured : σ) :
    Callbacks σ × σ :=
  ({ cs with cancel := reg }, freeUd (cs.cancel.bind (·.udFree)) captured)

/-- What dropping a handle does with its callbacks. -/
def Callbacks.drop (cs : Callbacks σ) (captured : σ) : σ :=
  freeUd (cs.cancel.bind (·.udFree)) (freeUd (cs.progress.bind (·.udFree)) captured)

/-! ## Closing with callbacks -/

section
variable (D : Doubles)

/-- The fraction of a write that is completed. -/
def fraction (completed total : UInt64) : ℚ :=
  if total = 0 then 1
  else
    let frac := D.round (D.round completed.toNat / D.round total.toNat)
    max 0 (min frac 1)

/-- Whether the progress callback is to be told of a fraction, when it was last told of another one. -/
def ProgressReg.due (p : ProgressReg σ) (last frac : ℚ) : Bool :=
  p.precision.exceeded (D.round (frac - last)) || (last < 1 && frac = 1)

/-- The progress callback at a checkpoint: the state is that of the user, and the last fraction. -/
def ProgressReg.poll (p : ProgressReg σ) (za : Zip) (completed total : UInt64) (s : σ × ℚ) : σ × ℚ :=
  let frac := fraction D completed total
  if p.due D s.2 frac then (p.cb za frac s.1, frac) else s

/-- What is polled at each checkpoint of a write. -/
def Callbacks.poll (cs : Callbacks σ) (za : Zip) : WriteProgressPoll (σ × ℚ) :=
  fun completed total (captured, last) =>
    let (cancel, captured) := match cs.cancel with
      | some c => c.cb za captured
      | .none => (false, captured)
    match cs.progress with
    | some p => (cancel, p.poll D za completed total (captured, last))
    | .none => (cancel, captured, last)

/-- Tells the progress callback, if there is one. -/
def Callbacks.tell (cs : Callbacks σ) (za : Zip) (frac : ℚ) (captured : σ) : σ :=
  cs.progress.elim captured fun p => p.cb za frac captured

variable (X : Extern)

/-- What `materialize` hands to the writer: the files, their encryption methods, the password and the
comment. -/
def Zip.writeInput (sched : Nat → Schedule) (z : Zip) :
    Result (List (ArchiveFile × UInt16) × Bytes × Bytes) := do
  let plan ← z.plan X sched
  let archiveComment := z.pending.archiveComment.getD (asBytes z.archive.comment)
  let pw ← if plan.any (fun f => f.2 != 0) then
      match z.password with
      | some pw => .ok pw
      | none => .error (.err .nopasswd)
    else .ok []
  .ok (plan, pw, archiveComment)

/-- `materialize`, with the callbacks of the handle. -/
def Zip.materializeWith (sched : Nat → Schedule) (z : Zip) (cs : Callbacks σ) (captured : σ) :
    Result Vec × σ :=
  match z.writeInput X sched with
  | .error e => (.error e, captured)
  | .ok (plan, pw, archiveComment) =>
    let files := plan.map (·.1)
    let methods := plan.map (·.2)
    if cs.progress.isNone && cs.cancel.isNone then
      (writeArchiveFull X files .default pw methods archiveComment, captured)
    else
      let (result, captured, _) := writeArchiveFullWithProgress X files .default pw methods archiveComment
        (some (cs.poll D z)) (cs.tell z 0 captured, 0)
      match result with
      | .ok bytes => (.ok bytes, cs.tell z 1 captured)
      | .error e => (.error e, captured)

/-- `zipClose`, with the callbacks of the handle. -/
def zipCloseWith (sched : Nat → Schedule) (outcome : WriteOutcome) (files : Files) (h : Handle)
    (cs : Callbacks σ) (captured : σ) : (Int × Files × Option Handle) × σ :=
  if !h.shouldWrite then ((0, files, none), cs.drop captured)
  else
    let (result, captured) := h.zip.materializeWith D X sched cs captured
    match result with
    | .error (.err _) => ((-1, files, none), cs.drop captured)
    | .error .panic => ((-1, files, some h), captured)
    | .ok bytes =>
      match h.path with
      | none => ((-1, files, none), cs.drop captured)
      | some path =>
        let (done, files) := writeFile outcome files path bytes
        ((if done then 0 else -1, files, none), cs.drop captured)

end

end Kzip.Impl
