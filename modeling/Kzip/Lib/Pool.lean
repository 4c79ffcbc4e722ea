import Kzip.Lib.Except
import Mathlib.Algebra.GroupWithZero.Nat

/-!
# Worker pools

A pool maps a function that may fail over a list of tasks. A worker takes a task that nobody has taken, and
puts its result into the slot of the task when it is done. The first failure is recorded, and from then on
tasks that nobody has taken may be skipped. A schedule is a list of actions; an action that is not possible
does nothing. Under every schedule, a pool that has finished gives what the plain loop gives, if that
succeeds, and fails as one of the tasks does otherwise (`result_ok_iff`, `result_error`). Every schedule can
be extended until the pool has finished (`exists_finished`).
-/

namespace Lib

variable {α β ε : Type}

inductive Slot (β : Type) where
  | waiting
  | running (worker : Nat)
  | done (b : β)
  /-- The task failed, or was skipped. -/
  | dropped
  deriving DecidableEq

inductive PoolAction where
  | take (worker i : Nat)
  | finish (i : Nat)
  | skip (i : Nat)

structure Pool (ε β : Type) where
  /-- One for each task. -/
  slots : List (Slot β)
  /-- The failure that was recorded. -/
  failed : Option ε

def Slot.value : Slot β → Option β
  | .done b => some b
  | .waiting | .running _ | .dropped => none

/-- How many actions a task has still to come. -/
def Slot.work : Slot β → Nat
  | .waiting => 2
  | .running _ => 1
  | .done _ | .dropped => 0

namespace Pool

def fresh (tasks : List α) : Pool ε β := { slots := tasks.map fun _ => .waiting, failed := none }

/-- Whether a worker has a task. -/
def busy (p : Pool ε β) (worker : Nat) : Bool := p.slots.any fun s =>
  match s with
  | .running w => w == worker
  | .waiting | .done _ | .dropped => false

def work (p : Pool ε β) : Nat := (p.slots.map Slot.work).sum

def finished (p : Pool ε β) : Bool := p.slots.all (·.work == 0)

/-- What the pool gives when it has finished. -/
def result (p : Pool ε β) : Except ε (List β) :=
  match p.failed with
  | some e => .error e
  | none => .ok (p.slots.filterMap Slot.value)

section
variable (f : α → Except ε β) (tasks : List α) (workers : Nat)

def step (p : Pool ε β) : PoolAction → Pool ε β
  | .take worker i =>
    match p.slots[i]? with
    | some .waiting =>
      if worker < workers ∧ !p.busy worker then { p with slots := p.slots.set i (.running worker) } else p
    | _ => p
  | .finish i =>
    match p.slots[i]?, tasks[i]? with
    | some (.running _), some x =>
      match f x with
      | .ok b => { p with slots := p.slots.set i (.done b) }
      | .error e => { slots := p.slots.set i .dropped, failed := p.failed.or (some e) }
    | _, _ => p
  | .skip i =>
    match p.slots[i]?, p.failed with
    | some .waiting, some _ => { p with slots := p.slots.set i .dropped }
    | _, _ => p

/-- The pool after a schedule. -/
def after (schedule : List PoolAction) : Pool ε β :=
  schedule.foldl (step f tasks workers) (fresh tasks)

/-- What a schedule comes to, if the pool has finished. -/
def run (schedule : List PoolAction) : Option (Except ε (List β)) :=
  let p := after f tasks workers schedule
  if p.finished then some p.result else none

end

/-! ## What an action does -/

variable {f : α → Except ε β} {tasks : List α} {workers : Nat} {p : Pool ε β}

/-- The slot that an action changes: a task is taken, it succeeds, it fails, or it is skipped. -/
inductive Acts (f : α → Except ε β) (tasks : List α) (workers : Nat) (p : Pool ε β) : Pool ε β → Prop
  | take {i worker : Nat} (hi : p.slots[i]? = some .waiting) (hw : worker < workers)
    (hbusy : p.busy worker = false) : Acts f tasks workers p
      { p with slots := p.slots.set i (.running worker) }
  | succeed {i worker : Nat} {x : α} {b : β} (hi : p.slots[i]? = some (.running worker))
    (hx : tasks[i]? = some x) (hf : f x = .ok b) : Acts f tasks workers p
      { p with slots := p.slots.set i (.done b) }
  | fail {i worker : Nat} {x : α} {e : ε} (hi : p.slots[i]? = some (.running worker))
    (hx : tasks[i]? = some x) (hf : f x = .error e) : Acts f tasks workers p
      { slots := p.slots.set i .dropped, failed := p.failed.or (some e) }
  | skip {i : Nat} (hi : p.slots[i]? = some .waiting) (hfailed : p.failed.isSome) :
    Acts f tasks workers p { p with slots := p.slots.set i .dropped }

theorem step_cases (a : PoolAction) :
    step f tasks workers p a = p ∨ Acts f tasks workers p (step f tasks workers p a) := by
  cases a with
  | take worker i =>
    simp only [step]
    split
    · rename_i hi
      split
      · rename_i h
        exact .inr (.take hi h.1 (by simpa using h.2))
      · exact .inl rfl
    · exact .inl rfl
  | finish i =>
    simp only [step]
    split
    · rename_i hi hx
      cases hf : f _ with
      | ok b => exact .inr (.succeed hi hx hf)
      | error e => exact .inr (.fail hi hx hf)
    · exact .inl rfl
  | skip i =>
    simp only [step]
    split
    · rename_i hi hfailed
      exact .inr (.skip hi (Option.isSome_of_eq_some hfailed))
    · exact .inl rfl

theorem sum_map_set_lt {γ : Type} {g : γ → Nat} {l : List γ} {i : Nat} {s t : γ} (hi : l[i]? = some s)
    (hlt : g t < g s) : ((l.set i t).map g).sum < (l.map g).sum := by
  induction l generalizing i with
  | nil => cases hi
  | cons x l ih =>
    cases i with
    | zero =>
      cases hi
      simpa using hlt
    | succ i => simpa using ih hi

/-- Every action uses up some work. -/
theorem Acts.work_lt {q : Pool ε β} (h : Acts f tasks workers p q) : q.work < p.work := by
  cases h with
  | take hi => exact sum_map_set_lt hi (Nat.lt_succ_self 1)
  | succeed hi => exact sum_map_set_lt hi Nat.one_pos
  | fail hi => exact sum_map_set_lt hi Nat.one_pos
  | skip hi => exact sum_map_set_lt hi Nat.two_pos

/-! ## Soundness -/

/-- The slots that are done hold the results of their tasks, and a task was dropped only after a failure,
which is that of a task. -/
structure Sound (f : α → Except ε β) (tasks : List α) (p : Pool ε β) : Prop where
  length : p.slots.length = tasks.length
  done : ∀ (i : Nat) (b : β), p.slots[i]? = some (.done b) → ∃ x, tasks[i]? = some x ∧ f x = .ok b
  dropped : Slot.dropped ∈ p.slots → p.failed.isSome
  failed : ∀ e, p.failed = some e → ∃ x ∈ tasks, f x = .error e

theorem sound_fresh : Sound f tasks (fresh tasks) where
  length := List.length_map ..
  done := fun i b h => by
    obtain ⟨x, -, hx⟩ := Option.map_eq_some_iff.mp ((List.getElem?_map ..).symm.trans h)
    cases hx
  dropped := fun h => by
    obtain ⟨x, -, hx⟩ := List.mem_map.mp h
    cases hx
  failed := nofun

/-- A slot that is set, and the record of failures. -/
theorem Sound.set (h : Sound f tasks p) {i : Nat} {s : Slot β} {failed : Option ε}
    (hdone : ∀ b, s = .done b → ∃ x, tasks[i]? = some x ∧ f x = .ok b)
    (hdropped : s = .dropped → failed.isSome) (hkeep : p.failed.isSome → failed.isSome)
    (hfailed : ∀ e, failed = some e → ∃ x ∈ tasks, f x = .error e) :
    Sound f tasks { slots := p.slots.set i s, failed } where
  length := (List.length_set ..).trans h.length
  done := fun j b hj => by
    rw [List.getElem?_set] at hj
    split at hj
    · rename_i hij
      split at hj
      · rw [← hij]
        exact hdone b (Option.some.inj hj)
      · cases hj
    · exact h.done j b hj
  dropped := fun hmem => by
    rcases List.mem_or_eq_of_mem_set hmem with hmem | heq
    · exact hkeep (h.dropped hmem)
    · exact hdropped heq.symm
  failed := hfailed

theorem Sound.acts (h : Sound f tasks p) {q : Pool ε β} (ha : Acts f tasks workers p q) :
    Sound f tasks q := by
  cases ha with
  | take => exact h.set nofun nofun id h.failed
  | succeed _ hx hf =>
    refine h.set (fun b hb => ?_) nofun id h.failed
    cases hb
    exact ⟨_, hx, hf⟩
  | fail _ hx hf =>
    refine h.set nofun (fun _ => by simp) (fun _ => by simp) fun e he => ?_
    rcases Option.or_eq_some_iff.mp he with he | ⟨-, he⟩
    · exact h.failed e he
    · cases he
      exact ⟨_, List.mem_of_getElem? hx, hf⟩
  | skip _ hfailed => exact h.set nofun (fun _ => hfailed) id h.failed

theorem sound_foldl (h : Sound f tasks p) (schedule : List PoolAction) :
    Sound f tasks (schedule.foldl (step f tasks workers) p) := by
  induction schedule generalizing p with
  | nil => exact h
  | cons a schedule ih =>
    have hcases : step f tasks workers p a = p ∨ Acts f tasks workers p (step f tasks workers p a) :=
      step_cases a
    rcases hcases with heq | ha
    · rw [List.foldl_cons, heq]
      exact ih h
    · exact ih (h.acts ha)

theorem sound_after (f : α → Except ε β) (tasks : List α) (workers : Nat) (schedule : List PoolAction) :
    Sound f tasks (after f tasks workers schedule) := sound_foldl sound_fresh schedule

/-! ## Results -/

theorem finished_iff : p.finished ↔ ∀ s ∈ p.slots, s = .dropped ∨ ∃ b, s = .done b := by
  simp only [finished, List.all_eq_true, beq_iff_eq]
  refine forall₂_congr fun s _ => ?_
  cases s <;> simp [Slot.work]

theorem Sound.result_error (h : Sound f tasks p) {e : ε} (hr : p.result = .error e) :
    ∃ x ∈ tasks, f x = .error e := by
  unfold result at hr
  split at hr
  · cases hr
    exact h.failed e ‹_›
  · cases hr

/-- A pool that has finished without a failure holds the results of all tasks, in order. -/
theorem Sound.mapM_of_result (h : Sound f tasks p) (hfin : p.finished) {bs : List β}
    (hr : p.result = .ok bs) : tasks.mapM f = .ok bs := by
  unfold result at hr
  split at hr
  · cases hr
  · rename_i hfailed
    cases hr
    have hdone (s : Slot β) (hs : s ∈ p.slots) : ∃ b, s = .done b := by
      rcases finished_iff.mp hfin s hs with rfl | hb
      · have := h.dropped hs
        rw [hfailed] at this
        cases this
      · exact hb
    have hslots : p.slots = (p.slots.filterMap Slot.value).map .done := by
      clear hfin hfailed h
      generalize p.slots = slots at hdone
      induction slots with
      | nil => rfl
      | cons s slots ih =>
        obtain ⟨⟨b, rfl⟩, hslots⟩ := List.forall_mem_cons.mp hdone
        rw [List.filterMap_cons, Slot.value, List.map_cons, ← ih hslots]
    rw [mapM_ok, List.forall₂_iff_get]
    generalize p.slots.filterMap Slot.value = bs at hslots
    have hlen : tasks.length = bs.length := by rw [← h.length, hslots, List.length_map]
    refine ⟨hlen, fun i hi hi' => ?_⟩
    obtain ⟨x, hx, hf⟩ := h.done i bs[i] (by rw [hslots, List.getElem?_map, List.getElem?_eq_getElem hi']; rfl)
    rw [List.getElem?_eq_getElem hi] at hx
    cases hx
    exact hf

/-- A pool that has finished gives what the plain loop gives, if that succeeds. -/
theorem Sound.result_ok_iff (h : Sound f tasks p) (hfin : p.finished) {bs : List β} :
    p.result = .ok bs ↔ tasks.mapM f = .ok bs := by
  refine ⟨h.mapM_of_result hfin, fun hm => ?_⟩
  cases hr : p.result with
  | error e =>
    obtain ⟨x, hx, hf⟩ := h.result_error hr
    obtain ⟨i, hi, rfl⟩ := List.mem_iff_getElem.mp hx
    have hok := (mapM_ok.mp hm).get hi ((mapM_ok.mp hm).length_eq ▸ hi)
    rw [List.get_eq_getElem, hf] at hok
    cases hok
  | ok bs' =>
    have hm' := h.mapM_of_result hfin hr
    rw [hm] at hm'
    cases hm'
    rfl

/-! ## Progress -/

/-- A pool that has not finished has an action left: a task that is running comes to its end, or if none
is, the first worker takes one. -/
theorem Sound.exists_acts (h : Sound f tasks p) (hworkers : 0 < workers) (hfin : p.finished = false) :
    ∃ a, Acts f tasks workers p (step f tasks workers p a) := by
  by_cases hrun : ∃ (i w : Nat), p.slots[i]? = some (.running w)
  · obtain ⟨i, w, hi⟩ := hrun
    have hlt : i < tasks.length := h.length ▸ (List.getElem?_eq_some_iff.mp hi).1
    refine ⟨.finish i, ?_⟩
    simp only [step, hi, List.getElem?_eq_getElem hlt]
    cases hf : f tasks[i] with
    | ok b => exact .succeed hi (List.getElem?_eq_getElem hlt) hf
    | error e => exact .fail hi (List.getElem?_eq_getElem hlt) hf
  · have hnot : ¬ ∀ s ∈ p.slots, s = .dropped ∨ ∃ b, s = .done b := fun hall => by
      rw [finished_iff.mpr hall] at hfin
      cases hfin
    obtain ⟨s, hs⟩ := Classical.not_forall.mp hnot
    obtain ⟨hmem, hs⟩ := Classical.not_imp.mp hs
    obtain ⟨i, hi⟩ := List.mem_iff_getElem?.mp hmem
    have hbusy : p.busy 0 = false := by
      refine List.any_eq_false.mpr fun t ht hw => ?_
      obtain ⟨j, hj⟩ := List.mem_iff_getElem?.mp ht
      cases t with
      | running w => exact hrun ⟨j, w, hj⟩
      | waiting => cases hw
      | done b => cases hw
      | dropped => cases hw
    cases s with
    | waiting =>
      refine ⟨.take 0 i, ?_⟩
      simp only [step, hi, hworkers, hbusy, Bool.not_false, and_self, ↓reduceIte]
      exact .take hi hworkers hbusy
    | running w => exact absurd ⟨i, w, hi⟩ hrun
    | done b => exact absurd (.inr ⟨b, rfl⟩) hs
    | dropped => exact absurd (.inl rfl) hs

theorem Sound.exists_finished (h : Sound f tasks p) (hworkers : 0 < workers) :
    ∃ more : List PoolAction, (more.foldl (step f tasks workers) p).finished := by
  induction hw : p.work using Nat.strongRecOn generalizing p with
  | ind w ih =>
    subst hw
    cases hfin : p.finished with
    | true => exact ⟨[], hfin⟩
    | false =>
      obtain ⟨a, ha⟩ := h.exists_acts hworkers hfin
      obtain ⟨more, hmore⟩ := ih _ ha.work_lt (h.acts ha) rfl
      exact ⟨a :: more, hmore⟩

section
variable (f : α → Except ε β) (tasks : List α) (workers : Nat) (schedule : List PoolAction)

/-- Under every schedule, what the pool comes to is what the plain loop gives, if that succeeds, and
otherwise the failure of a task. -/
theorem run_sound {r : Except ε (List β)} (h : run f tasks workers schedule = some r) :
    (∀ bs, r = .ok bs ↔ tasks.mapM f = .ok bs) ∧ ∀ e, r = .error e → ∃ x ∈ tasks, f x = .error e := by
  have hs := sound_after f tasks workers schedule
  simp only [run, Option.ite_none_right_eq_some, Option.some.injEq] at h
  obtain ⟨hfin, rfl⟩ := h
  exact ⟨fun bs => hs.result_ok_iff hfin, fun e => hs.result_error⟩

/-- Whatever has happened so far, the pool can still finish. -/
theorem exists_run (hworkers : 0 < workers) :
    ∃ more r, run f tasks workers (schedule ++ more) = some r := by
  obtain ⟨more, hfin⟩ := (sound_after f tasks workers schedule).exists_finished hworkers
  refine ⟨more, (after f tasks workers (schedule ++ more)).result, ?_⟩
  have hafter : (after f tasks workers (schedule ++ more)).finished := by
    rw [after, List.foldl_append]
    exact hfin
  simp only [run, hafter, ↓reduceIte]

end

end Pool

end Lib
