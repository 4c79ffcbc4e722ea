import Kzip.Spec.ErrorObject
import Kzip.Impl.Reference

/-!
# Who owns the string of an error object

As long as no archive failed to open, the string of the object holds the heap (`held_run`). A failed open puts
a message of the program in its place, and then the next call that releases a string releases the message
(`along_static`).
-/

namespace Kzip.Impl

open Lib Spec

variable {X : Extern} {o : ErrorObject} {call last : ErrorCall} {calls : List ErrorCall}

/-! ## Opening an archive from a source -/

/-- The empty archive can be written and opened. -/
theorem openBytes_truncate {flags : Int32} (h : flags &&& zipTruncate ≠ 0) (bytes : Vec) :
    ∃ archive, openBytes X flags bytes = .ok archive := by
  rw [openBytes, if_pos h]
  exact ⟨_, rfl⟩

theorem failsToOpen_iff {s : ZipSource} {bytes : Vec} {flags : Int32} (hflags : ¬ flags < 0)
    (hs : s.readAll = some bytes) :
    (ErrorCall.openFromSource (some s) flags).failsToOpen ↔ flags &&& zipTruncate = 0 ∧
      ∀ archive, Archive.open { kind := .vec, bytes := bytes.val } ≠ .ok archive := by
  refine ⟨fun h => (h.resolve_left hflags) s bytes rfl hs, fun h => .inr fun s' bytes' hs' hbytes => ?_⟩
  cases hs'
  rw [hs] at hbytes
  cases hbytes
  exact h

theorem openBytes_ok_iff (flags : Int32) (bytes : Vec) :
    (∃ archive, openBytes X flags bytes = .ok archive) ↔ ¬ (flags &&& zipTruncate = 0 ∧
      ∀ archive, Archive.open { kind := .vec, bytes := bytes.val } ≠ .ok archive) := by
  by_cases htrunc : flags &&& zipTruncate = 0
  · rw [openBytes, if_neg (not_not_intro htrunc)]
    simp only [htrunc, true_and, ne_eq, not_forall, not_not]
  · exact iff_of_true (openBytes_truncate htrunc bytes) fun h => htrunc h.1

theorem openSource_ok_iff (src : Option ZipSource) (flags : Int32) :
    (∃ z, openSource X src flags = .ok z) ↔ ¬ (ErrorCall.openFromSource src flags).failsToOpen := by
  by_cases hflags : flags < 0
  · simp [openSource, ErrorCall.failsToOpen, hflags]
  · cases src with
    | none => simp [openSource, ErrorCall.failsToOpen, hflags]
    | some s =>
      cases hs : s.readAll with
      | none => simp [openSource, ErrorCall.failsToOpen, hflags, hs]
      | some bytes =>
        have hopen : openSource X (some s) flags =
            (openBytes X flags bytes).map fun archive => makeZip archive flags := by
          simp [openSource, hflags, hs]
        rw [failsToOpen_iff hflags hs, ← openBytes_ok_iff (X := X), hopen]
        cases openBytes X flags bytes <;> simp [Except.map]

theorem zipOpenFromSource_opens {src : Option ZipSource} {flags : Int32}
    (h : ¬ (ErrorCall.openFromSource src flags).failsToOpen) (o : ErrorObject) :
    (zipOpenFromSource X src flags o).2.ze.str = o.ze.str ∧
      (zipOpenFromSource X src flags o).2.heap = o.heap := by
  obtain ⟨z, hz⟩ := (openSource_ok_iff (X := X) src flags).mpr h
  rw [zipOpenFromSource, hz]
  exact ⟨rfl, rfl⟩

/-- A failed open overwrites the string, and releases nothing. -/
theorem failedOpen_run (h : call.failsToOpen) (o : ErrorObject) :
    ∃ message, (call.run X o).ze.str = .static message ∧ (call.run X o).heap = o.heap := by
  cases call with
  | openFromSource src flags =>
    rw [ErrorCall.run, zipOpenFromSource]
    cases hz : openSource X src flags with
    | ok z => exact absurd h ((openSource_ok_iff src flags).mp ⟨z, hz⟩)
    | error e =>
      cases e with
      | err code => exact ⟨_, rfl, rfl⟩
      | panic => exact ⟨_, rfl, rfl⟩
  | _ => exact absurd h id

/-! ## Before an open failed -/

/-- The string of the object is the one that is left. -/
def Held (o : ErrorObject) : Prop := o.heap.HeldBy o.ze.str

theorem Held.dropStr (ho : Held o) : o.dropStr.heap.HeldBy .null := by
  rw [ErrorObject.dropStr]
  by_cases hnull : o.ze.str = .null
  · rw [if_pos hnull, ← hnull]
    exact ho
  · rw [if_neg hnull]
    obtain hstr | ⟨k, -, hstr⟩ := ho.valid
    · exact absurd hstr hnull
    · rw [Held, hstr] at ho
      rw [hstr]
      exact ho.release

/-- A call that initializes the object overwrites the string, so nothing may be left of the heap. -/
theorem held_of_inits (ho : o.heap.HeldBy .null) (hinits : call.inits) : Held (call.run X o) := by
  cases call with
  | init => exact ho
  | initWithCode code => exact ho.alloc (errStr code)
  | _ => exact absurd hinits id

theorem Held.zipErrorSet (ho : Held o) (zipErr sysErr : Int32) : Held (zipErrorSet zipErr sysErr o) :=
  ho.dropStr.alloc (errStr zipErr)

theorem Held.zipErrorStrerror (ho : Held o) : Held (zipErrorStrerror o).2 := by
  rw [Impl.zipErrorStrerror]
  by_cases hnull : o.ze.str = .null
  · rw [Held, hnull] at ho
    rw [if_pos hnull]
    exact ho.alloc (errStr o.ze.zipErr)
  · rw [if_neg hnull]
    exact ho

theorem Held.zipErrorFini (ho : Held o) : Held (zipErrorFini o) := ho.dropStr

/-- Every call but a failed open keeps the ownership, and hands it on. -/
theorem held_run (ho : Held o) (hinits : call.inits → o.ze.str = .null) (hopens : ¬ call.failsToOpen) :
    Held (call.run X o) := by
  cases call with
  | init =>
    rw [Held, hinits trivial] at ho
    exact held_of_inits ho trivial
  | initWithCode code =>
    rw [Held, hinits trivial] at ho
    exact held_of_inits ho trivial
  | set zipErr sysErr => exact ho.zipErrorSet zipErr sysErr
  | strerror => exact ho.zipErrorStrerror
  | fini => exact ho.zipErrorFini
  | openFromSource src flags =>
    obtain ⟨hstr, hheap⟩ := zipOpenFromSource_opens (X := X) hopens o
    rw [Held, ErrorCall.run, hstr, hheap]
    exact ho

theorem keepsOwnership_of_held (ho : Held (call.run X o)) : KeepsOwnership X o call := by
  refine ⟨ho.sound, ?_⟩
  rintro rfl
  exact Heap.HeldBy.noneLeft ho

/-! ## After an open failed -/

/-- A call that releases the string releases a message of the program. -/
theorem not_keepsOwnership_of_static {message : String} (hstr : o.ze.str = .static message)
    (hreleases : call.releases) : ¬ KeepsOwnership X o call := by
  have hdrop : Ptr.static message ∈ o.dropStr.heap.released := by
    rw [ErrorObject.dropStr, hstr, if_neg (by simp)]
    simp [Heap.release]
  cases call with
  | set zipErr sysErr =>
    have hset : Ptr.static message ∈ (zipErrorSet zipErr sysErr o).heap.released := hdrop
    exact fun h => Heap.not_sound_of_static hset h.1
  | fini => exact fun h => Heap.not_sound_of_static hdrop h.1
  | _ => exact absurd hreleases id

/-- Any other call leaves a message of the program in the object, and the heap alone. -/
theorem static_run {message : String} (hstr : o.ze.str = .static message) (hinits : ¬ call.inits)
    (hreleases : ¬ call.releases) :
    (∃ message', (call.run X o).ze.str = .static message') ∧ (call.run X o).heap = o.heap := by
  cases call with
  | init => exact absurd trivial hinits
  | initWithCode code => exact absurd trivial hinits
  | set zipErr sysErr => exact absurd trivial hreleases
  | fini => exact absurd trivial hreleases
  | strerror =>
    rw [ErrorCall.run, zipErrorStrerror, if_neg (by simp [hstr])]
    exact ⟨⟨message, hstr⟩, rfl⟩
  | openFromSource src flags =>
    by_cases hfails : (ErrorCall.openFromSource src flags).failsToOpen
    · obtain ⟨message', hmessage, hheap⟩ := failedOpen_run (X := X) hfails o
      exact ⟨⟨message', hmessage⟩, hheap⟩
    · obtain ⟨hsame, hheap⟩ := zipOpenFromSource_opens (X := X) hfails o
      exact ⟨⟨message, hsame.trans hstr⟩, hheap⟩

/-- The ownership is kept until the first call that releases a string. -/
theorem along_static {message : String} (hstr : o.ze.str = .static message) (hsound : o.heap.Sound)
    (hlast : last ≠ .fini)
    (hchain : (last :: calls).IsChain fun last call => call.inits → last = .fini) :
    Along (ErrorCall.run X) (KeepsOwnership X) o calls ↔ ∀ call ∈ calls, ¬ call.releases := by
  induction calls generalizing o last message with
  | nil => exact iff_of_true trivial (fun _ hcall => absurd hcall List.not_mem_nil)
  | cons call calls ih =>
    obtain ⟨hinits, hchain⟩ := List.isChain_cons_cons.mp hchain
    rw [List.forall_mem_cons]
    by_cases hreleases : call.releases
    · exact iff_of_false (fun h => not_keepsOwnership_of_static hstr hreleases h.1) fun h => h.1 hreleases
    · obtain ⟨⟨message', hstr'⟩, hheap⟩ :=
        static_run (X := X) hstr (fun h => hlast (hinits h)) hreleases
      have hfini : call ≠ .fini := fun h => hreleases (h ▸ trivial)
      have hkeeps : KeepsOwnership X o call := ⟨hheap ▸ hsound, fun h => absurd h hfini⟩
      rw [Along, ih hstr' (hheap ▸ hsound) hfini hchain]
      exact and_congr_left fun _ => iff_of_true hkeeps hreleases

/-! ## Any sequence of calls -/

/-- As long as the string is held, the ownership is kept until a string is released after a failed open. -/
theorem along_held (ho : Held o) (hlast : last = .fini → o.ze.str = .null)
    (hchain : (last :: calls).IsChain fun last call => call.inits → last = .fini) :
    Along (ErrorCall.run X) (KeepsOwnership X) o calls ↔
      calls.Pairwise fun call later => call.failsToOpen → ¬ later.releases := by
  induction calls generalizing o last with
  | nil => exact iff_of_true trivial .nil
  | cons call calls ih =>
    obtain ⟨hinits, hchain⟩ := List.isChain_cons_cons.mp hchain
    rw [List.pairwise_cons, Along]
    by_cases hfails : call.failsToOpen
    · obtain ⟨message, hstr, hheap⟩ := failedOpen_run (X := X) hfails o
      have hsound : (call.run X o).heap.Sound := hheap ▸ ho.sound
      have hfini : call ≠ .fini := by
        rintro rfl
        exact hfails
      rw [along_static hstr hsound hfini hchain]
      refine ⟨fun h => ⟨fun later hlater _ => h.2 later hlater, ?_⟩,
        fun h => ⟨⟨hsound, fun hcall => absurd hcall hfini⟩, fun later hlater => h.1 later hlater hfails⟩⟩
      exact List.pairwise_of_forall_mem_list fun _ _ later hlater _ => h.2 later hlater
    · have hnext := held_run (X := X) ho (fun h => hlast (hinits h)) hfails
      have hfini : call = .fini → (call.run X o).ze.str = .null := by
        rintro rfl
        rfl
      rw [ih hnext hfini hchain]
      exact and_congr_left fun _ =>
        iff_of_true (keepsOwnership_of_held hnext) fun _ _ hcall => absurd hcall hfails

theorem not_failsToOpen_of_inits (h : call.inits) : ¬ call.failsToOpen := by
  cases call with
  | openFromSource src flags => exact absurd h id
  | _ => exact id

/-- The strings are released once each, and none is left at the end, exactly if no string is released after
an open failed. -/
theorem stringOwnership_iff (X : Extern) (ze : ZipErrorT) {calls : List ErrorCall} (h : Permitted calls) :
    Along (ErrorCall.run X) (KeepsOwnership X) { ze, heap := .empty } calls ↔
      calls.Pairwise fun call later => call.failsToOpen → ¬ later.releases := by
  cases calls with
  | nil => exact iff_of_true trivial .nil
  | cons first calls =>
    have hinits : first.inits := h.starts first rfl
    have hheld : Held (first.run X { ze, heap := .empty }) := held_of_inits Heap.heldBy_empty hinits
    have hlast : first = .fini → (first.run X { ze, heap := .empty }).ze.str = .null := by
      rintro rfl
      rfl
    rw [Along, along_held hheld hlast h.chain, List.pairwise_cons]
    exact and_congr_left fun _ => iff_of_true (keepsOwnership_of_held hheld) fun _ _ hfails =>
      absurd hfails (not_failsToOpen_of_inits hinits)

/-- A failed open may be the last thing that happens to the string. -/
theorem stringOwnership_sample :
    Along (ErrorCall.run reference) (KeepsOwnership reference)
      { ze := { zipErr := 0, sysErr := 0, str := .null }, heap := .empty }
      [.initWithCode 18, .set 5 0, .fini, .init, .openFromSource none 0] :=
  (stringOwnership_iff reference _ ⟨by simp [ErrorCall.inits], by simp [ErrorCall.inits]⟩).mpr
    (.cons (fun _ _ h => h.elim) <| .cons (fun _ _ h => h.elim) <| .cons (fun _ _ h => h.elim) <|
      .cons (fun _ _ h => h.elim) <| .cons (fun _ h => absurd h List.not_mem_nil) .nil)

/-- The message of a failed open is released as if it had been handed out. -/
theorem message_released :
    Permitted [.init, .openFromSource none 0, .fini] ∧
      ¬ Along (ErrorCall.run reference) (KeepsOwnership reference)
        { ze := { zipErr := 0, sysErr := 0, str := .null }, heap := .empty }
        [.init, .openFromSource none 0, .fini] :=
  ⟨⟨by simp [ErrorCall.inits], by simp [ErrorCall.inits]⟩,
    fun h => absurd h.2.2.1 (not_keepsOwnership_of_static rfl trivial)⟩

end Kzip.Impl
