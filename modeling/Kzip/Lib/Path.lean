import Mathlib.Data.List.Infix

/-!
# Paths

A path is walked part by part from a directory, which is the list of the names from the root down to it. A path
that is not absolute and has no two dots in a row never leaves the directory it starts in (`walk_within`),
whatever the separators are.
-/

namespace Lib.Path

variable {α : Type} [DecidableEq α] (sep : α → Bool) (dot : α)

/-- The parts of a path between its separators. -/
def parts (sep : α → Bool) : List α → List (List α)
  | [] => [[]]
  | c :: cs => if sep c then [] :: parts sep cs else (parts sep cs).modifyHead (c :: ·)

/-- The directory that a part leads to: a dot stays, and two of them lead up. -/
def enter (dir : List (List α)) (part : List α) : List (List α) :=
  if part = [] ∨ part = [dot] then dir
  else if part = [dot, dot] then dir.dropLast
  else dir ++ [part]

/-- The places that are passed on the way, the last of which is where the path leads. An absolute path starts at
the root. -/
def walk (dir : List (List α)) (path : List α) : List (List (List α)) :=
  (parts sep path).scanl (enter dot) (if path.head?.any sep then [] else dir)

variable {sep : α → Bool} {dot : α}

omit [DecidableEq α] in
theorem parts_spec (path : List α) :
    ∃ first rest, parts sep path = first :: rest ∧ first <+: path ∧ ∀ part ∈ rest, part <:+: path := by
  induction path with
  | nil => exact ⟨[], [], rfl, List.prefix_rfl, nofun⟩
  | cons c cs ih =>
    obtain ⟨first, rest, hparts, hfirst, hrest⟩ := ih
    rw [parts]
    split
    · refine ⟨[], parts sep cs, rfl, List.nil_prefix, fun part hpart => ?_⟩
      rw [hparts] at hpart
      rcases List.mem_cons.mp hpart with rfl | hpart
      · exact hfirst.isInfix.trans (List.suffix_cons c cs).isInfix
      · exact (hrest part hpart).trans (List.suffix_cons c cs).isInfix
    · rw [hparts]
      exact ⟨c :: first, rest, rfl, (List.prefix_cons_inj c).mpr hfirst, fun part hpart =>
        (hrest part hpart).trans (List.suffix_cons c cs).isInfix⟩

omit [DecidableEq α] in
theorem infix_of_mem_parts {path part : List α} (h : part ∈ parts sep path) : part <:+: path := by
  obtain ⟨first, rest, hparts, hfirst, hrest⟩ := @parts_spec α sep path
  rw [hparts] at h
  rcases List.mem_cons.mp h with rfl | h
  · exact hfirst.isInfix
  · exact hrest part h

/-- A part that does not lead up leads further down, if anywhere. -/
theorem prefix_enter (dir : List (List α)) {part : List α} (h : part ≠ [dot, dot]) : dir <+: enter dot dir part := by
  rw [enter, if_neg h]
  split
  · exact List.prefix_rfl
  · exact List.prefix_append dir [part]

/-- By induction on the parts: each directory lies below the one before. -/
theorem prefix_scanl {dir : List (List α)} {parts : List (List α)} (h : ∀ part ∈ parts, part ≠ [dot, dot])
    {place : List (List α)} (hplace : place ∈ parts.scanl (enter dot) dir) : dir <+: place := by
  induction parts generalizing dir with
  | nil =>
    obtain rfl := List.mem_singleton.mp hplace
    exact List.prefix_rfl
  | cons part parts ih =>
    rw [List.scanl_cons] at hplace
    rcases List.mem_cons.mp hplace with rfl | hplace
    · exact List.prefix_rfl
    · exact (prefix_enter dir (h part List.mem_cons_self)).trans
        (ih (fun p hp => h p (List.mem_cons_of_mem part hp)) hplace)

theorem walk_within (dir : List (List α)) {path : List α} (hrelative : path.head?.any sep = false)
    (hno : ¬ [dot, dot] <:+: path) {place : List (List α)} (h : place ∈ walk sep dot dir path) : dir <+: place := by
  rw [walk, hrelative, if_neg Bool.false_ne_true] at h
  refine prefix_scanl (fun part hpart hup => hno ?_) h
  rw [← hup]
  exact infix_of_mem_parts hpart

end Lib.Path
