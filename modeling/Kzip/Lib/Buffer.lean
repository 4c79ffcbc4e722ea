/-!
# Writing into a buffer

`splice` writes into a buffer at a position that may lie past its end; what lies between is filled up.
-/

namespace Lib

variable {α : Type}

/-- The buffer, filled up to a length. -/
def padTo (fill : α) (n : Nat) (buf : List α) : List α := buf ++ List.replicate (n - buf.length) fill

/-- The buffer with `bs` written at `pos`. -/
def splice (fill : α) (buf : List α) (pos : Nat) (bs : List α) : List α :=
  (padTo fill pos buf).take pos ++ bs ++ buf.drop (pos + bs.length)

theorem length_padTo (fill : α) (n : Nat) (buf : List α) :
    (padTo fill n buf).length = max buf.length n := by
  rw [padTo, List.length_append, List.length_replicate]
  omega

theorem padTo_of_le (fill : α) {n : Nat} {buf : List α} (h : n ≤ buf.length) : padTo fill n buf = buf := by
  rw [padTo, Nat.sub_eq_zero_of_le h, List.replicate_zero, List.append_nil]

theorem take_padTo (fill : α) {k n : Nat} (h : k ≤ n) (buf : List α) :
    (padTo fill n buf).take k = (padTo fill k buf).take k := by
  have hsplit : padTo fill n buf = padTo fill k buf ++
      List.replicate (n - buf.length - (k - buf.length)) fill := by
    rw [padTo, padTo, List.append_assoc, List.replicate_append_replicate]
    congr 2
    omega
  rw [hsplit, List.take_append_of_le_length]
  rw [length_padTo]
  exact Nat.le_max_right _ _

theorem drop_padTo (fill : α) (n : Nat) (buf : List α) : (padTo fill n buf).drop n = buf.drop n := by
  rw [padTo, List.drop_append, List.drop_replicate]
  simp

/-- Growing a buffer first and then writing into it. -/
theorem splice_padTo (fill : α) (buf : List α) (pos : Nat) (bs : List α) :
    (padTo fill (pos + bs.length) buf).take pos ++ bs ++
      (padTo fill (pos + bs.length) buf).drop (pos + bs.length) = splice fill buf pos bs := by
  rw [take_padTo fill (Nat.le_add_right _ _), drop_padTo, splice]

theorem length_splice (fill : α) (buf : List α) (pos : Nat) (bs : List α) :
    (splice fill buf pos bs).length = max buf.length (pos + bs.length) := by
  rw [splice, List.length_append, List.length_append, List.length_take, length_padTo, List.length_drop]
  omega

theorem splice_nil (fill : α) {buf : List α} {pos : Nat} (h : pos ≤ buf.length) :
    splice fill buf pos [] = buf := by
  rw [splice, padTo_of_le fill h, List.append_nil, List.length_nil, Nat.add_zero, List.take_append_drop]

/-- What a write within the buffer leaves, up to its end. -/
theorem take_splice (fill : α) {buf : List α} {pos : Nat} (h : pos ≤ buf.length) (bs : List α) :
    (splice fill buf pos bs).take (pos + bs.length) = buf.take pos ++ bs := by
  rw [splice, padTo_of_le fill h]
  refine List.take_left' ?_
  rw [List.length_append, List.length_take_of_le h]

end Lib
