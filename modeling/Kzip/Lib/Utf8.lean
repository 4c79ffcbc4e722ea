import Mathlib.Data.List.Basic

/-!
# UTF-8 strings as character lists

A string is the list of its Unicode scalar values; `asBytes` is its UTF-8 encoding. `fromUtf8Lossy`
decodes any byte list and puts U+FFFD in place of each maximal ill-formed subpart, `fromUtf8`
accepts well-formed bytes only. Lossy decoding undoes `asBytes` (`fromUtf8Lossy_asBytes`), and bytes
are well formed if it does not change them (`fromUtf8_isSome`).
-/

namespace Lib.Utf8

/-- A string, as its Unicode scalar values. -/
abbrev Str := List Char

def asBytes (s : Str) : List UInt8 := s.flatMap String.utf8EncodeChar

/-- The character a byte list starts with, if it starts with a well-formed one. -/
def decodeFirst (bs : List UInt8) : Option Char := (bs.take 4).toByteArray.utf8DecodeChar? 0

/-- Whether `b` can be the second byte after the lead byte `a` of a character of three or four
bytes. -/
def secondOk (a b : UInt8) : Bool :=
  if a = 0xE0 then 0xA0 ≤ b && b ≤ 0xBF
  else if a = 0xED then 0x80 ≤ b && b ≤ 0x9F
  else if a = 0xF0 then 0x90 ≤ b && b ≤ 0xBF
  else if a = 0xF4 then 0x80 ≤ b && b ≤ 0x8F
  else 0xE1 ≤ a && a ≤ 0xF3 && 0x80 ≤ b && b ≤ 0xBF

/-- The length of the maximal ill-formed subpart a byte list starts with, when it does not start
with a well-formed character. -/
def invalidLen : List UInt8 → Nat
  | a :: b :: rest =>
    if secondOk a b then
      match rest with
      | c :: _ => if 0xF0 ≤ a && 0x80 ≤ c && c ≤ 0xBF then 3 else 2
      | [] => 2
    else 1
  | _ => 1

def lossyAux : Nat → List UInt8 → Str
  | 0, _ => []
  | _ + 1, [] => []
  | n + 1, b :: bs =>
    match decodeFirst (b :: bs) with
    | some c => c :: lossyAux n ((b :: bs).drop c.utf8Size)
    | none => '\uFFFD' :: lossyAux n ((b :: bs).drop (invalidLen (b :: bs)))

/-- Decodes bytes, with U+FFFD in place of each maximal ill-formed subpart. -/
def fromUtf8Lossy (bs : List UInt8) : Str := lossyAux bs.length bs

/-- Decodes well-formed bytes: the ones the lossy decoding does not change. -/
def fromUtf8 (bs : List UInt8) : Option Str :=
  if asBytes (fromUtf8Lossy bs) = bs then some (fromUtf8Lossy bs) else none

theorem asBytes_cons (c : Char) (s : Str) : asBytes (c :: s) = String.utf8EncodeChar c ++ asBytes s :=
  List.flatMap_cons

theorem asBytes_ne_nil {s : Str} (h : s ≠ []) : asBytes s ≠ [] := by
  cases s with
  | nil => exact absurd rfl h
  | cons c s =>
    have hc := c.utf8Size_pos
    rw [asBytes_cons, ← List.length_pos_iff, List.length_append, String.length_utf8EncodeChar]
    omega

theorem decodeFirst_encode (c : Char) (rest : List UInt8) :
    decodeFirst (String.utf8EncodeChar c ++ rest) = some c := by
  have hl : (String.utf8EncodeChar c).length ≤ 4 := by
    rw [String.length_utf8EncodeChar]; exact c.utf8Size_le_four
  rw [decodeFirst, List.take_append, List.take_of_length_le hl, List.toByteArray_append]
  exact ByteArray.utf8DecodeChar?_utf8EncodeChar_append

theorem lossyAux_asBytes (s : Str) : ∀ n, (asBytes s).length ≤ n → lossyAux n (asBytes s) = s := by
  induction s with
  | nil => intro n _; cases n <;> rfl
  | cons c s ih =>
    intro n hn
    rw [asBytes_cons] at hn ⊢
    have hc := String.length_utf8EncodeChar c
    have hp := c.utf8Size_pos
    have hf := decodeFirst_encode c (asBytes s)
    have hd : (String.utf8EncodeChar c ++ asBytes s).drop c.utf8Size = asBytes s :=
      List.drop_left' hc
    rw [List.length_append, hc] at hn
    obtain ⟨n, rfl⟩ : ∃ k, n = k + 1 := ⟨n - 1, by omega⟩
    cases he : String.utf8EncodeChar c ++ asBytes s with
    | nil => exact absurd (congrArg List.length he) (by rw [List.length_append, hc, List.length_nil]; omega)
    | cons b bs =>
      rw [he] at hf hd
      simp only [lossyAux, hf, hd, ih n (by omega)]

/-- Lossy decoding undoes the encoding. -/
@[simp] theorem fromUtf8Lossy_asBytes (s : Str) : fromUtf8Lossy (asBytes s) = s :=
  lossyAux_asBytes s _ (Nat.le_refl _)

/-- Bytes are accepted if the lossy decoding does not change them. -/
theorem fromUtf8_isSome {bs : List UInt8} : (fromUtf8 bs).isSome ↔ asBytes (fromUtf8Lossy bs) = bs := by
  rw [fromUtf8]
  split
  · rename_i h
    exact ⟨fun _ => h, fun _ => rfl⟩
  · rename_i h
    exact ⟨fun hs => absurd hs Bool.false_ne_true, fun hb => absurd hb h⟩

theorem length_asBytes_lossyAux (n : Nat) (bs : List UInt8) :
    (asBytes (lossyAux n bs)).length ≤ 4 * n := by
  induction n generalizing bs with
  | zero => exact Nat.le_refl 0
  | succ n ih =>
    have hcons (c : Char) (rest : List UInt8) :
        (asBytes (c :: lossyAux n rest)).length ≤ 4 * (n + 1) := by
      have hc := c.utf8Size_le_four
      have hrest := ih rest
      rw [asBytes_cons, List.length_append, String.length_utf8EncodeChar]
      omega
    cases bs with
    | nil => exact Nat.zero_le _
    | cons b bs =>
      rw [lossyAux]
      split
      · exact hcons _ _
      · exact hcons _ _

/-- Each character of the result stands for at least one byte. -/
theorem length_asBytes_fromUtf8Lossy (bs : List UInt8) :
    (asBytes (fromUtf8Lossy bs)).length ≤ 4 * bs.length := length_asBytes_lossyAux _ _

example : fromUtf8Lossy [0x61, 0xE2, 0x82, 0xFF, 0x62] = ['a', '\uFFFD', '\uFFFD', 'b'] := by decide

end Lib.Utf8
