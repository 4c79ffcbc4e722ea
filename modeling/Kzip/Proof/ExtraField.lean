import Kzip.Lib.Loop
import Kzip.Impl.Dirent

/-!
# Extra fields

`rawFields` is the raw form of a list of extra fields whose data fit their length fields. Both loops
that serialize extra fields produce it (`foldlM_appendExtraField_ok`), and the parser reads it back
(`parse_rawFields`). The cursor loop of the source (`parseExtraFieldsRound`) ends, with what the
parser returns (`exists_leaves_parseExtraFields`).
-/

namespace Kzip.Impl

open Lib Lib.LE

/-- Id, length and data of an extra field. -/
def rawField (f : ExtraField) : Bytes := [le16 f.1, le16 (UInt16.ofNat f.2.length), f.2].flatten

def rawFields (fields : List ExtraField) : Bytes := fields.flatMap rawField

/-- The data of every field fit a 16-bit length. -/
def FieldsFit (fields : List ExtraField) : Prop := ∀ f ∈ fields, f.2.length ≤ 0xFFFF

@[simp] theorem rawFields_nil : rawFields [] = [] := rfl

theorem rawFields_append (fs gs : List ExtraField) :
    rawFields (fs ++ gs) = rawFields fs ++ rawFields gs := List.flatMap_append

theorem length_rawField (f : ExtraField) : (rawField f).length = 4 + f.2.length := by
  simp only [rawField, List.flatten_cons, List.flatten_nil, List.append_nil, List.length_append,
    length_le16]
  omega

theorem length_rawFields_ge (fields : List ExtraField) : 4 * fields.length ≤ (rawFields fields).length := by
  induction fields with
  | nil => exact Nat.zero_le _
  | cons f fields ih =>
    rw [rawFields, List.flatMap_cons, List.length_append, length_rawField, List.length_cons, ← rawFields]
    omega

theorem appendExtraField_ok {out r : Bytes} {f : ExtraField} :
    appendExtraField out f = .ok r ↔ f.2.length ≤ 0xFFFF ∧ r = out ++ rawField f := by
  simp only [appendExtraField, bind_ok, tryU16_ok, Except.ok.injEq]
  constructor
  · rintro ⟨len, ⟨hf, rfl⟩, rfl⟩
    exact ⟨hf, rfl⟩
  · rintro ⟨hf, rfl⟩
    exact ⟨_, ⟨hf, rfl⟩, rfl⟩

/-- What the serializing loops append: the raw form of the fields, if they all fit. -/
theorem foldlM_appendExtraField_ok {fields : List ExtraField} {out r : Bytes} :
    fields.foldlM appendExtraField out = .ok r ↔ FieldsFit fields ∧ r = out ++ rawFields fields := by
  induction fields generalizing out with
  | nil => simp [FieldsFit, pure, Except.pure, eq_comm]
  | cons f fields ih =>
    simp only [List.foldlM_cons, bind_ok, appendExtraField_ok, ih]
    constructor
    · rintro ⟨_, ⟨hf, rfl⟩, hfs, rfl⟩
      exact ⟨List.forall_mem_cons.mpr ⟨hf, hfs⟩, by rw [List.append_assoc]; rfl⟩
    · rintro ⟨hfs, rfl⟩
      obtain ⟨hf, hfs⟩ := List.forall_mem_cons.mp hfs
      exact ⟨_, ⟨hf, rfl⟩, hfs, by rw [List.append_assoc]; rfl⟩

theorem serializeExtraFields_ok {fields : List ExtraField} {raw : Bytes} :
    serializeExtraFields fields = .ok raw ↔
      FieldsFit fields ∧ raw = rawFields fields ∧ raw.length ≤ 0xFFFF := by
  simp only [serializeExtraFields, bind_ok, foldlM_appendExtraField_ok, List.nil_append]
  constructor
  · rintro ⟨out, ⟨hf, rfl⟩, h⟩
    obtain ⟨hlen, h⟩ := guard_ok.mp h
    cases h
    exact ⟨hf, rfl, by omega⟩
  · rintro ⟨hf, rfl, hlen⟩
    exact ⟨_, ⟨hf, rfl⟩, guard_ok.mpr ⟨by omega, rfl⟩⟩

/-- The first record of a raw form is read back. -/
theorem parseExtraFieldsLoop_cons {f : ExtraField} (hf : f.2.length ≤ 0xFFFF) (n : Nat)
    (rest : Bytes) : parseExtraFieldsLoop (n + 1) (rawField f ++ rest) = (do
      let out ← parseExtraFieldsLoop n rest
      .ok (f :: out)) := by
  have hid : (rawField f ++ rest).take 2 = le16 f.1 := by
    simp only [rawField, List.flatten_cons, List.append_assoc]
    exact List.take_left' (length_le16 _)
  have hdrop2 : (rawField f ++ rest).drop 2 = le16 (UInt16.ofNat f.2.length) ++ (f.2 ++ rest) := by
    simp only [rawField, List.flatten_cons, List.flatten_nil, List.append_nil, List.append_assoc]
    exact List.drop_left' (length_le16 _)
  have hlen2 : ((rawField f ++ rest).drop 2).take 2 = le16 (UInt16.ofNat f.2.length) := by
    rw [hdrop2]; exact List.take_left' (length_le16 _)
  have hdrop4 : (rawField f ++ rest).drop 4 = f.2 ++ rest := by
    rw [show 4 = 2 + 2 from rfl, ← List.drop_drop, hdrop2]; exact List.drop_left' (length_le16 _)
  have hlen : (UInt16.ofNat f.2.length).toNat = f.2.length := toNat_ofNat_u16 hf
  have h4 : ¬ (rawField f ++ rest).length < 4 := by
    rw [List.length_append, length_rawField]; omega
  rw [parseExtraFieldsLoop, if_neg h4]
  simp only [hid, hlen2, hdrop4, u16_le16, hlen, List.length_append, List.drop_left, List.take_left,
    show ¬ f.2.length + rest.length < f.2.length by omega, ↓reduceIte]

theorem parseExtraFieldsLoop_raw {fields : List ExtraField} (hf : FieldsFit fields) {n : Nat}
    (hn : (rawFields fields).length ≤ n) : parseExtraFieldsLoop n (rawFields fields) = .ok fields := by
  induction fields generalizing n with
  | nil => cases n <;> rfl
  | cons f fields ih =>
    obtain ⟨hf, hfs⟩ := List.forall_mem_cons.mp hf
    have hcons : rawFields (f :: fields) = rawField f ++ rawFields fields := rfl
    rw [hcons, List.length_append, length_rawField] at hn
    obtain ⟨n, rfl⟩ : ∃ k, n = k + 1 := ⟨n - 1, by omega⟩
    rw [hcons, parseExtraFieldsLoop_cons hf, ih hfs (by omega)]
    rfl

/-- Parsing undoes serialization. -/
theorem parse_rawFields {fields : List ExtraField} (hf : FieldsFit fields) :
    parseExtraFields (rawFields fields) = .ok fields :=
  parseExtraFieldsLoop_raw hf (Nat.le_refl _)

/-- What a parsed block of extra fields is: the raw form of the fields, and a tail too short for
another one. -/
theorem parseExtraFieldsLoop_ok {n : Nat} {raw : Bytes} {fields : List ExtraField}
    (hn : raw.length ≤ n) (h : parseExtraFieldsLoop n raw = .ok fields) :
    FieldsFit fields ∧ ∃ tail, raw = rawFields fields ++ tail ∧ tail.length < 4 := by
  induction n generalizing raw fields with
  | zero =>
    cases h
    exact ⟨nofun, raw, rfl, by omega⟩
  | succ n ih =>
    rw [parseExtraFieldsLoop] at h
    split at h
    · rename_i hshort
      cases h
      exact ⟨nofun, raw, rfl, hshort⟩
    · dsimp only at h
      obtain ⟨hlen, h⟩ := guard_ok.mp h
      obtain ⟨out, hout, h⟩ := bind_ok.mp h
      cases h
      rename_i h4
      have hdata : (raw.drop 4).length = raw.length - 4 := List.length_drop
      obtain ⟨hfit, tail, hraw, htail⟩ := ih (by rw [List.length_drop, hdata]; omega) hout
      have hid : le16 (u16 (raw.take 2)) = raw.take 2 := le16_u16 (List.length_take_of_le (by omega))
      have hsize : le16 (u16 ((raw.drop 2).take 2)) = (raw.drop 2).take 2 :=
        le16_u16 (List.length_take_of_le (by rw [List.length_drop]; omega))
      have hfield : ((raw.drop 4).take (u16 ((raw.drop 2).take 2)).toNat).length =
          (u16 ((raw.drop 2).take 2)).toNat := List.length_take_of_le (by omega)
      have hmax := (u16 ((raw.drop 2).take 2)).toNat_lt
      refine ⟨List.forall_mem_cons.mpr ⟨by rw [hfield]; omega, hfit⟩, tail, ?_, htail⟩
      calc raw = raw.take 2 ++ ((raw.drop 2).take 2 ++ raw.drop 4) := by
            rw [show raw.drop 4 = (raw.drop 2).drop 2 by rw [List.drop_drop], List.take_append_drop,
              List.take_append_drop]
        _ = rawFields ((u16 (raw.take 2), (raw.drop 4).take (u16 ((raw.drop 2).take 2)).toNat) :: out) ++
            tail := by
          rw [rawFields, List.flatMap_cons, ← rawFields, List.append_assoc, ← hraw, rawField, hfield,
            UInt16.ofNat_toNat, hid, hsize]
          simp only [List.flatten_cons, List.flatten_nil, List.append_nil, List.append_assoc,
            List.take_append_drop]

theorem parseExtraFields_ok {raw : Bytes} {fields : List ExtraField}
    (h : parseExtraFields raw = .ok fields) :
    FieldsFit fields ∧ ∃ tail, raw = rawFields fields ++ tail ∧ tail.length < 4 :=
  parseExtraFieldsLoop_ok (Nat.le_refl _) h

/-! ## The loop over the cursor -/

/-- The rounds that the parser is allowed do not matter once they suffice. -/
theorem parseExtraFieldsLoop_congr {n m : Nat} {raw : Bytes} (hn : raw.length ≤ n)
    (hm : raw.length ≤ m) : parseExtraFieldsLoop n raw = parseExtraFieldsLoop m raw := by
  induction n generalizing m raw with
  | zero => cases m <;> simp [parseExtraFieldsLoop, List.length_eq_zero_iff.mp (Nat.le_zero.mp hn)]
  | succ n ih =>
    cases m with
    | zero => simp [parseExtraFieldsLoop, List.length_eq_zero_iff.mp (Nat.le_zero.mp hm)]
    | succ m =>
      have hrest (len : Nat) : parseExtraFieldsLoop n ((raw.drop 4).drop len) =
          parseExtraFieldsLoop m ((raw.drop 4).drop len) :=
        ih (by simp only [List.length_drop]; omega) (by simp only [List.length_drop]; omega)
      simp only [parseExtraFieldsLoop, hrest]

/-- The parser, by the first record. -/
theorem parseExtraFields_eq (raw : Bytes) : parseExtraFields raw =
    if raw.length < 4 then .ok []
    else if (raw.drop 4).length < (u16 ((raw.drop 2).take 2)).toNat then .error (.err .incons)
    else (parseExtraFields ((raw.drop 4).drop (u16 ((raw.drop 2).take 2)).toNat)).map
      (List.cons (u16 (raw.take 2), (raw.drop 4).take (u16 ((raw.drop 2).take 2)).toNat)) := by
  rw [parseExtraFields, parseExtraFieldsLoop_congr (Nat.le_refl _) (Nat.le_succ _),
    parseExtraFieldsLoop, parseExtraFields, parseExtraFieldsLoop_congr (Nat.le_refl _)
    (show _ ≤ raw.length by simp only [List.length_drop]; omega)]
  rfl

/-- The fields read so far and what the parser makes of the rest are the result. -/
def ReadSoFar (raw : Bytes) (c : Nat × List ExtraField) : Prop :=
  parseExtraFields raw = (parseExtraFields (raw.drop c.1)).map (c.2 ++ ·)

theorem exists_leaves_parseExtraFields (raw : Bytes) : ∃ n, 4 * n ≤ raw.length ∧
    Leaves (parseExtraFieldsRound raw) (0, []) n (parseExtraFields raw) := by
  have hround (c c' : Nat × List ExtraField) (h : ReadSoFar raw c)
      (hc : parseExtraFieldsRound raw c = .inl c') :
      ReadSoFar raw c' ∧ (raw.length - c'.1) / 4 < (raw.length - c.1) / 4 := by
    rw [parseExtraFieldsRound] at hc
    split at hc
    · cases hc
    · rename_i h4
      dsimp only at hc
      split at hc
      · cases hc
      · rename_i hlen
        cases hc
        refine ⟨?_, by dsimp only; omega⟩
        rw [ReadSoFar, h, parseExtraFields_eq (raw.drop c.1)]
        simp only [List.drop_drop, List.length_drop]
        rw [if_neg (by omega), if_neg (by omega)]
        cases parseExtraFields (raw.drop (c.1 + 4 + (u16 ((raw.drop (c.1 + 2)).take 2)).toNat)) with
        | error e => rfl
        | ok out => simp [Except.map]
  have hleave (c : Nat × List ExtraField) (w : Result (List ExtraField)) (h : ReadSoFar raw c)
      (hc : parseExtraFieldsRound raw c = .inr w) : w = parseExtraFields raw := by
    rw [ReadSoFar, parseExtraFields_eq (raw.drop c.1)] at h
    simp only [List.drop_drop, List.length_drop] at h
    rw [parseExtraFieldsRound] at hc
    split at hc
    · cases hc
      rw [h, if_pos (by omega)]
      simp [Except.map]
    · dsimp only at hc
      split at hc
      · cases hc
        rw [h, if_neg (by omega), if_pos (by omega)]
        rfl
      · cases hc
  have hstart : ReadSoFar raw (0, []) := by
    rw [ReadSoFar, List.drop_zero]
    cases parseExtraFields raw <;> rfl
  obtain ⟨n, w, hn, hl, rfl⟩ := exists_leaves hround hleave hstart
  exact ⟨n, by simp only [Nat.sub_zero] at hn; omega, hl⟩

/-- The codec of extra fields: what is serialized is read back; what is accepted is serialized to what
was read, without the tail; and the parser's loop ends. -/
theorem extraFields_codec :
    (∀ fields raw, serializeExtraFields fields = .ok raw → parseExtraFields raw = .ok fields) ∧
    (∀ raw fields, raw.length ≤ 0xFFFF → parseExtraFields raw = .ok fields →
      ∃ raw' tail, serializeExtraFields fields = .ok raw' ∧ raw = raw' ++ tail ∧ tail.length < 4) ∧
    ∀ raw, ∃ n, 4 * n ≤ raw.length ∧
      Leaves (parseExtraFieldsRound raw) (0, []) n (parseExtraFields raw) := by
  refine ⟨fun fields raw h => ?_, fun raw fields hraw h => ?_, exists_leaves_parseExtraFields⟩
  · obtain ⟨hfit, rfl, -⟩ := serializeExtraFields_ok.mp h
    exact parse_rawFields hfit
  · obtain ⟨hfit, tail, rfl, htail⟩ := parseExtraFields_ok h
    rw [List.length_append] at hraw
    exact ⟨_, tail, serializeExtraFields_ok.mpr ⟨hfit, rfl, by omega⟩, rfl, htail⟩

end Kzip.Impl
