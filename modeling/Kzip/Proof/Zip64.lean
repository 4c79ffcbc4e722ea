import Kzip.Impl.Dirent

/-!
# The ZIP64 values of a record

A value that does not fit its field is written as the sentinel; so is a value that happens to equal
it. `zip64Overrides_some` says when a reader gets the values back from ZIP64 data: exactly when the
data begin with every value shown as the sentinel (`Zip64Values.sentinelData`).
-/

namespace Kzip.Impl

open Lib Lib.LE Lib.Cursor

/-- What a reader takes from the ZIP64 data for these values. -/
def Zip64Values.sentinelData (v : Zip64Values) : Bytes :=
  [if u32Max ≤ v.uncompSize then le64 v.uncompSize else [],
    if u32Max ≤ v.compSize then le64 v.compSize else [],
    if u32Max ≤ v.offset then le64 v.offset else [],
    if 0xFFFF ≤ v.disk then le32 v.disk else []].flatten

/-- The values that overflow their fields. -/
def Zip64Values.overflowData (v : Zip64Values) : Bytes :=
  [if u32Max < v.uncompSize then le64 v.uncompSize else [],
    if u32Max < v.compSize then le64 v.compSize else [],
    if u32Max < v.offset then le64 v.offset else [],
    if 0xFFFF < v.disk then le32 v.disk else []].flatten

theorem overflowData_eq_nil {v : Zip64Values} : v.overflowData = [] ↔
    v.uncompSize ≤ u32Max ∧ v.compSize ≤ u32Max ∧ v.offset ≤ u32Max ∧ v.disk ≤ 0xFFFF := by
  have h64 (x : UInt64) : (if u32Max < x then le64 x else []) = [] ↔ x ≤ u32Max := by
    rw [← UInt64.not_lt]
    split
    · rename_i h
      simp only [h, not_true_eq_false, iff_false]
      exact nofun
    · rename_i h
      simp only [h, not_false_eq_true]
  have h32 (x : UInt32) : (if 0xFFFF < x then le32 x else []) = [] ↔ x ≤ 0xFFFF := by
    rw [← UInt32.not_lt]
    split
    · rename_i h
      simp only [h, not_true_eq_false, iff_false]
      exact nofun
    · rename_i h
      simp only [h, not_false_eq_true]
  simp only [Zip64Values.overflowData, List.flatten_cons, List.flatten_nil, List.append_nil,
    List.append_eq_nil_iff, h64, h32]

/-- If some value overflows, none of the others equals its sentinel. -/
def Zip64Values.Unambiguous (v : Zip64Values) : Prop :=
  v.overflowData ≠ [] →
    v.uncompSize ≠ u32Max ∧ v.compSize ≠ u32Max ∧ v.offset ≠ u32Max ∧ v.disk ≠ 0xFFFF

/-- The fixed fields hold these values, or the sentinels in their place. -/
structure CentralFixed.Shows (f : CentralFixed) (v : Zip64Values) : Prop where
  uncompSize : f.uncompSize32 = sentinel32 v.uncompSize
  compSize : f.compSize32 = sentinel32 v.compSize
  offset : f.offset32 = sentinel32 v.offset
  disk : f.diskNumber = sentinel16 v.disk

theorem sentinel32_eq_magic {v : UInt64} : sentinel32 v = zip64Magic32 ↔ u32Max ≤ v := by
  have h1 : u32Max.toNat = 0xFFFFFFFF := rfl
  have h2 : zip64Magic32.toNat = 0xFFFFFFFF := rfl
  simp only [sentinel32, GT.gt, UInt64.lt_iff_toNat_lt, UInt64.le_iff_toNat_le, h1]
  split
  · simp only [true_iff]; omega
  · rw [← UInt32.toNat_inj, h2, UInt64.toNat_toUInt32]; omega

theorem sentinel32_toUInt64 {v : UInt64} (h : v ≤ u32Max) : (sentinel32 v).toUInt64 = v := by
  have h1 : u32Max.toNat = 0xFFFFFFFF := rfl
  rw [UInt64.le_iff_toNat_le, h1] at h
  rw [sentinel32, if_neg (by rw [gt_iff_lt, UInt64.lt_iff_toNat_lt, h1]; omega), ← UInt64.toNat_inj,
    UInt32.toNat_toUInt64, UInt64.toNat_toUInt32]
  omega

theorem sentinel16_eq_magic {v : UInt32} : sentinel16 v = 0xFFFF ↔ 0xFFFF ≤ v := by
  have h1 : (0xFFFF : UInt32).toNat = 0xFFFF := rfl
  have h2 : (0xFFFF : UInt16).toNat = 0xFFFF := rfl
  simp only [sentinel16, GT.gt, UInt32.lt_iff_toNat_lt, UInt32.le_iff_toNat_le, h1]
  split
  · simp only [true_iff]; omega
  · rw [← UInt16.toNat_inj, h2, UInt32.toNat_toUInt16]; omega

theorem sentinel16_toUInt32 {v : UInt32} (h : v ≤ 0xFFFF) : (sentinel16 v).toUInt32 = v := by
  have h1 : (0xFFFF : UInt32).toNat = 0xFFFF := rfl
  rw [UInt32.le_iff_toNat_le, h1] at h
  rw [sentinel16, if_neg (by rw [gt_iff_lt, UInt32.lt_iff_toNat_lt, h1]; omega), ← UInt32.toNat_inj,
    UInt16.toNat_toUInt32, UInt32.toNat_toUInt16]
  omega

/-! ## One field -/

theorem readIf64_ok {e : Fault} {v : UInt64} {s r : Bytes} :
    readIf (sentinel32 v == zip64Magic32) (u64 e) (sentinel32 v).toUInt64 s = .ok (v, r) ↔
      s = (if u32Max ≤ v then le64 v else []) ++ r := by
  by_cases h : u32Max ≤ v
  · simp only [readIf_ok, beq_iff_eq, sentinel32_eq_magic, h, ↓reduceIte, u64_ok]
  · have hle : v ≤ u32Max := UInt64.le_of_lt (UInt64.not_le.mp h)
    simp only [readIf_ok, beq_iff_eq, sentinel32_eq_magic, h, ↓reduceIte, sentinel32_toUInt64 hle,
      true_and, List.nil_append]

theorem readIf32_ok {e : Fault} {v : UInt32} {s r : Bytes} :
    readIf (sentinel16 v == 0xFFFF) (u32 e) (sentinel16 v).toUInt32 s = .ok (v, r) ↔
      s = (if 0xFFFF ≤ v then le32 v else []) ++ r := by
  by_cases h : 0xFFFF ≤ v
  · simp only [readIf_ok, beq_iff_eq, sentinel16_eq_magic, h, ↓reduceIte, u32_ok]
  · have hle : v ≤ 0xFFFF := UInt32.le_of_lt (UInt32.not_le.mp h)
    simp only [readIf_ok, beq_iff_eq, sentinel16_eq_magic, h, ↓reduceIte, sentinel16_toUInt32 hle,
      true_and, List.nil_append]

/-! ## The four fields -/

theorem readZip64_ok {f : CentralFixed} {v : Zip64Values} (hf : f.Shows v) {s r : Bytes} :
    f.readZip64 s = .ok (v, r) ↔ s = v.sentinelData ++ r := by
  simp only [CentralFixed.readZip64, hf.uncompSize, hf.compSize, hf.offset, hf.disk, Cursor.bind_ok,
    pure_ok, Zip64Values.sentinelData, List.flatten_cons, List.flatten_nil, List.append_nil,
    List.append_assoc]
  constructor
  · rintro ⟨_, _, h₁, _, _, h₂, _, _, h₃, _, _, h₄, rfl, rfl⟩
    rw [readIf64_ok.mp h₁, readIf64_ok.mp h₂, readIf64_ok.mp h₃, readIf32_ok.mp h₄]
  · rintro rfl
    exact ⟨_, _, readIf64_ok.mpr rfl, _, _, readIf64_ok.mpr rfl, _, _, readIf64_ok.mpr rfl, _, _,
      readIf32_ok.mpr rfl, rfl, rfl⟩

/-- A reader gets the values back from ZIP64 data that begin with those shown as sentinels, and
from no other data. -/
theorem zip64Overrides_some {f : CentralFixed} {v : Zip64Values} (hf : f.Shows v) {data : Bytes} :
    f.zip64Overrides (some data) = .ok v ↔ v.sentinelData <+: data := by
  simp only [CentralFixed.zip64Overrides, map_ok]
  constructor
  · rintro ⟨⟨_, r⟩, h, rfl⟩
    exact ⟨r, ((readZip64_ok hf).mp h).symm⟩
  · rintro ⟨r, rfl⟩
    exact ⟨(v, r), (readZip64_ok hf).mpr rfl, rfl⟩

/-- Without ZIP64 data the fields must hold the values. -/
theorem zip64Overrides_none {f : CentralFixed} {v : Zip64Values} (hf : f.Shows v)
    (hu : v.uncompSize ≤ u32Max) (hc : v.compSize ≤ u32Max) (ho : v.offset ≤ u32Max)
    (hd : v.disk ≤ 0xFFFF) : f.zip64Overrides none = .ok v := by
  simp only [CentralFixed.zip64Overrides, hf.uncompSize, hf.compSize, hf.offset, hf.disk,
    sentinel32_toUInt64 hu, sentinel32_toUInt64 hc, sentinel32_toUInt64 ho, sentinel16_toUInt32 hd]

/-! ## The values that overflow -/

theorem sentinel_piece64 (v : UInt64) :
    (v ≠ u32Max → (if u32Max ≤ v then le64 v else []) = if u32Max < v then le64 v else []) ∧
    (if u32Max ≤ v then le64 v else []).length =
      (if u32Max < v then le64 v else []).length + if v = u32Max then 8 else 0 := by
  by_cases heq : v = u32Max
  · subst heq
    simp only [ne_eq, not_true_eq_false, false_implies, UInt64.le_refl, UInt64.lt_irrefl, ↓reduceIte,
      length_le64, List.length_nil, and_self]
  · by_cases hlt : u32Max < v
    · simp only [hlt, UInt64.le_of_lt hlt, heq, ↓reduceIte, implies_true, Nat.add_zero, and_self]
    · have hle : ¬ u32Max ≤ v := fun h => heq (UInt64.le_antisymm (UInt64.not_lt.mp hlt) h)
      simp only [hlt, hle, heq, ↓reduceIte, implies_true, Nat.add_zero, and_self]

theorem sentinel_piece32 (v : UInt32) :
    (v ≠ 0xFFFF → (if 0xFFFF ≤ v then le32 v else []) = if 0xFFFF < v then le32 v else []) ∧
    (if 0xFFFF ≤ v then le32 v else []).length =
      (if 0xFFFF < v then le32 v else []).length + if v = 0xFFFF then 4 else 0 := by
  by_cases heq : v = 0xFFFF
  · subst heq
    simp only [ne_eq, not_true_eq_false, false_implies, UInt32.le_refl, UInt32.lt_irrefl, ↓reduceIte,
      length_le32, List.length_nil, and_self]
  · by_cases hlt : 0xFFFF < v
    · simp only [hlt, UInt32.le_of_lt hlt, heq, ↓reduceIte, implies_true, Nat.add_zero, and_self]
    · have hle : ¬ 0xFFFF ≤ v := fun h => heq (UInt32.le_antisymm (UInt32.not_lt.mp hlt) h)
      simp only [hlt, hle, heq, ↓reduceIte, implies_true, Nat.add_zero, and_self]

theorem length_sentinelData (v : Zip64Values) : v.sentinelData.length = v.overflowData.length +
    ((if v.uncompSize = u32Max then 8 else 0) + (if v.compSize = u32Max then 8 else 0) +
      (if v.offset = u32Max then 8 else 0) + if v.disk = 0xFFFF then 4 else 0) := by
  simp only [Zip64Values.sentinelData, Zip64Values.overflowData, List.flatten_cons,
    List.flatten_nil, List.append_nil, List.length_append, (sentinel_piece64 v.uncompSize).2,
    (sentinel_piece64 v.compSize).2, (sentinel_piece64 v.offset).2, (sentinel_piece32 v.disk).2]
  omega

theorem length_overflowData_le (v : Zip64Values) : v.overflowData.length ≤ 28 := by
  have h (c : Prop) [Decidable c] (x : UInt64) : (if c then le64 x else []).length ≤ 8 := by
    split <;> simp
  have h' (c : Prop) [Decidable c] (x : UInt32) : (if c then le32 x else []).length ≤ 4 := by
    split <;> simp
  simp only [Zip64Values.overflowData, List.flatten_cons, List.flatten_nil, List.append_nil,
    List.length_append]
  have h₁ := h (u32Max < v.uncompSize) v.uncompSize
  have h₂ := h (u32Max < v.compSize) v.compSize
  have h₃ := h (u32Max < v.offset) v.offset
  have h₄ := h' (0xFFFF < v.disk) v.disk
  omega

/-- The values that overflow are those the reader takes, unless another equals its sentinel. -/
theorem sentinelData_eq {v : Zip64Values} (h : v.Unambiguous) (hne : v.overflowData ≠ []) :
    v.sentinelData = v.overflowData := by
  obtain ⟨hu, hc, ho, hd⟩ := h hne
  simp only [Zip64Values.sentinelData, Zip64Values.overflowData, (sentinel_piece64 _).1 hu,
    (sentinel_piece64 _).1 hc, (sentinel_piece64 _).1 ho, (sentinel_piece32 _).1 hd]

/-- The values that overflow are not enough for the reader if another equals its sentinel. -/
theorem ne_sentinel_of_length_le {v : Zip64Values}
    (h : v.sentinelData.length ≤ v.overflowData.length) :
    v.uncompSize ≠ u32Max ∧ v.compSize ≠ u32Max ∧ v.offset ≠ u32Max ∧ v.disk ≠ 0xFFFF := by
  rw [length_sentinelData] at h
  refine ⟨fun he => ?_, fun he => ?_, fun he => ?_, fun he => ?_⟩ <;>
  · rw [if_pos he] at h; omega

/-- What a reader takes from ZIP64 data has the length of the sentinel values. -/
theorem readZip64_length {f : CentralFixed} {v w : Zip64Values} (hf : f.Shows v) {s r : Bytes}
    (h : f.readZip64 s = .ok (w, r)) : s.length = v.sentinelData.length + r.length := by
  have step64 {x : UInt64} {y : UInt64} {e : Fault} {s r : Bytes}
      (h : readIf (sentinel32 x == zip64Magic32) (u64 e) (sentinel32 x).toUInt64 s = .ok (y, r)) :
      s.length = (if u32Max ≤ x then le64 x else []).length + r.length := by
    by_cases hx : u32Max ≤ x
    · simp only [readIf_ok, beq_iff_eq, sentinel32_eq_magic, hx, ↓reduceIte, u64_ok] at h
      rw [h, if_pos hx, List.length_append, length_le64, length_le64]
    · simp only [readIf_ok, beq_iff_eq, sentinel32_eq_magic, hx, ↓reduceIte] at h
      rw [h.2, if_neg hx, List.length_nil, Nat.zero_add]
  have step32 {x : UInt32} {y : UInt32} {e : Fault} {s r : Bytes}
      (h : readIf (sentinel16 x == 0xFFFF) (u32 e) (sentinel16 x).toUInt32 s = .ok (y, r)) :
      s.length = (if 0xFFFF ≤ x then le32 x else []).length + r.length := by
    by_cases hx : 0xFFFF ≤ x
    · simp only [readIf_ok, beq_iff_eq, sentinel16_eq_magic, hx, ↓reduceIte, u32_ok] at h
      rw [h, if_pos hx, List.length_append, length_le32, length_le32]
    · simp only [readIf_ok, beq_iff_eq, sentinel16_eq_magic, hx, ↓reduceIte] at h
      rw [h.2, if_neg hx, List.length_nil, Nat.zero_add]
  simp only [CentralFixed.readZip64, hf.uncompSize, hf.compSize, hf.offset, hf.disk,
    Cursor.bind_ok, pure_ok] at h
  obtain ⟨_, _, h₁, _, _, h₂, _, _, h₃, _, _, h₄, -, rfl⟩ := h
  simp only [Zip64Values.sentinelData, List.flatten_cons, List.flatten_nil, List.append_nil,
    List.length_append, step64 h₁, step64 h₂, step64 h₃, step32 h₄]
  omega

/-- A reader of the values that overflow fails if another equals its sentinel. -/
theorem unambiguous_of_overrides {f : CentralFixed} {v w : Zip64Values} (hf : f.Shows v)
    (h : f.zip64Overrides (some v.overflowData) = .ok w) : v.Unambiguous := by
  intro _
  obtain ⟨⟨_, r⟩, hr, rfl⟩ := map_ok.mp h
  have hlen := readZip64_length hf hr
  exact ne_sentinel_of_length_le (by omega)

end Kzip.Impl
