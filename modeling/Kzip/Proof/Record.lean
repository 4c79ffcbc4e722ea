import Kzip.Proof.Dirent
import Kzip.Proof.ExtraField
import Kzip.Proof.Zip64

/-!
# Serializing an entry and parsing it again

`toCentralRecord_ok` gives the bytes of the record of an entry. Parsing them
(`isRecord_toCentralRecord`) gives the entry back, with its ZIP64 field regenerated
(`Dirent.reread`), exactly when its name passes the guard and its ZIP64 field holds what the reader
looks for in it (`Dirent.Readable`).
-/

namespace Kzip.Impl

open Lib Lib.LE Lib.Utf8

/-! ## The ZIP64 extra field -/

def Dirent.zip64Values (d : Dirent) : Zip64Values :=
  { uncompSize := d.uncompSize, compSize := d.compSize, offset := d.offset, disk := d.diskNumber }

/-- The extra fields of the serialized entry. -/
def Dirent.writtenFields (d : Dirent) : List ExtraField :=
  if d.needsZip64 then
    (d.extraFields.filter fun f => f.1 != extraFieldZip64) ++
      [(extraFieldZip64, d.zip64Values.overflowData)]
  else d.extraFields

/-- The ZIP64 field that is written, if one is, begins with the values the reader takes from it. -/
def Dirent.Zip64Stable (d : Dirent) : Prop :=
  ∀ data, zip64Data d.writtenFields = some data → d.zip64Values.sentinelData <+: data

/-- What parsing the record of an entry gives. -/
def Dirent.reread (d : Dirent) : Dirent :=
  { d with extraFields := d.writtenFields, dataOffset := none }

theorem needsZip64_iff {d : Dirent} : d.needsZip64 = true ↔
    ((u32Max < d.compSize ∨ u32Max < d.uncompSize) ∨ u32Max < d.offset) ∨ 0xFFFF < d.diskNumber := by
  simp only [Dirent.needsZip64, GT.gt, Bool.or_eq_true, decide_eq_true_eq]

theorem not_needsZip64 {d : Dirent} (h : d.needsZip64 = false) :
    d.uncompSize ≤ u32Max ∧ d.compSize ≤ u32Max ∧ d.offset ≤ u32Max ∧ d.diskNumber ≤ 0xFFFF := by
  have h' := mt needsZip64_iff.mpr (by rw [h]; exact Bool.false_ne_true)
  simp only [not_or, UInt64.not_lt, UInt32.not_lt] at h'
  exact ⟨h'.1.1.2, h'.1.1.1, h'.1.2, h'.2⟩

theorem buildZip64Extra_of_needs {d : Dirent} (h : d.needsZip64 = true) :
    buildZip64Extra d.compSize d.uncompSize d.offset d.diskNumber =
      some (rawField (extraFieldZip64, d.zip64Values.overflowData)) := by
  have hn : (decide (d.uncompSize > u32Max) || decide (d.compSize > u32Max) ||
      decide (d.offset > u32Max) || decide (d.diskNumber > 0xFFFF)) = true := by
    rw [Bool.or_comm (decide (d.uncompSize > u32Max))]
    exact h
  simp only [buildZip64Extra, hn, Bool.not_true, Bool.false_eq_true, ↓reduceIte, decide_eq_true_eq]
  rfl

theorem find?_filter_append {p q : ExtraField → Bool} {fields rest : List ExtraField}
    (h : ∀ f, q f = true → p f = true) (hr : ∀ f ∈ rest, q f = false) :
    (fields.filter p ++ rest).find? q = fields.find? q := by
  have hnone : rest.find? q = none := List.find?_eq_none.mpr fun f hf => by simp [hr f hf]
  rw [List.find?_append, hnone, Option.or_none, List.find?_filter]
  congr 1
  funext f
  cases hq : q f with
  | false => simp
  | true => simp [h f hq]

/-- Regenerating the ZIP64 field leaves the AES field alone. -/
theorem parseAesExtra_writtenFields (d : Dirent) :
    parseAesExtra d.writtenFields = parseAesExtra d.extraFields := by
  unfold Dirent.writtenFields
  split
  · have hne : efWinzipAes ≠ extraFieldZip64 := by decide
    simp only [parseAesExtra]
    rw [find?_filter_append (fun f hf => by simpa [beq_iff_eq.mp hf] using hne) (fun f hf => by
      rw [List.mem_singleton.mp hf]; rfl)]
  · rfl

theorem zip64Data_writtenFields {d : Dirent} (h : d.needsZip64 = true) :
    zip64Data d.writtenFields = some d.zip64Values.overflowData := by
  have hnone : (d.extraFields.filter fun f => f.1 != extraFieldZip64).find?
      (fun f => f.1 == extraFieldZip64) = none := by
    rw [List.find?_eq_none]
    intro f hf
    simpa using (List.mem_filter.mp hf).2
  simp only [zip64Data, Dirent.writtenFields, h, ↓reduceIte, List.find?_append, hnone,
    List.find?_singleton, beq_self_eq_true, Option.none_or, Option.map_some]

/-! ## Compression and encryption method -/

/-- Method, encryption method and CRC flag were found by `resolveMethod`. -/
def Dirent.Resolved (d : Dirent) : Prop :=
  ∃ raw, resolveMethod raw d.bitflags d.extraFields = (d.compMethod, d.encryptionMethod, d.crcValid)

theorem parseAesExtra_isAes {fields : List ExtraField} {enc : UInt16}
    {r : CompressionMethod × UInt16} (h : parseAesExtra fields = some (enc, r)) :
    isAesMethod enc = true := by
  simp only [parseAesExtra] at h
  split at h
  · cases h
  · split_ifs at h
    rename_i hne
    cases h
    revert hne
    simp only [aesMethodFromStrength]
    split_ifs <;> decide

/-- Resolving the method again, from the record of a resolved entry, changes nothing. -/
theorem Dirent.Resolved.again {d : Dirent} (h : d.Resolved) (l₁ l₂ l₃ : UInt16) :
    resolveMethod (d.fixed l₁ l₂ l₃).compMethodRaw d.bitflags d.writtenFields =
      (d.compMethod, d.encryptionMethod, d.crcValid) := by
  obtain ⟨raw, h⟩ := h
  simp only [resolveMethod, Dirent.fixed, parseAesExtra_writtenFields] at h ⊢
  by_cases h99 : raw = zipCmWinzipAes
  · rw [if_pos h99] at h
    cases ha : parseAesExtra d.extraFields with
    | none =>
      rw [ha] at h
      obtain ⟨hm, he, hc⟩ : _ = d.compMethod ∧ _ = d.encryptionMethod ∧ _ = d.crcValid := by
        simpa only [Prod.mk.injEq] using h
      rw [← hm, ← he, ← hc]
      rfl
    | some r =>
      obtain ⟨enc, actual, version⟩ := r
      rw [ha] at h
      obtain ⟨hm, he, hc⟩ : _ = d.compMethod ∧ _ = d.encryptionMethod ∧ _ = d.crcValid := by
        simpa only [Prod.mk.injEq] using h
      rw [← he, parseAesExtra_isAes ha, if_pos rfl, if_pos rfl, ← hm, ← hc]
  · rw [if_neg h99] at h
    obtain ⟨hm, he, hc⟩ : _ = d.compMethod ∧ _ = d.encryptionMethod ∧ _ = d.crcValid := by
      simpa only [Prod.mk.injEq] using h
    have hnot : isAesMethod d.encryptionMethod = false := by
      rw [← he]; split_ifs <;> decide
    rw [hnot, if_neg Bool.false_ne_true, ← hm, methodToU16_fromU16, if_neg h99, he, hc]

theorem ofCentral_resolved {f : CentralFixed} {filename comment : Str} {extra : Bytes} {d : Dirent}
    (h : Dirent.ofCentral f filename extra comment = .ok d) : d.Resolved := by
  obtain ⟨fields, v, -, -, -, rfl⟩ := ofCentral_ok.mp h
  exact ⟨f.compMethodRaw, rfl⟩

/-! ## The record -/

theorem fixed_shows (d : Dirent) (l₁ l₂ l₃ : UInt16) : (d.fixed l₁ l₂ l₃).Shows d.zip64Values :=
  ⟨rfl, rfl, rfl, rfl⟩

theorem serializedExtra_ok {d : Dirent} {extra : Bytes} (h : d.serializedExtra = .ok extra) :
    FieldsFit d.writtenFields ∧ extra = rawFields d.writtenFields := by
  unfold Dirent.serializedExtra at h
  unfold Dirent.writtenFields
  split
  · rename_i hz
    rw [if_pos hz, buildZip64Extra_of_needs hz] at h
    obtain ⟨raw, hraw, h⟩ := bind_ok.mp h
    obtain ⟨hfit, rfl, -⟩ := serializeExtraFields_ok.mp hraw
    cases h
    refine ⟨fun f hf => ?_, by rw [rawFields_append]; simp only [rawFields, List.flatMap_singleton, Option.getD_some]⟩
    rcases List.mem_append.mp hf with hf | hf
    · exact hfit f hf
    · rw [List.mem_singleton.mp hf]
      exact Nat.le_trans (length_overflowData_le _) (by omega)
  · rename_i hz
    rw [if_neg hz] at h
    obtain ⟨hfit, hraw, -⟩ := serializeExtraFields_ok.mp h
    exact ⟨hfit, hraw⟩

/-- The record of an entry: its fixed part, its name, the written extra fields and its comment. -/
theorem toCentralRecord_ok {d : Dirent} {r : Bytes} (h : d.toCentralRecord = .ok r) :
    ∃ l₁ l₂ l₃, FieldsFit d.writtenFields ∧
      (d.fixed l₁ l₂ l₃).Fits (asBytes d.filename) (rawFields d.writtenFields) (asBytes d.comment) ∧
      r = (d.fixed l₁ l₂ l₃).record (asBytes d.filename) (rawFields d.writtenFields)
        (asBytes d.comment) := by
  simp only [Dirent.toCentralRecord] at h
  obtain ⟨extra, hextra, h⟩ := bind_ok.mp h
  obtain ⟨l₂, hl₂, h⟩ := bind_ok.mp h
  obtain ⟨l₁, hl₁, h⟩ := bind_ok.mp h
  obtain ⟨l₃, hl₃, h⟩ := bind_ok.mp h
  obtain ⟨hfit, rfl⟩ := serializedExtra_ok hextra
  cases h
  exact ⟨l₁, l₂, l₃, hfit, ⟨(tryU16_toNat hl₁).symm, (tryU16_toNat hl₂).symm,
    (tryU16_toNat hl₃).symm⟩, rfl⟩

/-- The values are read back from the record exactly when its ZIP64 field is stable. -/
theorem zip64Overrides_written {d : Dirent} (l₁ l₂ l₃ : UInt16) :
    (d.fixed l₁ l₂ l₃).zip64Overrides (zip64Data d.writtenFields) = .ok d.zip64Values ↔
      d.Zip64Stable := by
  unfold Dirent.Zip64Stable
  cases hd : zip64Data d.writtenFields with
  | none =>
    have hz : d.needsZip64 = false := by
      by_contra hz
      rw [zip64Data_writtenFields (by simpa using hz)] at hd
      cases hd
    obtain ⟨hu, hc, ho, hk⟩ := not_needsZip64 hz
    simp only [zip64Overrides_none (fixed_shows d l₁ l₂ l₃) hu hc ho hk, reduceCtorEq, false_implies,
      implies_true]
  | some data =>
    rw [zip64Overrides_some (fixed_shows d l₁ l₂ l₃)]
    simp only [Option.some.injEq, forall_eq']

/-- The reader accepts the record of the entry: its name passes the guard, and its ZIP64 field is
stable. -/
structure Dirent.Readable (d : Dirent) : Prop where
  name : pathTraversal d.filename = false
  zip64 : d.Zip64Stable

/-- What parsing the record of an entry gives: the entry itself, with its ZIP64 field regenerated, if
the entry is readable, and else an entry with other values or none. -/
theorem isRecord_toCentralRecord {d : Dirent} {r : Bytes} (h : d.toCentralRecord = .ok r)
    (hd : d.Resolved) : ∃ o, IsRecord r o ∧ (d.Readable → o = .ok d.reread) ∧
      ∀ d', o = .ok d' → d'.zip64Values = d.zip64Values → d.Readable := by
  obtain ⟨l₁, l₂, l₃, hfit, hlen, rfl⟩ := toCentralRecord_ok h
  have hrec := isRecord_record hlen
  rw [fromUtf8Lossy_asBytes, fromUtf8Lossy_asBytes] at hrec
  have heq : Dirent.ofCentral (d.fixed l₁ l₂ l₃) d.filename (rawFields d.writtenFields) d.comment = (do
      let v ← (d.fixed l₁ l₂ l₃).zip64Overrides (zip64Data d.writtenFields)
      if pathTraversal d.filename then .error (.err .incons)
      else .ok { d.reread with uncompSize := v.uncompSize, compSize := v.compSize,
                               offset := v.offset, diskNumber := v.disk }) := by
    simp only [Dirent.ofCentral, parse_rawFields hfit, bind, Except.bind]
    cases (d.fixed l₁ l₂ l₃).zip64Overrides (zip64Data d.writtenFields) with
    | error e => rfl
    | ok v =>
      simp only [show (d.fixed l₁ l₂ l₃).bitflags = d.bitflags from rfl, hd.again l₁ l₂ l₃]
      split <;> rfl
  refine ⟨_, hrec, fun hr => ?_, fun d' hd' hv => ?_⟩
  · rw [heq, (zip64Overrides_written l₁ l₂ l₃).mpr hr.zip64]
    simp only [hr.name, bind, Except.bind, Bool.false_eq_true, ↓reduceIte]
    rfl
  · rw [heq] at hd'
    obtain ⟨v, hz, hd'⟩ := bind_ok.mp hd'
    obtain ⟨hname, hd'⟩ := guard_ok.mp hd'
    cases hd'
    refine ⟨by simpa using hname, (zip64Overrides_written l₁ l₂ l₃).mp ?_⟩
    rw [hz, ← hv]
    rfl

end Kzip.Impl
