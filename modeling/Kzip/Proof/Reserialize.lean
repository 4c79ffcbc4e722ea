import Kzip.Proof.Archive
import Kzip.Proof.Directory

/-!
# Parsed entries serialized again

Two round trips of `Dirent.parseCentral` and `Dirent.toCentralRecord`. An entry that was parsed comes
back from its new record exactly when the ZIP64 data that are written agree with the sentinels
(`reparse_iff`). A record without sentinels comes back from its entry exactly when the parser dropped
nothing of it (`reserialize_iff`).
-/

namespace Kzip.Impl

open Lib Lib.LE Lib.Utf8 Kzip.Spec

/-! ## From an entry to its record and back -/

/-- The ZIP64 data agree with the sentinels: if a value overflows, no other value equals its sentinel,
and if none does, the values that equal theirs begin the ZIP64 field, if there is one. -/
def Dirent.Zip64Consistent (d : Dirent) : Prop :=
  if d.needsZip64 then
    d.uncompSize ≠ u32Max ∧ d.compSize ≠ u32Max ∧ d.offset ≠ u32Max ∧ d.diskNumber ≠ 0xFFFF
  else ∀ data, zip64Data d.extraFields = some data → d.zip64Values.sentinelData <+: data

theorem overflowData_ne_nil {d : Dirent} (h : d.needsZip64 = true) :
    d.zip64Values.overflowData ≠ [] := by
  intro hnil
  obtain ⟨hu, hc, ho, hk⟩ := overflowData_eq_nil.mp hnil
  rcases needsZip64_iff.mp h with ((h | h) | h) | h
  · exact absurd h (UInt64.not_lt.mpr hc)
  · exact absurd h (UInt64.not_lt.mpr hu)
  · exact absurd h (UInt64.not_lt.mpr ho)
  · exact absurd h (UInt32.not_lt.mpr hk)

theorem zip64Stable_iff {d : Dirent} : d.Zip64Stable ↔ d.Zip64Consistent := by
  unfold Dirent.Zip64Stable Dirent.Zip64Consistent
  split
  · rename_i hz
    rw [zip64Data_writtenFields hz]
    constructor
    · intro h
      exact ne_sentinel_of_length_le (h _ rfl).length_le
    · intro h data hdata
      rw [← Option.some.inj hdata]
      exact sentinelData_eq (fun _ => h) (overflowData_ne_nil hz) ▸ List.prefix_rfl
  · rename_i hz
    rw [Dirent.writtenFields, if_neg hz]

/-- An entry that was parsed comes back from its record exactly when the ZIP64 data agree with the
sentinels. -/
theorem reparse_iff {bs rest r : Bytes} {d : Dirent} (h : Dirent.parseCentral bs = .ok (d, rest))
    (hr : d.toCentralRecord = .ok r) :
    (∃ d', Dirent.parseCentral r = .ok (d', []) ∧ SameEntry d d') ↔ d.Zip64Consistent := by
  obtain ⟨f, filename, extra, comment, -, -, hd⟩ := parseCentral_ok h
  obtain ⟨fields, v, -, -, hname, hentry⟩ := ofCentral_ok.mp hd
  have hname : pathTraversal d.filename = false := hentry ▸ hname
  obtain ⟨o, hrec, hread, hback⟩ := isRecord_toCentralRecord hr (parseCentral_parsed h).resolved
  have hparse := hrec.parse []
  rw [List.append_nil] at hparse
  rw [hparse, ← zip64Stable_iff]
  constructor
  · rintro ⟨d', hd', hsame⟩
    obtain ⟨d'', ho, he⟩ := map_ok.mp hd'
    cases he
    exact (hback d' ho (zip64Values_of_sameEntry hsame)).zip64
  · intro hz
    rw [hread ⟨hname, hz⟩]
    exact ⟨d.reread, rfl, sameEntry_reread (parseCentral_parsed h).not_cached⟩

/-- The fixed part of a stored entry with a name of one byte, with these sizes. -/
def storedFixed (compSize32 uncompSize32 : UInt32) (extraLen : UInt16) : CentralFixed :=
  { versionMadeby := 0x031E, versionNeeded := 45, bitflags := 0, compMethodRaw := 0, lastModTime := 0,
    lastModDate := 0x21, crc := 0, compSize32, uncompSize32, filenameLen := 1, extraLen,
    commentLen := 0, diskNumber := 0, intAttrib := 0, extAttrib := 0, offset32 := 0 }

/-- The record of an entry named `a`. -/
def storedRecord : Bytes := (storedFixed 0 0 0).record [0x61] [] []

theorem reparse_sample : ∃ d r, Dirent.parseCentral storedRecord = .ok (d, []) ∧
    d.toCentralRecord = .ok r ∧
    ((∃ d', Dirent.parseCentral r = .ok (d', []) ∧ SameEntry d d') ↔ d.Zip64Consistent) := by
  obtain ⟨⟨d, rest⟩, hd, hp⟩ := exists_ok (x := Dirent.parseCentral storedRecord)
    (p := fun x => decide (x.2 = []) && x.1.toCentralRecord.toOption.any fun _ => true)
    (by decide +kernel)
  obtain ⟨hrest, hrecord⟩ := Bool.and_eq_true_iff.mp hp
  obtain rfl : rest = [] := of_decide_eq_true hrest
  obtain ⟨r, hr, -⟩ := exists_ok hrecord
  exact ⟨d, r, hd, hr, reparse_iff hd hr⟩

/-- The record of an entry of 4 GiB whose compressed size is exactly the sentinel. -/
def sentinelSizeRecord : Bytes :=
  (storedFixed zip64Magic32 zip64Magic32 20).record [0x61]
    (rawField (extraFieldZip64, le64 0x100000000 ++ le64 0xFFFFFFFF)) []

/-- The entry is serialized, but its new record is refused. -/
theorem sentinel_size_lost : ∃ d r, Dirent.parseCentral sentinelSizeRecord = .ok (d, []) ∧
    d.toCentralRecord = .ok r ∧ ¬ ∃ d', Dirent.parseCentral r = .ok (d', []) ∧ SameEntry d d' := by
  obtain ⟨⟨d, rest⟩, hd, hp⟩ := exists_ok (x := Dirent.parseCentral sentinelSizeRecord)
    (p := fun x => decide (x.2 = []) && x.1.toCentralRecord.toOption.any fun r =>
      (Dirent.parseCentral r).toOption.isNone)
    (by decide +kernel)
  obtain ⟨hrest, hrecord⟩ := Bool.and_eq_true_iff.mp hp
  obtain rfl : rest = [] := of_decide_eq_true hrest
  obtain ⟨r, hr, hrefused⟩ := exists_ok hrecord
  refine ⟨d, r, hd, hr, ?_⟩
  rintro ⟨d', hd', -⟩
  rw [hd'] at hrefused
  cases hrefused

/-! ## From a record to its entry and back -/

/-- The variable parts of a central record, at the lengths that it gives. -/
def recordName (r : Bytes) : Bytes := (r.drop 46).take (le16At r 28).toNat
def recordExtra (r : Bytes) : Bytes := (r.drop (46 + (le16At r 28).toNat)).take (le16At r 30).toNat
def recordComment (r : Bytes) : Bytes :=
  (r.drop (46 + (le16At r 28).toNat + (le16At r 30).toNat)).take (le16At r 32).toNat

/-- The sizes, the offset and the disk number of a central record are not the ZIP64 sentinels. -/
structure NoSentinel (r : Bytes) : Prop where
  compSize : le32At r 20 ≠ zip64Magic32
  uncompSize : le32At r 24 ≠ zip64Magic32
  disk : le16At r 34 ≠ 0xFFFF
  offset : le32At r 42 ≠ zip64Magic32

/-- What the parser keeps of a record as it is: text in UTF-8, and extra fields that fill their
block. -/
structure Verbatim (r : Bytes) : Prop where
  name : (fromUtf8 (recordName r)).isSome
  comment : (fromUtf8 (recordComment r)).isSome
  extra : ∃ fields, FieldsFit fields ∧ recordExtra r = rawFields fields

section
variable (f : CentralFixed) (filename extra comment : Bytes)

theorem record_eq : f.record filename extra comment =
    (magic.central ++ f.bytes) ++ (filename ++ (extra ++ comment)) := by
  simp only [CentralFixed.record, List.flatten_cons, List.flatten_nil, List.append_nil,
    List.append_assoc]

theorem le32At_compSize : le32At (f.record filename extra comment) 20 = f.compSize32 :=
  u32_le32 f.compSize32

theorem le32At_uncompSize : le32At (f.record filename extra comment) 24 = f.uncompSize32 :=
  u32_le32 f.uncompSize32

theorem le16At_filenameLen : le16At (f.record filename extra comment) 28 = f.filenameLen :=
  u16_le16 f.filenameLen

theorem le16At_extraLen : le16At (f.record filename extra comment) 30 = f.extraLen :=
  u16_le16 f.extraLen

theorem le16At_commentLen : le16At (f.record filename extra comment) 32 = f.commentLen :=
  u16_le16 f.commentLen

theorem le16At_diskNumber : le16At (f.record filename extra comment) 34 = f.diskNumber :=
  u16_le16 f.diskNumber

theorem le32At_offset : le32At (f.record filename extra comment) 42 = f.offset32 :=
  u32_le32 f.offset32

variable {f filename extra comment}

theorem recordName_record (h : f.Fits filename extra comment) :
    recordName (f.record filename extra comment) = filename := by
  have hhead : (magic.central ++ f.bytes).length = 46 := by
    rw [List.length_append, f.length_bytes]; rfl
  rw [recordName, le16At_filenameLen, record_eq, List.drop_left' hhead, List.take_left' h.filename]

theorem recordExtra_record (h : f.Fits filename extra comment) :
    recordExtra (f.record filename extra comment) = extra := by
  have hhead : (magic.central ++ f.bytes).length = 46 := by
    rw [List.length_append, f.length_bytes]; rfl
  rw [recordExtra, le16At_filenameLen, le16At_extraLen, record_eq, ← List.drop_drop,
    List.drop_left' hhead, List.drop_left' h.filename, List.take_left' h.extra]

theorem recordComment_record (h : f.Fits filename extra comment) :
    recordComment (f.record filename extra comment) = comment := by
  have hhead : (magic.central ++ f.bytes).length = 46 := by
    rw [List.length_append, f.length_bytes]; rfl
  rw [recordComment, le16At_filenameLen, le16At_extraLen, le16At_commentLen, record_eq,
    ← List.drop_drop, ← List.drop_drop, List.drop_left' hhead, List.drop_left' h.filename,
    List.drop_left' h.extra, ← h.comment, List.take_length]

/-- A record determines its parts. -/
theorem record_inj {f' : CentralFixed} {filename' extra' comment' : Bytes}
    (h : f.Fits filename extra comment) (h' : f'.Fits filename' extra' comment')
    (heq : f.record filename extra comment = f'.record filename' extra' comment') :
    filename = filename' ∧ extra = extra' ∧ comment = comment' := by
  refine ⟨?_, ?_, ?_⟩
  · rw [← recordName_record h, ← recordName_record h', heq]
  · rw [← recordExtra_record h, ← recordExtra_record h', heq]
  · rw [← recordComment_record h, ← recordComment_record h', heq]

end

/-- The method field is found again from what it was resolved to. -/
theorem methodRaw_resolve (raw bitflags : UInt16) (fields : List ExtraField) :
    (if isAesMethod (resolveMethod raw bitflags fields).2.1 then zipCmWinzipAes
      else methodToU16 (resolveMethod raw bitflags fields).1) = raw := by
  unfold resolveMethod
  split
  · rename_i h99
    cases ha : parseAesExtra fields with
    | none =>
      rw [h99]
      rfl
    | some r =>
      obtain ⟨enc, actual, version⟩ := r
      rw [if_pos (parseAesExtra_isAes ha), h99]
  · have hnot : isAesMethod (if bitflags &&& flag.encrypted ≠ 0 then
        if bitflags &&& flag.strongEncryption ≠ 0 then encryption.unknown else encryption.tradPkware
      else encryption.none) = false := by
      split_ifs <;> decide
    dsimp only
    rw [hnot, if_neg Bool.false_ne_true, methodToU16_fromU16]

/-- Sizes, offset and disk number as the fixed part shows them. -/
def CentralFixed.shown (f : CentralFixed) : Zip64Values :=
  { uncompSize := f.uncompSize32.toUInt64, compSize := f.compSize32.toUInt64,
    offset := f.offset32.toUInt64, disk := f.diskNumber.toUInt32 }

theorem sentinel32_ofUInt32 (x : UInt32) : x.toUInt64 ≤ u32Max ∧ sentinel32 x.toUInt64 = x := by
  have hx := x.toNat_lt
  have hle : x.toUInt64 ≤ u32Max := by
    rw [UInt64.le_iff_toNat_le, UInt32.toNat_toUInt64]
    exact Nat.le_of_lt_succ hx
  refine ⟨hle, ?_⟩
  rw [sentinel32, if_neg (UInt64.not_lt.mpr hle), UInt32.toUInt32_toUInt64]

theorem sentinel16_ofUInt16 (x : UInt16) : x.toUInt32 ≤ 0xFFFF ∧ sentinel16 x.toUInt32 = x := by
  have hx := x.toNat_lt
  have hle : x.toUInt32 ≤ 0xFFFF := by
    rw [UInt32.le_iff_toNat_le, UInt16.toNat_toUInt32]
    exact Nat.le_of_lt_succ hx
  refine ⟨hle, ?_⟩
  rw [sentinel16, if_neg (UInt32.not_lt.mpr hle), UInt16.toUInt16_toUInt32]

theorem shows_shown (f : CentralFixed) : f.Shows f.shown :=
  ⟨(sentinel32_ofUInt32 _).2.symm, (sentinel32_ofUInt32 _).2.symm, (sentinel32_ofUInt32 _).2.symm,
    (sentinel16_ofUInt16 _).2.symm⟩

/-- Without sentinels the ZIP64 data are not looked at. -/
theorem zip64Overrides_shown {f : CentralFixed} (hc : f.compSize32 ≠ zip64Magic32)
    (hu : f.uncompSize32 ≠ zip64Magic32) (hk : f.diskNumber ≠ 0xFFFF) (ho : f.offset32 ≠ zip64Magic32)
    (data : Option Bytes) : f.zip64Overrides data = .ok f.shown := by
  cases data with
  | none => rfl
  | some data =>
    have h64 (x : UInt32) (hx : x ≠ zip64Magic32) : ¬ u32Max ≤ x.toUInt64 := fun h =>
      hx ((sentinel32_ofUInt32 x).2.symm.trans (sentinel32_eq_magic.mpr h))
    have h32 (x : UInt16) (hx : x ≠ 0xFFFF) : ¬ 0xFFFF ≤ x.toUInt32 := fun h =>
      hx ((sentinel16_ofUInt16 x).2.symm.trans (sentinel16_eq_magic.mpr h))
    rw [zip64Overrides_some (shows_shown f)]
    simp only [Zip64Values.sentinelData, CentralFixed.shown, h64 _ hu, h64 _ hc, h64 _ ho, h32 _ hk,
      ↓reduceIte, List.flatten_cons, List.flatten_nil, List.append_nil, List.nil_prefix]

theorem fixed_entry {f : CentralFixed} {filename comment : Str} {fields : List ExtraField} :
    (f.entry filename comment fields f.shown).fixed f.filenameLen f.extraLen f.commentLen = f := by
  have hraw := methodRaw_resolve f.compMethodRaw f.bitflags fields
  simp only [Dirent.fixed, CentralFixed.entry, CentralFixed.shown, (sentinel32_ofUInt32 _).2,
    (sentinel16_ofUInt16 _).2]
  exact congrArg (fun m => { f with compMethodRaw := m }) hraw

theorem not_needsZip64_shown (f : CentralFixed) (filename comment : Str) (fields : List ExtraField) :
    (f.entry filename comment fields f.shown).needsZip64 = false := by
  rw [← Bool.not_eq_true, needsZip64_iff]
  rintro (((h | h) | h) | h)
  · exact absurd h (UInt64.not_lt.mpr (sentinel32_ofUInt32 f.compSize32).1)
  · exact absurd h (UInt64.not_lt.mpr (sentinel32_ofUInt32 f.uncompSize32).1)
  · exact absurd h (UInt64.not_lt.mpr (sentinel32_ofUInt32 f.offset32).1)
  · exact absurd h (UInt32.not_lt.mpr (sentinel16_ofUInt16 f.diskNumber).1)

/-- The record of an entry whose values are all shown in the fixed part. -/
theorem toCentralRecord_shown {f : CentralFixed} {filename comment : Str} {fields : List ExtraField}
    (hfits : f.Fits (asBytes filename) (rawFields fields) (asBytes comment)) (hfit : FieldsFit fields) :
    (f.entry filename comment fields f.shown).toCentralRecord =
      .ok (f.record (asBytes filename) (rawFields fields) (asBytes comment)) := by
  have hlen {bs : Bytes} {x : UInt16} (h : bs.length = x.toNat) : tryU16 bs.length = .ok x := by
    have hx := x.toNat_lt
    exact tryU16_ok.mpr ⟨by omega, by rw [h, UInt16.ofNat_toNat]⟩
  have hserial : (f.entry filename comment fields f.shown).serializedExtra = .ok (rawFields fields) := by
    have hmax := f.extraLen.toNat_lt
    rw [← hfits.extra] at hmax
    rw [Dirent.serializedExtra, not_needsZip64_shown, if_neg Bool.false_ne_true]
    exact serializeExtraFields_ok.mpr ⟨hfit, rfl, by omega⟩
  have hname : (f.entry filename comment fields f.shown).filename = filename := rfl
  have hcomment : (f.entry filename comment fields f.shown).comment = comment := rfl
  rw [Dirent.toCentralRecord, hserial, hname, hcomment]
  simp only [hlen hfits.extra, hlen hfits.filename, hlen hfits.comment, bind, Except.bind]
  rw [fixed_entry]

/-- A record without sentinels comes back from the entry that was parsed from it exactly when the
parser kept all of it. -/
theorem reserialize_iff {r : Bytes} {d : Dirent} (h : Dirent.parseCentral r = .ok (d, []))
    (hs : NoSentinel r) : d.toCentralRecord = .ok r ↔ Verbatim r := by
  obtain ⟨f, filename, extra, comment, hr, hfits, hd⟩ := parseCentral_ok h
  rw [List.append_nil] at hr
  subst hr
  obtain ⟨fields, v, hfields, hv, -, rfl⟩ := ofCentral_ok.mp hd
  constructor
  · intro hrec
    obtain ⟨l₁, l₂, l₃, hfit, hfits', heq⟩ := toCentralRecord_ok hrec
    obtain ⟨hname, hextra, hcomment⟩ := record_inj hfits hfits' heq
    refine ⟨?_, ?_, _, hfit, ?_⟩
    · rw [recordName_record hfits, fromUtf8_isSome]
      exact hname.symm
    · rw [recordComment_record hfits, fromUtf8_isSome]
      exact hcomment.symm
    · rw [recordExtra_record hfits]
      exact hextra
  · rintro ⟨hname, hcomment, fields', hfit, hextra⟩
    rw [recordName_record hfits, fromUtf8_isSome] at hname
    rw [recordComment_record hfits, fromUtf8_isSome] at hcomment
    rw [recordExtra_record hfits] at hextra
    rw [hextra, parse_rawFields hfit] at hfields
    cases hfields
    have hshown : f.shown = v := by
      have hover := zip64Overrides_shown (le32At_compSize f filename extra comment ▸ hs.compSize)
        (le32At_uncompSize f filename extra comment ▸ hs.uncompSize)
        (le16At_diskNumber f filename extra comment ▸ hs.disk)
        (le32At_offset f filename extra comment ▸ hs.offset) (zip64Data fields)
      exact Except.ok.inj (hover.symm.trans hv)
    subst hshown
    rw [← hname, hextra, ← hcomment] at hfits
    have hrecord := toCentralRecord_shown hfits hfit
    rwa [hname, hcomment, ← hextra] at hrecord

theorem reserialize_sample : ∃ d, Dirent.parseCentral storedRecord = .ok (d, []) ∧
    (d.toCentralRecord = .ok storedRecord ↔ Verbatim storedRecord) := by
  obtain ⟨⟨d, rest⟩, hd, hp⟩ := exists_ok (x := Dirent.parseCentral storedRecord)
    (p := fun x => decide (x.2 = [])) (by decide +kernel)
  obtain rfl : rest = [] := of_decide_eq_true hp
  exact ⟨d, hd, reserialize_iff hd ⟨by decide, by decide, by decide, by decide⟩⟩

/-- The record of an entry whose name is not UTF-8. -/
def latinRecord : Bytes := (storedFixed 0 0 0).record [0xE9] [] []

/-- The name is written as a replacement character. -/
theorem latin_name_lost : ∃ d, Dirent.parseCentral latinRecord = .ok (d, []) ∧ NoSentinel latinRecord ∧
    d.toCentralRecord ≠ .ok latinRecord := by
  obtain ⟨⟨d, rest⟩, hd, hp⟩ := exists_ok (x := Dirent.parseCentral latinRecord)
    (p := fun x => decide (x.2 = []) && x.1.toCentralRecord.toOption.any (· != latinRecord))
    (by decide +kernel)
  obtain ⟨hrest, hrecord⟩ := Bool.and_eq_true_iff.mp hp
  obtain rfl : rest = [] := of_decide_eq_true hrest
  obtain ⟨r, hr, hne⟩ := exists_ok hrecord
  refine ⟨d, hd, ⟨by decide, by decide, by decide, by decide⟩, fun h => ?_⟩
  rw [hr] at h
  cases h
  simp at hne

end Kzip.Impl
