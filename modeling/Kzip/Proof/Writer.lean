import Kzip.Impl.LocalHeader
import Kzip.Proof.Directory
import Kzip.Spec.Writer

/-!
# The records of the writer

`writeLocalHeader_eq`: the local header of an entry, as bytes. `isRecord_centralEntry`: the central record of
an entry, encrypted or not, is parsed as the entry it describes (`CompressedFile.entry`), exactly when the
reader accepts its name and its sizes are unambiguous. For a plain entry that is `CompressedFile.dirent`.
-/

namespace Kzip.Impl

open Lib Lib.LE Lib.Utf8 Kzip.Spec

/-! ## Extra fields -/

/-- Not encrypted, and with a method of its own. -/
structure CompressedFile.Plain (cf : CompressedFile) : Prop where
  encryption : cf.encryptionMethod = encryption.none
  method : cf.method ≠ zipCmWinzipAes

theorem CompressedFile.Plain.not_aes {cf : CompressedFile} (h : cf.Plain) : cf.isAes = false := by
  rw [isAes, h.encryption]; rfl

/-- A method of its own, and an encryption that the writer has. -/
structure CompressedFile.Known (cf : CompressedFile) : Prop where
  method : cf.method ≠ zipCmWinzipAes
  encryption : cf.encryptionMethod = encryption.none ∨ cf.encryptionMethod = encryption.tradPkware ∨
    cf.isAes = true

theorem CompressedFile.Plain.known {cf : CompressedFile} (h : cf.Plain) : cf.Known :=
  ⟨h.method, .inl h.encryption⟩

/-- The ZIP64 field of a header, if it has one. -/
def zip64Field (data : Bytes) : List ExtraField := if data ≠ [] then [(extraFieldZip64, data)] else []

/-- The WinZip AES field of a header, if it has one. -/
def CompressedFile.aesFields (cf : CompressedFile) : List ExtraField :=
  if cf.isAes then
    [(efWinzipAes, [le16 2, [0x41, 0x45], [aesStrength cf.encryptionMethod], le16 cf.method].flatten)]
  else []

theorem CompressedFile.Plain.aesFields {cf : CompressedFile} (h : cf.Plain) : cf.aesFields = [] := by
  rw [CompressedFile.aesFields, h.not_aes]; rfl

theorem aesExtraField_eq (cf : CompressedFile) : (aesExtraField cf).getD [] = rawFields cf.aesFields := by
  rw [aesExtraField, CompressedFile.aesFields]
  cases cf.isAes <;> rfl

theorem fieldsLength_aesFields (cf : CompressedFile) : fieldsLength cf.aesFields = aesLength cf := by
  rw [CompressedFile.aesFields, aesLength]
  cases cf.isAes <;> rfl

theorem fieldsFit_aesFields (cf : CompressedFile) : FieldsFit cf.aesFields := by
  intro f hf
  rw [CompressedFile.aesFields] at hf
  split at hf
  · rw [List.mem_singleton.mp hf]
    show 7 ≤ 0xFFFF
    decide
  · cases hf

theorem length_rawFields (fields : List ExtraField) :
    (rawFields fields).length = fieldsLength fields := by
  simp only [rawFields, List.length_flatMap, length_rawField, fieldsLength]

theorem length_zip64Field (cf : CompressedFile) (central : Bool) (offset : UInt64) :
    (rawFields (zip64Field (zip64ExtraData cf central offset))).length =
      zip64Length cf central offset := by
  by_cases h : zip64ExtraData cf central offset = []
  · rw [zip64Field, if_neg (not_not_intro h), zip64Length, if_pos h]
    rfl
  · rw [zip64Field, if_pos h, zip64Length, if_neg h, length_rawFields]
    rfl

theorem zip64ExtraData_of_not {cf : CompressedFile} {central : Bool} {offset : UInt64}
    (hs : needsZip64Sizes cf = false) (ho : central = true → ¬ offset > u32Max) :
    zip64ExtraData cf central offset = [] := by
  simp only [needsZip64Sizes, Bool.or_eq_false_iff, decide_eq_false_iff_not] at hs
  have hoff : ¬ (central = true ∧ offset > u32Max) := fun h => ho h.1 h.2
  simp only [zip64ExtraData, hs.1, hs.2, hoff, ↓reduceIte, List.flatten_cons, List.flatten_nil,
    List.append_nil]

theorem fieldsFit_append {fs gs : List ExtraField} (hf : FieldsFit fs) (hg : FieldsFit gs) :
    FieldsFit (fs ++ gs) := fun f h => (List.mem_append.mp h).elim (hf f) (hg f)

/-- The extra fields of a header: those of the user, then those of the writer. -/
theorem buildExtra_ok {cf : CompressedFile} {z central : Bool} {offset : UInt64} {extra : Bytes}
    (hz : z = false → zip64ExtraData cf central offset = [])
    (h : buildExtra cf z central offset = .ok extra) :
    FieldsFit (userFields cf.extraFields ++ cf.aesFields ++
        zip64Field (zip64ExtraData cf central offset)) ∧
      extra = rawFields (userFields cf.extraFields ++ cf.aesFields ++
        zip64Field (zip64ExtraData cf central offset)) := by
  simp only [buildExtra] at h
  obtain ⟨user, huser, h⟩ := bind_ok.mp h
  obtain ⟨hfit, rfl⟩ := foldlM_appendExtraField_ok.mp huser
  have hfit : FieldsFit (userFields cf.extraFields ++ cf.aesFields) :=
    fieldsFit_append hfit (fieldsFit_aesFields cf)
  rw [List.nil_append, aesExtraField_eq, ← rawFields_append] at h
  have hdone (hnil : zip64ExtraData cf central offset = [])
      (h : rawFields (userFields cf.extraFields ++ cf.aesFields) = extra) :
      FieldsFit (userFields cf.extraFields ++ cf.aesFields ++
          zip64Field (zip64ExtraData cf central offset)) ∧
        extra = rawFields (userFields cf.extraFields ++ cf.aesFields ++
          zip64Field (zip64ExtraData cf central offset)) := by
    rw [hnil, zip64Field, if_neg (fun h => h rfl), List.append_nil]
    exact ⟨hfit, h.symm⟩
  split at h
  · split at h
    · rename_i hne
      obtain ⟨len, hlen, h⟩ := bind_ok.mp h
      obtain ⟨hle, rfl⟩ := tryU16_ok.mp hlen
      cases h
      rw [zip64Field, if_pos hne]
      refine ⟨fieldsFit_append hfit fun f hf => ?_, ?_⟩
      · rw [List.mem_singleton.mp hf]
        exact hle
      · rw [rawFields_append _ [_]]
        simp only [rawFields, List.flatMap_singleton]
        rfl
    · rename_i hnil
      exact hdone (Classical.not_not.mp hnil) (Except.ok.inj h)
  · rename_i hz'
    exact hdone (hz (Bool.eq_false_of_not_eq_true hz')) (Except.ok.inj h)

/-! ## Local headers -/

/-- The bytes of the fixed fields. -/
def LocalFixed.bytes (f : LocalFixed) : Bytes :=
  [le16 f.versionNeeded, le16 f.bitflags, le16 f.compMethodRaw, le16 f.lastModTime, le16 f.lastModDate,
    le32 f.crc, le32 f.compSize32, le32 f.uncompSize32, le16 f.filenameLen, le16 f.extraLen].flatten

/-- A local header: signature, fixed fields, name, extra fields. -/
def LocalFixed.header (f : LocalFixed) (filename extra : Bytes) : Bytes :=
  [magic.localHeader, f.bytes, filename, extra].flatten

theorem LocalFixed.length_bytes (f : LocalFixed) : f.bytes.length = 26 := by
  simp [LocalFixed.bytes]

theorem LocalFixed.length_header (f : LocalFixed) (filename extra : Bytes) :
    (f.header filename extra).length = 30 + (filename.length + extra.length) := by
  simp only [LocalFixed.header, List.flatten_cons, List.flatten_nil, List.append_nil,
    List.length_append, f.length_bytes, show magic.localHeader.length = 4 from rfl]
  omega

/-- The fixed part of the local header of a file. -/
def CompressedFile.localFixed (cf : CompressedFile) (extraLen : UInt16) : LocalFixed :=
  let entryZip64 := needsZip64Sizes cf
  { versionNeeded := cf.versionNeeded entryZip64, bitflags := cf.flags,
    compMethodRaw := onDiskMethod cf, lastModTime := cf.lastModTime, lastModDate := cf.lastModDate,
    crc := cf.storedCrc, compSize32 := if entryZip64 then 0xFFFFFFFF else cf.compSize.toUInt32,
    uncompSize32 := if entryZip64 then 0xFFFFFFFF else cf.uncompSize.toUInt32,
    filenameLen := UInt16.ofNat (asBytes cf.name).length, extraLen }

/-- The extra fields of the local header of a file. -/
def CompressedFile.localFields (cf : CompressedFile) : List ExtraField :=
  userFields cf.extraFields ++ cf.aesFields ++ zip64Field (zip64ExtraData cf false 0)

theorem writeLocalHeader_eq {cf : CompressedFile} {out r : Bytes}
    (h : writeLocalHeader cf out (needsZip64Sizes cf) = .ok r) :
    ∃ extraLen, FieldsFit cf.localFields ∧ extraLen.toNat = (rawFields cf.localFields).length ∧
      r = out ++ (cf.localFixed extraLen).header (asBytes cf.name) (rawFields cf.localFields) := by
  simp only [writeLocalHeader] at h
  obtain ⟨extra, hextra, h⟩ := bind_ok.mp h
  obtain ⟨extraLen, hextraLen, h⟩ := bind_ok.mp h
  cases h
  have hfields : FieldsFit cf.localFields ∧ extra = rawFields cf.localFields :=
    buildExtra_ok (fun hz => zip64ExtraData_of_not hz fun h => Bool.noConfusion h) hextra
  obtain ⟨hfit, rfl⟩ := hfields
  refine ⟨extraLen, hfit, tryU16_toNat hextraLen, ?_⟩
  simp only [LocalFixed.header, LocalFixed.bytes, CompressedFile.localFixed, List.flatten_cons,
    List.flatten_nil, List.append_nil, List.append_assoc]

/-! ## Central records -/

def CompressedFile.zip64Values (cf : CompressedFile) (offset : UInt64) : Zip64Values :=
  { uncompSize := cf.uncompSize, compSize := cf.compSize, offset, disk := 0 }

/-- The extra fields of the central record. -/
def CompressedFile.centralFields (cf : CompressedFile) (offset : UInt64) : List ExtraField :=
  userFields cf.extraFields ++ zip64Field (cf.zip64Values offset).overflowData

/-- The entry that the central record of a plain file describes. -/
def CompressedFile.dirent (cf : CompressedFile) (offset : UInt64) : Dirent :=
  let versionNeeded := cf.versionNeeded (needsZip64Sizes cf || offset > u32Max)
  { versionMadeby := (cf.opsys.toUInt16 <<< 8) ||| versionNeeded, versionNeeded, bitflags := 0,
    compMethod := .fromU16 cf.method, lastModTime := cf.lastModTime, lastModDate := cf.lastModDate,
    crc := cf.crc, compSize := cf.compSize, uncompSize := cf.uncompSize, filename := cf.name,
    comment := fromUtf8Lossy (cf.comment.getD []), diskNumber := 0, intAttrib := 0,
    extAttrib := cf.externalAttributes, offset, dataOffset := none,
    encryptionMethod := encryption.none, crcValid := true, extraFields := cf.centralFields offset }

theorem zip64ExtraData_central (cf : CompressedFile) (offset : UInt64) :
    zip64ExtraData cf true offset = (cf.zip64Values offset).overflowData := by
  simp only [zip64ExtraData, Zip64Values.overflowData, CompressedFile.zip64Values, true_and]
  rfl

theorem userFields_find? {id : UInt16} (h : id = efWinzipAes ∨ id = extraFieldZip64)
    (fields : List ExtraField) : (userFields fields).find? (fun f => f.1 == id) = none := by
  rw [List.find?_eq_none]
  intro f hf hid
  have hkeep := (List.mem_filter.mp hf).2
  rw [beq_iff_eq] at hid
  rcases h with rfl | rfl <;> simp [hid] at hkeep

/-- The ZIP64 field comes last, after fields of other ids. -/
theorem zip64Data_append {fields : List ExtraField}
    (h : fields.find? (fun f => f.1 == extraFieldZip64) = none) (data : Bytes) :
    zip64Data (fields ++ zip64Field data) = if data ≠ [] then some data else none := by
  simp only [zip64Data, List.find?_append, h, Option.none_or, zip64Field]
  split <;> rfl

theorem zip64Data_centralFields (cf : CompressedFile) (offset : UInt64) :
    zip64Data (cf.centralFields offset) =
      if (cf.zip64Values offset).overflowData ≠ [] then
        some (cf.zip64Values offset).overflowData else none :=
  zip64Data_append (userFields_find? (.inr rfl) _) _

/-- The extra fields of the central record of any entry. -/
def CompressedFile.entryFields (cf : CompressedFile) (offset : UInt64) : List ExtraField :=
  userFields cf.extraFields ++ cf.aesFields ++ zip64Field (cf.zip64Values offset).overflowData

/-- The entry that the central record of a file describes. -/
def CompressedFile.entry (cf : CompressedFile) (offset : UInt64) : Dirent :=
  { cf.dirent offset with
    bitflags := cf.flags, crc := cf.storedCrc, encryptionMethod := cf.encryptionMethod,
    crcValid := !cf.isAes, extraFields := cf.entryFields offset }

theorem CompressedFile.Plain.entry {cf : CompressedFile} (h : cf.Plain) (offset : UInt64) :
    cf.entry offset = cf.dirent offset := by
  have hflags : cf.flags = 0 := by rw [flags, h.encryption]; rfl
  have hfields : cf.entryFields offset = cf.centralFields offset := by
    rw [entryFields, h.aesFields, List.append_nil, centralFields]
  rw [CompressedFile.entry, hflags, hfields, storedCrc, h.not_aes, h.encryption]
  rfl

/-- The ZIP64 data of a header are found after the other fields. -/
theorem zip64Data_fields (cf : CompressedFile) (data : Bytes) :
    zip64Data (userFields cf.extraFields ++ cf.aesFields ++ zip64Field data) =
      if data ≠ [] then some data else none := by
  refine zip64Data_append ?_ _
  rw [List.find?_append, userFields_find? (.inr rfl), Option.none_or, CompressedFile.aesFields]
  split <;> rfl

theorem zip64Data_entryFields (cf : CompressedFile) (offset : UInt64) :
    zip64Data (cf.entryFields offset) =
      if (cf.zip64Values offset).overflowData ≠ [] then
        some (cf.zip64Values offset).overflowData else none :=
  zip64Data_fields cf _

theorem aesMethodFromStrength_aesStrength {method : UInt16} (h : isAesMethod method = true) :
    aesMethodFromStrength (aesStrength method) = method := by
  simp only [isAesMethod, Bool.or_eq_true, beq_iff_eq] at h
  rcases h with (rfl | rfl) | rfl <;> rfl

/-- The field of an AES entry gives back its encryption and compression methods. -/
theorem parseAesExtra_fields {cf : CompressedFile} (haes : cf.isAes = true) (data : Bytes) :
    parseAesExtra (userFields cf.extraFields ++ cf.aesFields ++ zip64Field data) =
      some (cf.encryptionMethod, .fromU16 cf.method, 2) := by
  have hstrength := aesMethodFromStrength_aesStrength haes
  have hunknown : cf.encryptionMethod ≠ encryption.unknown := by
    intro h
    rw [CompressedFile.isAes, h] at haes
    cases haes
  have hfind : (userFields cf.extraFields ++ cf.aesFields ++ zip64Field data).find?
      (fun f => f.1 == efWinzipAes) = some (efWinzipAes,
        [le16 2, [0x41, 0x45], [aesStrength cf.encryptionMethod], le16 cf.method].flatten) := by
    rw [List.append_assoc, List.find?_append, userFields_find? (.inl rfl), Option.none_or,
      CompressedFile.aesFields, if_pos haes]
    rfl
  have hmethod : u16 ((([le16 2, [0x41, 0x45], [aesStrength cf.encryptionMethod],
      le16 cf.method].flatten).drop 5).take 2) = cf.method := u16_le16 cf.method
  simp only [parseAesExtra, hfind, hmethod]
  show (if aesMethodFromStrength (aesStrength cf.encryptionMethod) = encryption.unknown then none
    else some (aesMethodFromStrength (aesStrength cf.encryptionMethod), _, _)) = _
  rw [hstrength, if_neg hunknown]
  rfl

theorem resolveMethod_entry {cf : CompressedFile} (hk : cf.Known) (offset : UInt64) :
    resolveMethod (onDiskMethod cf) cf.flags (cf.entryFields offset) =
      (.fromU16 cf.method, cf.encryptionMethod, !cf.isAes) := by
  by_cases haes : cf.isAes = true
  · rw [resolveMethod, onDiskMethod, if_pos haes, if_pos rfl, CompressedFile.entryFields,
      parseAesExtra_fields haes, haes]
    rfl
  · have hnot : cf.isAes = false := Bool.eq_false_of_not_eq_true haes
    rw [resolveMethod, onDiskMethod, hnot, if_neg Bool.false_ne_true, if_neg hk.method,
      CompressedFile.flags, hnot]
    rcases hk.encryption with h | h | h
    · rw [h]
      rfl
    · rw [h]
      rfl
    · exact absurd h haes

theorem writeCentralEntry_ok {cf : CompressedFile} {offset : UInt64} {cdir r : Bytes}
    (h : writeCentralEntry cf offset cdir = .ok r) :
    ∃ l₂ l₃, FieldsFit (cf.entryFields offset) ∧
      l₂.toNat = (rawFields (cf.entryFields offset)).length ∧
      l₃.toNat = (cf.comment.getD []).length ∧
      r = cdir ++ (centralFixed cf offset l₂ l₃).record (asBytes cf.name)
        (rawFields (cf.entryFields offset)) (cf.comment.getD []) := by
  simp only [writeCentralEntry] at h
  obtain ⟨extra, hextra, h⟩ := bind_ok.mp h
  obtain ⟨l₂, hl₂, h⟩ := bind_ok.mp h
  obtain ⟨l₃, hl₃, h⟩ := bind_ok.mp h
  cases h
  obtain ⟨hfit, rfl⟩ := buildExtra_ok (fun hz => by
    simp only [Bool.or_eq_false_iff, decide_eq_false_iff_not] at hz
    exact zip64ExtraData_of_not hz.1 fun _ => hz.2) hextra
  rw [zip64ExtraData_central] at hfit hl₂ ⊢
  exact ⟨l₂, l₃, hfit, tryU16_toNat hl₂, tryU16_toNat hl₃, rfl⟩

theorem centralFixed_shows (cf : CompressedFile) (offset : UInt64) (l₂ l₃ : UInt16) :
    (centralFixed cf offset l₂ l₃).Shows (cf.zip64Values offset) := ⟨rfl, rfl, rfl, rfl⟩

/-- The values of a central record are read back exactly when they are unambiguous. -/
theorem zip64Overrides_central (cf : CompressedFile) (offset : UInt64) (l₂ l₃ : UInt16) :
    ((cf.zip64Values offset).Unambiguous → (centralFixed cf offset l₂ l₃).zip64Overrides
      (zip64Data (cf.entryFields offset)) = .ok (cf.zip64Values offset)) ∧
    (∀ w, (centralFixed cf offset l₂ l₃).zip64Overrides
      (zip64Data (cf.entryFields offset)) = .ok w → (cf.zip64Values offset).Unambiguous) := by
  have hshows := centralFixed_shows cf offset l₂ l₃
  rw [zip64Data_entryFields]
  by_cases hne : (cf.zip64Values offset).overflowData ≠ []
  · rw [if_pos hne]
    refine ⟨fun hun => (zip64Overrides_some hshows).mpr ?_, fun w hw => unambiguous_of_overrides hshows hw⟩
    exact sentinelData_eq hun hne ▸ List.prefix_rfl
  · rw [if_neg hne]
    obtain ⟨hu, hc, ho, hd⟩ := overflowData_eq_nil.mp (Classical.not_not.mp hne)
    exact ⟨fun _ => zip64Overrides_none hshows hu hc ho hd, fun _ _ h => absurd h hne⟩

/-- The reader accepts the entry of a file at an offset. -/
structure CompressedFile.Accepted (cf : CompressedFile) (offset : UInt64) : Prop where
  name : pathTraversal cf.name = false
  zip64 : (cf.zip64Values offset).Unambiguous

/-- What the writer appends for an entry is a central record, whatever file it is of. -/
theorem isRecord_centralFixed {cf : CompressedFile} (offset : UInt64) {l₂ l₃ : UInt16}
    (hname : (asBytes cf.name).length ≤ 0xFFFF)
    (hl₂ : l₂.toNat = (rawFields (cf.entryFields offset)).length)
    (hl₃ : l₃.toNat = (cf.comment.getD []).length) :
    IsRecord ((centralFixed cf offset l₂ l₃).record (asBytes cf.name)
        (rawFields (cf.entryFields offset)) (cf.comment.getD []))
      (Dirent.ofCentral (centralFixed cf offset l₂ l₃) cf.name (rawFields (cf.entryFields offset))
        (fromUtf8Lossy (cf.comment.getD []))) := by
  have hnameLen : (UInt16.ofNat (asBytes cf.name).length).toNat = (asBytes cf.name).length := toNat_ofNat_u16 hname
  have hrec := isRecord_record (f := centralFixed cf offset l₂ l₃) ⟨hnameLen.symm, hl₂.symm, hl₃.symm⟩
  rwa [fromUtf8Lossy_asBytes] at hrec

/-- The central record of an entry, and what parsing it gives. -/
theorem isRecord_centralEntry {cf : CompressedFile} (hk : cf.Known) {offset : UInt64} {cdir r : Bytes}
    (hname : (asBytes cf.name).length ≤ 0xFFFF) (h : writeCentralEntry cf offset cdir = .ok r) :
    ∃ record o, r = cdir ++ record ∧ record.length = recordLength cf offset ∧
      (cf.comment.getD []).length ≤ 0xFFFF ∧ fieldsLength (userFields cf.extraFields) ≤ 0xFFFF ∧
      IsRecord record o ∧ (cf.Accepted offset → o = .ok (cf.entry offset)) ∧
      ∀ d, o = .ok d → cf.Accepted offset := by
  obtain ⟨l₂, l₃, hfit, hl₂, hl₃, rfl⟩ := writeCentralEntry_ok h
  have hresolve : resolveMethod (centralFixed cf offset l₂ l₃).compMethodRaw
      (centralFixed cf offset l₂ l₃).bitflags (cf.entryFields offset) = _ := resolveMethod_entry hk offset
  obtain ⟨hback, hunamb⟩ := zip64Overrides_central cf offset l₂ l₃
  have hlt₂ := l₂.toNat_lt
  have hlt₃ := l₃.toNat_lt
  have hlen : (rawFields (cf.entryFields offset)).length =
      fieldsLength (userFields cf.extraFields) + aesLength cf + zip64Length cf true offset := by
    rw [CompressedFile.entryFields, rawFields_append, rawFields_append, ← zip64ExtraData_central,
      List.length_append, List.length_append, length_rawFields, length_rawFields, length_zip64Field,
      fieldsLength_aesFields]
  refine ⟨_, _, rfl, ?_, by omega, by omega, isRecord_centralFixed offset hname hl₂ hl₃,
    fun hacc => ?_, fun d hd => ?_⟩
  · rw [CentralFixed.length_record, hlen, recordLength, centralLength, show size.central = 46 from rfl]
    omega
  · simp only [Dirent.ofCentral, parse_rawFields hfit, hback hacc.zip64, hresolve, hacc.name, bind,
      Except.bind, Bool.false_eq_true, ↓reduceIte]
    rfl
  · simp only [Dirent.ofCentral, parse_rawFields hfit] at hd
    obtain ⟨_, hok, hd⟩ := bind_ok.mp hd
    cases hok
    obtain ⟨w, hw, hd⟩ := bind_ok.mp hd
    obtain ⟨hguard, -⟩ := guard_ok.mp hd
    exact ⟨by simpa using hguard, hunamb w hw⟩

end Kzip.Impl
