import Kzip.Proof.EndRecords
import Kzip.Proof.Record
import Kzip.Spec.Modify

/-!
# A serialized directory is read back

`readCentralDir_serialized`: the reader finds the entries of a directory that
`CentralDir.serialize` wrote after `pre`, exactly when the directory is not too large and every entry
is readable. The entries of any directory that was read were parsed from their records
(`Dirent.IsRead`), so that the result applies to them.
-/

namespace Kzip.Impl

open Lib Lib.LE Lib.Utf8 Kzip.Spec

/-! ## Entries that were read -/

/-- What holds of every parsed entry, whatever its name. -/
structure Dirent.Parsed (d : Dirent) : Prop where
  resolved : d.Resolved
  not_cached : d.dataOffset = none

theorem Dirent.Parsed.rename {d : Dirent} (h : d.Parsed) (name : Str) :
    Dirent.Parsed { d with filename := name } := ⟨h.resolved, h.not_cached⟩

theorem parseCentral_parsed {bs rest : Bytes} {d : Dirent}
    (h : Dirent.parseCentral bs = .ok (d, rest)) : d.Parsed := by
  obtain ⟨f, filename, extra, comment, -, -, hd⟩ := parseCentral_ok h
  obtain ⟨fields, v, -, -, -, hentry⟩ := ofCentral_ok.mp hd
  exact ⟨ofCentral_resolved hd, hentry ▸ rfl⟩

/-- The entry was parsed from some record. -/
def Dirent.IsRead (d : Dirent) : Prop := ∃ bs rest, Dirent.parseCentral bs = .ok (d, rest)

theorem Dirent.IsRead.parsed {d : Dirent} (h : d.IsRead) : d.Parsed := by
  obtain ⟨bs, rest, h⟩ := h
  exact parseCentral_parsed h

theorem parseEntriesLoop_read {n : Nat} {buf : Bytes} {entries : List Dirent}
    (h : parseEntriesLoop n buf = .ok entries) : ∀ d ∈ entries, d.IsRead := by
  induction n generalizing buf entries with
  | zero => cases h; exact nofun
  | succ n ih =>
    cases buf with
    | nil => cases h; exact nofun
    | cons b bs =>
      rw [parseEntriesLoop] at h
      cases hp : Dirent.parseCentral (b :: bs) with
      | ok r =>
        obtain ⟨d, rest⟩ := r
        rw [hp] at h
        obtain ⟨ds, hds, h⟩ := bind_ok.mp h
        cases h
        exact List.forall_mem_cons.mpr ⟨⟨_, _, hp⟩, ih hds⟩
      | error e =>
        rw [hp] at h
        cases e with
        | err c => cases h; exact nofun
        | panic => cases h

theorem cdirAt_read {src : Source} {comment : Str} {n cdirSize cdirOffset : UInt64} {z : Bool}
    {cd : CentralDir} (h : cdirAt src comment n z cdirSize cdirOffset = .ok cd) :
    ∀ d ∈ cd.entries, d.IsRead := by
  obtain ⟨entries, hentries, h⟩ := bind_ok.mp h
  cases h
  simp only [readEntries] at hentries
  obtain ⟨-, hentries⟩ := guard_ok.mp hentries
  obtain ⟨-, hentries⟩ := guard_ok.mp hentries
  split at hentries
  · cases hentries
  · obtain ⟨ds, hds, hentries⟩ := bind_ok.mp hentries
    split at hentries
    · cases hentries; exact parseEntriesLoop_read hds
    · cases hentries

theorem cdirOf_read {src : Source} {comment : Str} {n : UInt16} {cdirSize cdirOffset : UInt64}
    {locator : Option UInt64} {cd : CentralDir}
    (h : cdirOf src comment n cdirSize cdirOffset locator = .ok cd) : ∀ d ∈ cd.entries, d.IsRead := by
  simp only [cdirOf, finishCdir_eq] at h
  split at h
  · exact cdirAt_read h
  · split at h
    · split at h <;> exact cdirAt_read h
    · exact cdirAt_read h

theorem firstCdir_read {src : Source} {tail : Bytes} {start : Nat} {cands : List Nat}
    {cd : CentralDir} (h : firstCdir src tail start cands = .ok (some cd)) :
    ∀ d ∈ cd.entries, d.IsRead := by
  induction cands with
  | nil => cases h
  | cons abs cands ih =>
    rw [firstCdir] at h
    obtain ⟨o, ho, h⟩ := bind_ok.mp h
    cases o with
    | none => exact ih h
    | some cd' =>
      cases h
      simp only [tryParseCdir] at ho
      split at ho
      · cases ho
      · split at ho
        · cases ho
        · split at ho
          · cases ho
          · obtain ⟨cd', hcd, h⟩ := map_ok.mp ho
            cases h
            exact cdirOf_read hcd

/-- Every entry of a directory that was read was parsed from its record. -/
theorem readCentralDir_read {src : Source} {cd : CentralDir} (h : readCentralDir src = .ok cd) :
    ∀ d ∈ cd.entries, d.IsRead := by
  simp only [readCentralDir] at h
  obtain ⟨-, h⟩ := guard_ok.mp h
  obtain ⟨o, ho, h⟩ := bind_ok.mp h
  cases o with
  | none =>
    dsimp only at h
    split at h <;> cases h
  | some cd' => cases h; exact firstCdir_read ho

theorem readCentralDir_parsed {src : Source} {cd : CentralDir} (h : readCentralDir src = .ok cd) :
    ∀ d ∈ cd.entries, d.Parsed := fun d hd => (readCentralDir_read h d hd).parsed

/-! ## The serialized directory -/

theorem serializeEntries_ok {entries : List Dirent} {cdir : Bytes}
    (h : serializeEntries entries = .ok cdir) :
    cdir = directoryBytes entries ∧ ∀ d ∈ entries, d.toCentralRecord = .ok (recordBytes d) := by
  obtain ⟨ps, rfl, hps, rfl⟩ := foldlM_append_ok.mp h
  have hrec : ∀ p ∈ ps, recordBytes p.1 = p.2 := fun p hp => by
    rw [recordBytes, hps p hp]; rfl
  refine ⟨?_, fun d hd => ?_⟩
  · rw [directoryBytes, List.nil_append, List.flatMap_map]
    exact List.flatMap_congr fun p hp => (hrec p hp).symm
  · obtain ⟨p, hp, rfl⟩ := List.mem_map.mp hd
    rw [hrec p hp, hps p hp]

/-- What parsing the record of an entry gives. -/
def Dirent.outcome (d : Dirent) : Result Dirent := (Dirent.parseCentral (recordBytes d)).map (·.1)

theorem isRecord_outcome {d : Dirent} (h : d.toCentralRecord = .ok (recordBytes d))
    (hd : d.Resolved) : IsRecord (recordBytes d) d.outcome ∧ (d.Readable → d.outcome = .ok d.reread) ∧
      ∀ d', d.outcome = .ok d' → d'.zip64Values = d.zip64Values → d.Readable := by
  obtain ⟨o, hrec, h₁, h₂⟩ := isRecord_toCentralRecord h hd
  have ho : d.outcome = o := hrec.outcome
  rw [ho]
  exact ⟨hrec, h₁, h₂⟩

theorem withoutZip64_reread {d : Dirent} (h : d.dataOffset = none) :
    withoutZip64 d.reread = withoutZip64 d := by
  have hf : d.writtenFields.filter (fun f => f.1 != extraFieldZip64) =
      d.extraFields.filter fun f => f.1 != extraFieldZip64 := by
    unfold Dirent.writtenFields
    split
    · rw [List.filter_append, List.filter_filter, List.filter_singleton]
      simp
    · rfl
  simp only [withoutZip64, Dirent.reread, hf, ← h]

/-- The entries apart from the cached offsets. -/
def uncached (d : Dirent) : Dirent := { d with dataOffset := none }

/-- The entries are the same but for the cached offset and, if a ZIP64 field is regenerated, for that
field. -/
def SameEntry (d d' : Dirent) : Prop :=
  if d.needsZip64 then withoutZip64 (uncached d') = withoutZip64 (uncached d)
  else uncached d' = uncached d

theorem uncached_reread {d : Dirent} (h : d.needsZip64 = false) : uncached d.reread = uncached d := by
  rw [uncached, uncached, Dirent.reread, Dirent.writtenFields, h]
  rfl

theorem sameEntry_reread {d : Dirent} (h : d.dataOffset = none) : SameEntry d d.reread := by
  unfold SameEntry
  split
  · have hd : uncached d = d := by rw [uncached, ← h]
    have hr : uncached d.reread = d.reread := rfl
    rw [hd, hr]
    exact withoutZip64_reread h
  · rename_i hz
    exact uncached_reread (by simpa using hz)

theorem zip64Values_of_sameEntry {d d' : Dirent} (h : SameEntry d d') :
    d'.zip64Values = d.zip64Values := by
  unfold SameEntry at h
  split at h
  · exact (congrArg Dirent.zip64Values h :)
  · exact (congrArg Dirent.zip64Values h :)

theorem outcomes_of_readable {entries : List Dirent}
    (hrec : ∀ d ∈ entries, d.toCentralRecord = .ok (recordBytes d)) (hp : ∀ d ∈ entries, d.Parsed)
    (h : ∀ d ∈ entries, d.Readable) :
    entries.map Dirent.outcome = (entries.map Dirent.reread).map .ok := by
  rw [List.map_map]
  exact List.map_congr_left fun d hd =>
    (isRecord_outcome (hrec d hd) (hp d hd).resolved).2.1 (h d hd)

/-- The entries are all found again exactly when they are all readable. -/
theorem okPrefix_outcomes {entries : List Dirent}
    (hrec : ∀ d ∈ entries, d.toCentralRecord = .ok (recordBytes d)) (hp : ∀ d ∈ entries, d.Parsed) :
    List.Forall₂ SameEntry entries (okPrefix (entries.map Dirent.outcome)) ↔
      ∀ d ∈ entries, d.Readable := by
  constructor
  · intro h
    have hlen : (okPrefix (entries.map Dirent.outcome)).length = entries.length := h.length_eq.symm
    have hfull := okPrefix_full (entries.map Dirent.outcome) (by rw [List.length_map, hlen])
    intro d hd
    obtain ⟨i, hi, rfl⟩ := List.mem_iff_getElem.mp hd
    have hi' : i < (okPrefix (entries.map Dirent.outcome)).length := by rw [hlen]; exact hi
    have hout : entries[i].outcome = .ok ((okPrefix (entries.map Dirent.outcome))[i]) := by
      have := List.getElem_of_eq hfull (i := i) (by rwa [List.length_map])
      simpa only [List.getElem_map] using this
    have hsame : SameEntry entries[i] (okPrefix (entries.map Dirent.outcome))[i] := h.get hi hi'
    exact (isRecord_outcome (hrec _ hd) (hp _ hd).resolved).2.2 _ hout (zip64Values_of_sameEntry hsame)
  · intro h
    rw [outcomes_of_readable hrec hp h, okPrefix_map_ok, List.forall₂_map_right_iff]
    exact List.forall₂_same.mpr fun d hd => sameEntry_reread (hp d hd).not_cached

/-- The end record written after `pre` and the directory is the one a reader uses. -/
def CentralDir.TailSafe (cd : CentralDir) (kind : SourceKind) (pre : Bytes) : Prop :=
  Impl.TailSafe kind (cd.needZip64 (UInt64.ofNat (directoryBytes cd.entries).length))
    cd.entries.length (UInt64.ofNat (directoryBytes cd.entries).length) cd.cdirOffset
    (asBytes cd.comment) (pre ++ directoryBytes cd.entries)

theorem not_needZip64 {cd : CentralDir} {cdirSize : UInt64} (h : cd.needZip64 cdirSize = false) :
    cd.entries.length ≤ 0xFFFF ∧ cdirSize ≤ u32Max ∧ cd.cdirOffset ≤ u32Max := by
  simp only [CentralDir.needZip64, Bool.or_eq_false_iff, decide_eq_false_iff_not, gt_iff_lt,
    Nat.not_lt, UInt64.not_lt] at h
  exact ⟨h.1.1.1.2, h.1.1.2, h.1.2⟩

/-- A serialized directory: the records, and the end records that go after them. -/
theorem serialize_ok {X : Extern} {cd : CentralDir} {s : Bytes} (h : cd.serialize X = .ok s) :
    (∀ d ∈ cd.entries, d.toCentralRecord = .ok (recordBytes d)) ∧ directoryBytes cd.entries <+: s ∧
      ∀ pre, writeEndRecords X (cd.needZip64 (UInt64.ofNat (directoryBytes cd.entries).length))
        cd.entries.length (UInt64.ofNat (directoryBytes cd.entries).length) cd.cdirOffset
        (asBytes cd.comment) (pre ++ directoryBytes cd.entries) = .ok (pre ++ s) := by
  obtain ⟨cdir, hcdir, hend⟩ := bind_ok.mp h
  obtain ⟨rfl, hrec⟩ := serializeEntries_ok hcdir
  obtain ⟨e, rfl, happend⟩ := writeEndRecords_ok hend
  exact ⟨hrec, List.prefix_append _ _, happend⟩

/-- What the reader makes of a serialized directory: all the entries, unless a record is refused or the
directory is too large. -/
theorem readCentralDir_outcomes {X : Extern} {kind : SourceKind} {cd : CentralDir} {pre s : Bytes}
    (hs : cd.serialize X = .ok s) (hpre : pre.length = cd.cdirOffset.toNat)
    (hlen : (pre ++ s).length < 2 ^ 63) (hp : ∀ d ∈ cd.entries, d.Parsed)
    (hsafe : cd.TailSafe kind pre) :
    (∀ d ∈ cd.entries, d.toCentralRecord = .ok (recordBytes d)) ∧
    ∃ z, readCentralDir { kind, bytes := pre ++ s } =
      if (directoryBytes cd.entries).length ≤ 2 ^ 30 then
        if (okPrefix (cd.entries.map Dirent.outcome)).length = cd.entries.length then
          .ok { entries := okPrefix (cd.entries.map Dirent.outcome),
                comment := fromUtf8Lossy (asBytes cd.comment), isZip64 := z,
                cdirSize := UInt64.ofNat (directoryBytes cd.entries).length,
                cdirOffset := UInt64.ofNat pre.length }
        else .error (.err .incons)
      else .error (.err .centralDirTooLarge) := by
  obtain ⟨hrec, -, happend⟩ := serialize_ok hs
  have hoff : cd.cdirOffset = UInt64.ofNat pre.length := by rw [hpre, UInt64.ofNat_toNat]
  have hflat : (cd.entries.map fun d => (recordBytes d, d.outcome)).flatMap (·.1) =
      directoryBytes cd.entries := by rw [List.flatMap_map]; rfl
  have hmap : (cd.entries.map fun d => (recordBytes d, d.outcome)).map (·.2) =
      cd.entries.map Dirent.outcome := by rw [List.map_map]; rfl
  have hrecs : ∀ p ∈ cd.entries.map fun d => (recordBytes d, d.outcome), IsRecord p.1 p.2 := by
    intro p hmem
    obtain ⟨d, hd, rfl⟩ := List.mem_map.mp hmem
    exact (isRecord_outcome (hrec d hd) (hp d hd).resolved).1
  obtain ⟨z, hread⟩ := readCentralDir_records (X := X) { kind, bytes := pre ++ s }
    (z := cd.needZip64 (UInt64.ofNat (directoryBytes cd.entries).length)) _ hflat hrecs hlen
    (by rw [List.length_map, ← hoff]; exact happend pre)
    (by rw [List.length_map, ← hoff]; exact not_needZip64)
    (by rw [List.length_map, ← hoff]; exact hsafe)
  rw [hmap, List.length_map] at hread
  exact ⟨hrec, z, hread⟩

/-- The reader finds the entries of a serialized directory exactly when the directory is not too
large and every entry is readable. -/
theorem readCentralDir_serialized {X : Extern} {kind : SourceKind} {cd : CentralDir} {pre s : Bytes}
    (hs : cd.serialize X = .ok s) (hpre : pre.length = cd.cdirOffset.toNat)
    (hlen : (pre ++ s).length < 2 ^ 63) (hp : ∀ d ∈ cd.entries, d.Parsed)
    (hsafe : cd.TailSafe kind pre) :
    (∃ cd', readCentralDir { kind, bytes := pre ++ s } = .ok cd' ∧
        List.Forall₂ SameEntry cd.entries cd'.entries) ↔
      (directoryBytes cd.entries).length ≤ 2 ^ 30 ∧ ∀ d ∈ cd.entries, d.Readable := by
  obtain ⟨hrec, z, hread⟩ := readCentralDir_outcomes hs hpre hlen hp hsafe
  rw [hread, ← okPrefix_outcomes hrec hp]
  constructor
  · rintro ⟨cd', h, hw⟩
    split at h
    · rename_i hmax
      split at h
      · cases h
        exact ⟨hmax, hw⟩
      · cases h
    · cases h
  · rintro ⟨hmax, hw⟩
    have hl : (okPrefix (cd.entries.map Dirent.outcome)).length = cd.entries.length := hw.length_eq.symm
    rw [if_pos hmax, if_pos hl]
    exact ⟨_, rfl, hw⟩

/-- A serialized directory of readable entries is read back. -/
theorem readCentralDir_readable {X : Extern} (kind : SourceKind) {cd : CentralDir} {pre s : Bytes}
    (hs : cd.serialize X = .ok s) (hpre : pre.length = cd.cdirOffset.toNat)
    (hlen : (pre ++ s).length < 2 ^ 63) (hp : ∀ d ∈ cd.entries, d.Parsed)
    (hsafe : cd.TailSafe kind pre) (hmax : (directoryBytes cd.entries).length ≤ 2 ^ 30)
    (hreadable : ∀ d ∈ cd.entries, d.Readable) :
    ∃ cd', readCentralDir { kind, bytes := pre ++ s } = .ok cd' ∧
      cd'.entries = cd.entries.map Dirent.reread := by
  obtain ⟨hrec, z, hread⟩ := readCentralDir_outcomes hs hpre hlen hp hsafe
  have hout := outcomes_of_readable hrec hp hreadable
  rw [hread, hout, okPrefix_map_ok, if_pos hmax, if_pos (List.length_map _)]
  exact ⟨_, rfl, rfl⟩

end Kzip.Impl
