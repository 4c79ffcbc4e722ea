import Kzip.Impl.Dirent

/-!
# Reading a central record back

`parseCentral_record`: parsing `CentralFixed.record`, whatever follows it, consumes the record and
gives the entry of its parts (`Dirent.ofCentral`). `ofCentral_ok` says when these make an entry, and
`isRecord_record` that the record is one a directory can be made of in any case.
-/

namespace Kzip.Impl

open Lib Lib.LE Lib.Utf8 Lib.Cursor

theorem CentralFixed.reads (f : CentralFixed) : Reads CentralFixed.read f.bytes f := by
  simp only [CentralFixed.read, CentralFixed.bytes, List.flatten_cons, List.flatten_nil]
  refine (Reads.u16 _ _).bind ((Reads.u16 _ _).bind ((Reads.u16 _ _).bind ((Reads.u16 _ _).bind
    ((Reads.u16 _ _).bind ((Reads.u16 _ _).bind ((Reads.u32 _ _).bind ((Reads.u32 _ _).bind
    ((Reads.u32 _ _).bind ((Reads.u16 _ _).bind ((Reads.u16 _ _).bind ((Reads.u16 _ _).bind
    ((Reads.u16 _ _).bind ((Reads.u16 _ _).bind ((Reads.u32 _ _).bind ((Reads.u32 _ _).bind ?_)))))))))))))))
  exact Reads.pure _

theorem CentralFixed.length_bytes (f : CentralFixed) : f.bytes.length = 42 := by
  simp [CentralFixed.bytes]

/-- Reading the fixed fields takes their bytes off the input. -/
theorem CentralFixed.read_ok {f : CentralFixed} {s r : Bytes} :
    CentralFixed.read s = .ok (f, r) ↔ s = f.bytes ++ r := by
  constructor
  · intro h
    simp only [CentralFixed.read, Cursor.bind_ok, read16, read32, u16_ok, u32_ok, pure_ok] at h
    obtain ⟨_, _, rfl, _, _, rfl, _, _, rfl, _, _, rfl, _, _, rfl, _, _, rfl, _, _, rfl, _, _, rfl, _, _,
      rfl, _, _, rfl, _, _, rfl, _, _, rfl, _, _, rfl, _, _, rfl, _, _, rfl, _, _, rfl, rfl, rfl⟩ := h
    simp only [CentralFixed.bytes, List.flatten_cons, List.flatten_nil, List.append_nil, List.append_assoc]
  · rintro rfl
    exact f.reads r

theorem CentralFixed.length_record (f : CentralFixed) (filename extra comment : Bytes) :
    (f.record filename extra comment).length =
      46 + (filename.length + extra.length + comment.length) := by
  simp only [CentralFixed.record, List.flatten_cons, List.flatten_nil, List.append_nil,
    List.length_append, f.length_bytes, show magic.central.length = 4 from rfl]
  omega

theorem readBytes_reads {len : Nat} {bs : Bytes} (h : bs.length = len) :
    Reads (readBytes len) bs (fromUtf8Lossy bs) := (Reads.take h).last

theorem readBytes_ok {len : Nat} {text : Str} {s r : Bytes} :
    readBytes len s = .ok (text, r) ↔
      ∃ bs, s = bs ++ r ∧ bs.length = len ∧ fromUtf8Lossy bs = text := by
  simp only [readBytes, Cursor.bind_ok, take_ok, pure_ok]
  constructor
  · rintro ⟨bs, _, ⟨rfl, hlen⟩, htext, rfl⟩
    exact ⟨bs, rfl, hlen, htext⟩
  · rintro ⟨bs, rfl, hlen, htext⟩
    exact ⟨bs, r, ⟨rfl, hlen⟩, htext, rfl⟩

/-- The length fields of a record are those of its variable parts. -/
structure CentralFixed.Fits (f : CentralFixed) (filename extra comment : Bytes) : Prop where
  filename : filename.length = f.filenameLen.toNat
  extra : extra.length = f.extraLen.toNat
  comment : comment.length = f.commentLen.toNat

/-- Parsing a record consumes it, and succeeds when its parts make an entry. -/
theorem parseCentral_record {f : CentralFixed} {filename extra comment : Bytes}
    (h : f.Fits filename extra comment) (rest : Bytes) :
    Dirent.parseCentral (f.record filename extra comment ++ rest) =
      (Dirent.ofCentral f (fromUtf8Lossy filename) extra (fromUtf8Lossy comment)).map (·, rest) := by
  have hhead : (magic.central ++ f.bytes).length = size.central := by
    rw [List.length_append, f.length_bytes]; rfl
  have hsplit : f.record filename extra comment ++ rest =
      (magic.central ++ f.bytes) ++ (filename ++ (extra ++ (comment ++ rest))) := by
    simp only [CentralFixed.record, List.flatten_cons, List.flatten_nil, List.append_nil,
      List.append_assoc]
  have hfixed : Reads (Cursor.within ((magic.central ++ f.bytes).drop 4) CentralFixed.read) [] f := by
    rw [show (magic.central ++ f.bytes).drop 4 = f.bytes from List.drop_left' rfl]
    simpa only [List.append_nil] using f.reads.within []
  have htake : (magic.central ++ f.bytes).take 4 = magic.central := List.take_left' rfl
  rw [hsplit, Dirent.parseCentral, (Reads.take hhead).run]
  simp only [htake, ne_eq, not_true_eq_false, ↓reduceIte]
  rw [← List.nil_append (filename ++ (extra ++ (comment ++ rest))), hfixed.run,
    (readBytes_reads h.filename).run, readRaw, (Reads.take h.extra).run,
    (readBytes_reads h.comment).run]
  rfl

/-- A parsed record is the record of some parts, which make the entry. -/
theorem parseCentral_ok {bs rest : Bytes} {d : Dirent} (h : Dirent.parseCentral bs = .ok (d, rest)) :
    ∃ f : CentralFixed, ∃ filename extra comment, bs = f.record filename extra comment ++ rest ∧
      f.Fits filename extra comment ∧
      Dirent.ofCentral f (fromUtf8Lossy filename) extra (fromUtf8Lossy comment) = .ok d := by
  simp only [Dirent.parseCentral] at h
  obtain ⟨raw, s, hraw, hrun⟩ := Cursor.bind_ok.mp h
  obtain ⟨hbs, hlen⟩ := take_ok.mp hraw
  split at hrun
  · exact absurd hrun Cursor.throw_ok
  · rename_i hmagic
    obtain ⟨f, s₁, hfixed, hparts⟩ := Cursor.bind_ok.mp hrun
    obtain ⟨⟨t, hread⟩, hs₁⟩ := within_ok.mp hfixed
    obtain ⟨name, s₂, hname, hrest⟩ := Cursor.bind_ok.mp hparts
    obtain ⟨filename, hs₂, hfilename, rfl⟩ := readBytes_ok.mp hname
    obtain ⟨extra, s₃, htake, hlast⟩ := Cursor.bind_ok.mp hrest
    obtain ⟨hs₃, hextra⟩ := take_ok.mp htake
    obtain ⟨text, s₄, htext, hentry⟩ := Cursor.bind_ok.mp hlast
    obtain ⟨comment, hs₄, hcomment, rfl⟩ := readBytes_ok.mp htext
    obtain ⟨hd, hrest⟩ := lift_ok.mp hentry
    rw [CentralFixed.read_ok] at hread
    have ht : t = [] := by
      have hl := congrArg List.length hread
      rw [List.length_drop, hlen, List.length_append, f.length_bytes] at hl
      exact List.eq_nil_of_length_eq_zero (by simp only [size.central] at hl; omega)
    have hsplit : raw = magic.central ++ f.bytes := by
      rw [← List.take_append_drop 4 raw, not_not.mp hmagic, hread, ht, List.append_nil]
    refine ⟨f, filename, extra, comment, ?_, ⟨hfilename, hextra, hcomment⟩, hd⟩
    rw [hbs, hs₁, hs₂, hs₃, hs₄, hrest, hsplit]
    simp only [CentralFixed.record, List.flatten_cons, List.flatten_nil, List.append_nil,
      List.append_assoc]

/-- The entry that the parts of a record make. -/
def CentralFixed.entry (f : CentralFixed) (filename comment : Str) (fields : List ExtraField)
    (v : Zip64Values) : Dirent :=
  let m := resolveMethod f.compMethodRaw f.bitflags fields
  { versionMadeby := f.versionMadeby, versionNeeded := f.versionNeeded, bitflags := f.bitflags,
    compMethod := m.1, lastModTime := f.lastModTime, lastModDate := f.lastModDate, crc := f.crc,
    compSize := v.compSize, uncompSize := v.uncompSize, filename, comment, diskNumber := v.disk,
    intAttrib := f.intAttrib, extAttrib := f.extAttrib, offset := v.offset, dataOffset := none,
    encryptionMethod := m.2.1, crcValid := m.2.2, extraFields := fields }

theorem ofCentral_ok {f : CentralFixed} {filename comment : Str} {extra : Bytes} {d : Dirent} :
    Dirent.ofCentral f filename extra comment = .ok d ↔
      ∃ fields v, parseExtraFields extra = .ok fields ∧ f.zip64Overrides (zip64Data fields) = .ok v ∧
        pathTraversal filename = false ∧ f.entry filename comment fields v = d := by
  simp only [Dirent.ofCentral]
  constructor
  · intro h
    obtain ⟨fields, hfields, h⟩ := bind_ok.mp h
    obtain ⟨v, hv, h⟩ := bind_ok.mp h
    obtain ⟨hname, h⟩ := guard_ok.mp h
    exact ⟨fields, v, hfields, hv, by simpa using hname, Except.ok.inj h⟩
  · rintro ⟨fields, v, hfields, hv, hname, rfl⟩
    refine bind_ok.mpr ⟨fields, hfields, bind_ok.mpr ⟨v, hv, ?_⟩⟩
    exact guard_ok.mpr ⟨by simp [hname], rfl⟩

/-! ## Records -/

/-- The bytes of a record and what parsing it gives, whatever follows it. -/
structure IsRecord (r : Bytes) (o : Result Dirent) : Prop where
  ne_nil : r ≠ []
  parse : ∀ rest, Dirent.parseCentral (r ++ rest) = o.map (·, rest)
  no_panic : o ≠ .error .panic

theorem parseExtraFieldsLoop_no_panic (n : Nat) (raw : Bytes) :
    parseExtraFieldsLoop n raw ≠ .error .panic := by
  induction n generalizing raw with
  | zero => exact nofun
  | succ n ih =>
    simp only [parseExtraFieldsLoop]
    split
    · exact nofun
    · split
      · exact nofun
      · exact bind_ne_error (ih _) fun _ _ => nofun

theorem CentralFixed.readZip64_fails (f : CentralFixed) : FailsOnly f.readZip64 (.err .incons) :=
  (FailsOnly.u64 _).readIf.bind fun _ => (FailsOnly.u64 _).readIf.bind fun _ =>
    (FailsOnly.u64 _).readIf.bind fun _ => (FailsOnly.u32 _).readIf.bind fun _ => .pure _ _

theorem CentralFixed.zip64Overrides_no_panic (f : CentralFixed) (data : Option Bytes) :
    f.zip64Overrides data ≠ .error .panic := by
  cases data with
  | none => exact nofun
  | some data => exact map_ne_error fun h => nomatch f.readZip64_fails data _ h

theorem ofCentral_no_panic {f : CentralFixed} {filename comment : Str} {extra : Bytes} :
    Dirent.ofCentral f filename extra comment ≠ .error .panic := by
  refine bind_ne_error (parseExtraFieldsLoop_no_panic _ _) fun fields _ => ?_
  refine bind_ne_error (f.zip64Overrides_no_panic _) fun v _ => ?_
  dsimp only
  split <;> exact nofun

/-- A record whose length fields are right is parsed to the entry of its parts, if they make one. -/
theorem isRecord_record {f : CentralFixed} {filename extra comment : Bytes}
    (h : f.Fits filename extra comment) : IsRecord (f.record filename extra comment)
      (Dirent.ofCentral f (fromUtf8Lossy filename) extra (fromUtf8Lossy comment)) where
  ne_nil he := by
    have hl := f.length_record filename extra comment
    rw [he, List.length_nil] at hl
    omega
  parse := parseCentral_record h
  no_panic := ofCentral_no_panic

theorem IsRecord.outcome {r : Bytes} {o : Result Dirent} (h : IsRecord r o) :
    (Dirent.parseCentral r).map (·.1) = o := by
  have hp := h.parse []
  rw [List.append_nil] at hp
  rw [hp]
  cases o <;> rfl

end Kzip.Impl
