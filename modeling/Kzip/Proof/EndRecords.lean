import Kzip.Proof.Cdir

/-!
# The end records are found again

`readCentralDir_written`: what `writeEndRecords` puts after a directory leads the reader to that
directory, with its size, offset and number of records, in the plain and in the ZIP64 form.
-/

namespace Kzip.Impl

open Lib Lib.LE Lib.Utf8

/-- The end record of a directory, in the plain or in the ZIP64 form. -/
def endRecordOf (z : Bool) (n : Nat) (cdirSize cdirOffset : UInt64) (comment : Bytes) : Bytes :=
  if z then endRecord 0xFFFF 0xFFFFFFFF 0xFFFFFFFF comment
  else endRecord (UInt16.ofNat n) cdirSize.toUInt32 cdirOffset.toUInt32 comment

/-- The end record written after `body` is the one a reader uses: the comment fits its length field,
no later signature is looked at, and `body` does not end like a ZIP64 locator that leads to a ZIP64
end record. -/
structure TailSafe (kind : SourceKind) (z : Bool) (n : Nat) (cdirSize cdirOffset : UInt64)
    (comment body : Bytes) : Prop where
  comment_fits : comment.length ≤ 0xFFFF
  last : LastSignature (endRecordOf z n cdirSize cdirOffset comment) 0
  no_locator : z = false → ∀ o, locatorBefore body body.length = some o →
    readEocd64 { kind, bytes := body ++ endRecordOf z n cdirSize cdirOffset comment } o = none

theorem LastSignature.append {body e : Bytes} (h : LastSignature e 0) :
    LastSignature (body ++ e) body.length := by
  intro q hq hlen hsig
  have hdrop : (body ++ e).drop q = e.drop (q - body.length) := by
    rw [List.drop_append, List.drop_of_length_le (by omega), List.nil_append]
  rw [List.length_append] at hlen
  rw [hdrop] at hsig
  have := h (q - body.length) (by omega) (by omega) hsig
  simp only [Skipped, hdrop, List.length_append] at this ⊢
  refine this.imp_left fun h => by omega

theorem endRecordOf_length (z : Bool) (n : Nat) (cdirSize cdirOffset : UInt64) (comment : Bytes) :
    (endRecordOf z n cdirSize cdirOffset comment).length = 22 + comment.length := by
  cases z <;> exact length_endRecord _ _ _ _

theorem endRecord_eq_cons (n : UInt16) (size offset : UInt32) (comment : Bytes) :
    ∃ rest, endRecord n size offset comment = 0x50 :: 0x4B :: 0x05 :: 0x06 :: rest :=
  ⟨_, List.flatten_cons⟩

/-- An end record starts with its signature, which holds no other. -/
theorem endRecordOf_first {z : Bool} {n : Nat} {cdirSize cdirOffset : UInt64} {comment : Bytes} {q : Nat}
    (hq : 0 < q) (hlen : q < 4) :
    ((endRecordOf z n cdirSize cdirOffset comment).drop q).take 4 ≠ magic.eocd := by
  obtain ⟨rest, hrest⟩ : ∃ rest,
      endRecordOf z n cdirSize cdirOffset comment = 0x50 :: 0x4B :: 0x05 :: 0x06 :: rest := by
    rw [endRecordOf]
    split
    · exact endRecord_eq_cons _ _ _ _
    · exact endRecord_eq_cons _ _ _ _
  intro hsig
  rw [hrest] at hsig
  have hhead := congrArg (·.head?) hsig
  obtain rfl | rfl | rfl : q = 1 ∨ q = 2 ∨ q = 3 := by omega
  · cases hhead
  · cases hhead
  · cases hhead

/-- In a short comment no signature fits. -/
theorem TailSafe.of_short_comment {kind : SourceKind} {z : Bool} {n : Nat} {cdirSize cdirOffset : UInt64}
    {comment body : Bytes} (hlen : comment.length < 4)
    (h : z = false → locatorBefore body body.length = none) :
    TailSafe kind z n cdirSize cdirOffset comment body where
  comment_fits := by omega
  last q hq hq' hsig := by
    rw [endRecordOf_length, show size.eocd = 22 from rfl] at hq'
    exact absurd hsig (endRecordOf_first hq (by omega))
  no_locator hz o ho := by rw [h hz] at ho; cases ho

/-- Without a comment no signature fits after the end record. -/
theorem TailSafe.of_no_comment {kind : SourceKind} {z : Bool} {n : Nat} {cdirSize cdirOffset : UInt64}
    {body : Bytes} (h : z = false → locatorBefore body body.length = none) :
    TailSafe kind z n cdirSize cdirOffset [] body :=
  .of_short_comment (by decide) h

theorem finishCdir_eq (src : Source) (comment : Str) (n : UInt16) (z : Bool)
    (cdirSize cdirOffset : UInt64) :
    finishCdir src comment n z cdirSize cdirOffset =
      cdirAt src comment n.toUInt64 z cdirSize cdirOffset := by
  unfold finishCdir
  split
  · rename_i h
    obtain ⟨rfl, rfl, rfl⟩ := h
    have hseek : src.canSeek 0 = true := src.canSeek_of_lt (by omega)
    simp only [cdirAt, readEntries, Source.readExact, show ¬ (0 : UInt64) > maxCdSize by decide,
      show (0 : UInt64).toNat = 0 from rfl, hseek, Bool.not_true, Bool.false_eq_true, ↓reduceIte]
    rfl
  · rfl

theorem toUInt32_toUInt64 {v : UInt64} (h : v ≤ u32Max) : v.toUInt32.toUInt64 = v := by
  have h1 : u32Max.toNat = 0xFFFFFFFF := rfl
  rw [UInt64.le_iff_toNat_le, h1] at h
  rw [← UInt64.toNat_inj, UInt32.toNat_toUInt64, UInt64.toNat_toUInt32]
  omega

theorem ofNat16_toUInt64 {n : Nat} (h : n ≤ 0xFFFF) : (UInt16.ofNat n).toUInt64 = UInt64.ofNat n := by
  rw [← UInt64.toNat_inj, UInt16.toNat_toUInt64, UInt16.toNat_ofNat', UInt64.toNat_ofNat']
  omega

theorem writeEocd_eq (n : UInt16) (cdirSize cdirOffset : UInt64) (comment out : Bytes) :
    writeEocd n cdirSize cdirOffset comment out =
      out ++ endRecord n cdirSize.toUInt32 cdirOffset.toUInt32 comment := rfl

theorem writeEocdZip64Sentinel_eq (comment out : Bytes) :
    writeEocdZip64Sentinel comment out = out ++ endRecord 0xFFFF 0xFFFFFFFF 0xFFFFFFFF comment := rfl

/-- The end records are appended to what precedes them. -/
theorem writeEndRecords_ok {X : Extern} {z : Bool} {n : Nat} {cdirSize cdirOffset : UInt64}
    {comment out r : Bytes} (h : writeEndRecords X z n cdirSize cdirOffset comment out = .ok r) :
    ∃ e, r = out ++ e ∧ ∀ pre, writeEndRecords X z n cdirSize cdirOffset comment (pre ++ out) =
      .ok (pre ++ r) := by
  cases z with
  | false =>
    simp only [writeEndRecords, Bool.false_eq_true, ↓reduceIte, Except.ok.injEq, writeEocd_eq] at h ⊢
    subst h
    exact ⟨_, rfl, fun pre => List.append_assoc _ _ _⟩
  | true =>
    obtain ⟨o, ho, h⟩ := bind_ok.mp (show (addU64 X cdirOffset cdirSize >>= _) = _ from h)
    cases h
    simp only [writeEndRecords, ↓reduceIte, bind_ok, writeEocdZip64Sentinel, writeEocd64Locator,
      writeEocd64, List.append_assoc]
    exact ⟨_, rfl, fun pre => ⟨o, ho, rfl⟩⟩

/-- The locator that was written is found, with the offset in it. -/
theorem locatorBefore_written (o : UInt64) (body : Bytes) :
    locatorBefore (writeEocd64Locator o body) (writeEocd64Locator o body).length = some o := by
  have hlen : (writeEocd64Locator o body).length - size.eocd64Locator = body.length := by
    simp only [writeEocd64Locator, List.length_append, List.flatten_cons, List.flatten_nil,
      List.append_nil, length_le32, length_le64, show magic.eocd64Locator.length = 4 from rfl,
      show size.eocd64Locator = 20 from rfl]
    omega
  have hdrop : (writeEocd64Locator o body).drop body.length =
      magic.eocd64Locator ++ le32 0 ++ (le64 o ++ le32 1) := by
    rw [writeEocd64Locator, List.drop_left]
    simp only [List.flatten_cons, List.flatten_nil, List.append_nil, List.append_assoc]
  have hge : size.eocd64Locator ≤ (writeEocd64Locator o body).length := by
    simp only [writeEocd64Locator, List.length_append, List.flatten_cons, List.flatten_nil,
      List.append_nil, length_le32, length_le64, show magic.eocd64Locator.length = 4 from rfl,
      show size.eocd64Locator = 20 from rfl]
    omega
  rw [locatorBefore, hlen, hdrop, if_pos ⟨hge, rfl⟩]
  exact congrArg some (le64At_append (magic.eocd64Locator ++ le32 0) o (le32 1))

/-- The ZIP64 end record that was written is read back. -/
theorem readEocd64_written (src : Source) {body rest : Bytes} {n cdirSize cdirOffset o : UInt64}
    (hb : src.bytes = writeEocd64 n cdirSize cdirOffset body ++ rest) (ho : o.toNat = body.length)
    (hseek : src.canSeek o.toNat = true) :
    readEocd64 src o = some { cdirSize, cdirOffset, numEntries := n } := by
  have hdrop : src.bytes.drop body.length = [magic.eocd64, le64 44, le16 45, le16 45, le32 0, le32 0,
      le64 n, le64 n, le64 cdirSize, le64 cdirOffset].flatten ++ rest := by
    rw [hb, writeEocd64, List.append_assoc, List.drop_left]
  have hrec : [magic.eocd64, le64 44, le16 45, le16 45, le32 0, le32 0, le64 n, le64 n, le64 cdirSize,
      le64 cdirOffset].flatten.length = 56 := by
    simp [show magic.eocd64.length = 4 from rfl]
  have hlen : o.toNat + size.eocd64 ≤ src.bytes.length := by
    rw [hb, writeEocd64, List.length_append, List.length_append, hrec, ho,
      show size.eocd64 = 56 from rfl]
    omega
  rw [readEocd64, if_pos hseek, Source.readExact_ok hlen, ho, hdrop]
  simp only [show size.eocd64 = 56 from rfl, List.take_left' hrec]
  simp only [List.flatten_cons, List.flatten_nil, List.append_nil]
  rw [if_neg fun h => h (List.take_left' rfl)]
  refine congrArg some ?_
  rw [Zip64Eocd.mk.injEq]
  refine ⟨?_, ?_, ?_⟩
  · exact le64At_append (magic.eocd64 ++ le64 44 ++ le16 45 ++ le16 45 ++ le32 0 ++ le32 0 ++ le64 n ++
      le64 n) cdirSize (le64 cdirOffset)
  · have h := le64At_append (magic.eocd64 ++ le64 44 ++ le16 45 ++ le16 45 ++ le32 0 ++ le32 0 ++
      le64 n ++ le64 n ++ le64 cdirSize) cdirOffset []
    rw [List.append_nil] at h
    exact h
  · exact le64At_append (magic.eocd64 ++ le64 44 ++ le16 45 ++ le16 45 ++ le32 0 ++ le32 0 ++ le64 n) n _

/-- What the end records lead the reader to. -/
theorem readCentralDir_written {X : Extern} (src : Source) {pre cdir comment : Bytes} {z : Bool}
    {n : Nat} (hlen : src.bytes.length < 2 ^ 63)
    (hout : writeEndRecords X z n (UInt64.ofNat cdir.length) (UInt64.ofNat pre.length) comment
      (pre ++ cdir) = .ok src.bytes)
    (hplain : z = false → n ≤ 0xFFFF ∧ UInt64.ofNat cdir.length ≤ u32Max ∧
      UInt64.ofNat pre.length ≤ u32Max)
    (hsafe : TailSafe src.kind z n (UInt64.ofNat cdir.length) (UInt64.ofNat pre.length) comment
      (pre ++ cdir)) :
    ∃ z', readCentralDir src = cdirAt src (fromUtf8Lossy comment) (UInt64.ofNat n) z'
      (UInt64.ofNat cdir.length) (UInt64.ofNat pre.length) := by
  have hlast := hsafe.last
  cases z with
  | false =>
    obtain ⟨hn, hsize, hoff⟩ := hplain rfl
    have hb : src.bytes = (pre ++ cdir) ++ endRecord (UInt16.ofNat n)
        (UInt64.ofNat cdir.length).toUInt32 (UInt64.ofNat pre.length).toUInt32 comment := by
      simpa only [writeEndRecords, Bool.false_eq_true, ↓reduceIte, Except.ok.injEq, writeEocd_eq,
        eq_comm] using hout
    have hread := readCentralDir_endRecord hb hsafe.comment_fits (by rw [hb]; exact hlast.append)
    rw [toUInt32_toUInt64 hsize, toUInt32_toUInt64 hoff] at hread
    refine ⟨(locatorBefore (pre ++ cdir) (pre ++ cdir).length).isSome, ?_⟩
    cases hl : locatorBefore (pre ++ cdir) (pre ++ cdir).length with
    | none =>
      simp only [hread, hl, cdirOf, finishCdir_eq, ofNat16_toUInt64 hn, Option.isSome_none]
    | some o =>
      have hnone : readEocd64 src o = none := by
        have h := hsafe.no_locator rfl o hl
        rwa [show pre ++ cdir ++ endRecordOf false n (UInt64.ofNat cdir.length)
          (UInt64.ofNat pre.length) comment = src.bytes from hb.symm] at h
      simp only [hread, hl, cdirOf, hnone, finishCdir_eq, ofNat16_toUInt64 hn, Option.isSome_some]
  | true =>
    obtain ⟨o, ho, hb⟩ := bind_ok.mp (show (addU64 X (UInt64.ofNat pre.length)
      (UInt64.ofNat cdir.length) >>= _) = _ from hout)
    have hb : src.bytes = writeEocd64Locator o (writeEocd64 (UInt64.ofNat n)
        (UInt64.ofNat cdir.length) (UInt64.ofNat pre.length) (pre ++ cdir)) ++
        endRecord 0xFFFF 0xFFFFFFFF 0xFFFFFFFF comment := by
      simpa only [Except.ok.injEq, writeEocdZip64Sentinel_eq, eq_comm] using hb
    have hle : pre.length + cdir.length ≤ src.bytes.length := by
      rw [hb, writeEocd64Locator, writeEocd64]
      simp only [List.length_append]
      omega
    have hpre : (UInt64.ofNat pre.length).toNat = pre.length :=
      UInt64.toNat_ofNat_of_lt' (by rw [UInt64.size]; omega)
    have hcd : (UInt64.ofNat cdir.length).toNat = cdir.length :=
      UInt64.toNat_ofNat_of_lt' (by rw [UInt64.size]; omega)
    have hsum : o.toNat = (pre ++ cdir).length := by
      rw [addU64, if_pos (by rw [hpre, hcd]; omega)] at ho
      cases ho
      rw [UInt64.toNat_add, hpre, hcd, List.length_append]
      omega
    have hseek : src.canSeek o.toNat = true := src.canSeek_of_lt (by
      rw [hsum, List.length_append]; omega)
    have hz := readEocd64_written src (by rw [hb, writeEocd64Locator, List.append_assoc]) hsum hseek
    have hread := readCentralDir_endRecord hb hsafe.comment_fits (by rw [hb]; exact hlast.append)
    refine ⟨true, ?_⟩
    simp only [hread, locatorBefore_written, cdirOf, hz, ↓reduceIte]

theorem ofNat_le_maxCdSize {n : Nat} (h : n < 2 ^ 63) : UInt64.ofNat n ≤ maxCdSize ↔ n ≤ 2 ^ 30 := by
  rw [UInt64.le_iff_toNat_le, UInt64.toNat_ofNat_of_lt' (by rw [UInt64.size]; omega)]
  rfl

/-- What the reader makes of records followed by their end records: all the entries, unless a record
is refused or the directory is too large. -/
theorem readCentralDir_records {X : Extern} (src : Source) {pre cdir comment : Bytes} {z : Bool}
    (recs : List (Bytes × Result Dirent)) (hcdir : recs.flatMap (·.1) = cdir)
    (hrecs : ∀ p ∈ recs, IsRecord p.1 p.2) (hlen : src.bytes.length < 2 ^ 63)
    (hout : writeEndRecords X z recs.length (UInt64.ofNat cdir.length) (UInt64.ofNat pre.length)
      comment (pre ++ cdir) = .ok src.bytes)
    (hplain : z = false → recs.length ≤ 0xFFFF ∧ UInt64.ofNat cdir.length ≤ u32Max ∧
      UInt64.ofNat pre.length ≤ u32Max)
    (hsafe : TailSafe src.kind z recs.length (UInt64.ofNat cdir.length) (UInt64.ofNat pre.length)
      comment (pre ++ cdir)) :
    ∃ z', readCentralDir src =
      if cdir.length ≤ 2 ^ 30 then
        if (okPrefix (recs.map (·.2))).length = recs.length then
          .ok { entries := okPrefix (recs.map (·.2)), comment := fromUtf8Lossy comment, isZip64 := z',
                cdirSize := UInt64.ofNat cdir.length, cdirOffset := UInt64.ofNat pre.length }
        else .error (.err .incons)
      else .error (.err .centralDirTooLarge) := by
  subst hcdir
  obtain ⟨z', hread⟩ := readCentralDir_written src hlen hout hplain hsafe
  obtain ⟨e, hb, -⟩ := writeEndRecords_ok hout
  rw [List.append_assoc] at hb
  have hle : pre.length + (recs.flatMap (·.1)).length ≤ src.bytes.length := by
    rw [hb, List.length_append, List.length_append]; omega
  have hnum := length_le_flatMap_fst hrecs
  have hnat {n : Nat} (h : n < 2 ^ 63) : (UInt64.ofNat n).toNat = n :=
    UInt64.toNat_ofNat_of_lt' (by rw [UInt64.size]; omega)
  refine ⟨z', ?_⟩
  rw [hread, cdirAt]
  by_cases hmax : (recs.flatMap (·.1)).length ≤ 2 ^ 30
  · have hseek : src.canSeek (UInt64.ofNat pre.length).toNat = true :=
      src.canSeek_of_lt (by rw [hnat (by omega)]; omega)
    have hle' := length_okPrefix_le (recs.map (·.2))
    rw [List.length_map] at hle'
    -- no more entries than records, so that the count modulo `2 ^ 16` says nothing new
    have hcount : (okPrefix (recs.map (·.2))).length = (UInt64.ofNat recs.length).toNat ∨
        (okPrefix (recs.map (·.2))).length % 0x10000 = (UInt64.ofNat recs.length).toNat ↔
        (okPrefix (recs.map (·.2))).length = recs.length := by
      rw [hnat (by omega)]
      omega
    rw [readEntries_records recs hb hrecs (hnat (by omega)) (hnat (by omega))
      ((ofNat_le_maxCdSize (by omega)).mpr hmax) hseek, if_pos hmax]
    simp only [hcount]
    split <;> rfl
  · rw [if_neg hmax, readEntries,
      if_pos (UInt64.not_le.mp (mt (ofNat_le_maxCdSize (by omega)).mp hmax))]
    rfl

end Kzip.Impl
