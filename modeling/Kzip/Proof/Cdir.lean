import Kzip.Impl.Cdir
import Kzip.Proof.Dirent

/-!
# Reading a directory

Three steps of `readCentralDir`, each as an equation:

* `readCentralDir_of_last`: the search ends at the last end record that is not skipped;
* `readCentralDir_endRecord`: what the reader makes of an end record that was written (`endRecord`);
* `readEntries_records`: a region of records is read up to the first one that is refused.
-/

namespace Kzip.Impl

open Lib Lib.LE Lib.Utf8

/-! ## Little-endian fields of a slice -/

theorem le16At_append (a : Bytes) (x : UInt16) (b : Bytes) :
    le16At (a ++ (le16 x ++ b)) a.length = x := by
  rw [le16At, List.drop_left, List.take_left' (length_le16 x), u16_le16]

theorem le32At_append (a : Bytes) (x : UInt32) (b : Bytes) :
    le32At (a ++ (le32 x ++ b)) a.length = x := by
  rw [le32At, List.drop_left, List.take_left' (length_le32 x), u32_le32]

theorem le64At_append (a : Bytes) (x : UInt64) (b : Bytes) :
    le64At (a ++ (le64 x ++ b)) a.length = x := by
  rw [le64At, List.drop_left, List.take_left' (length_le64 x), u64_le64]

/-! ## The search -/

/-- Where the searched tail of a source begins. -/
def tailStart (bytes : Bytes) : Nat := bytes.length - min bytes.length maxCdBuffer

/-- The end-record signature at `p` is passed over: its comment does not fit, or it is of a
multi-disk archive. -/
def Skipped (bytes : Bytes) (p : Nat) : Prop :=
  bytes.length < p + size.eocd + (le16At (bytes.drop p) 20).toNat ∨
    le16At (bytes.drop p) 4 ≠ 0 ∨ le16At (bytes.drop p) 6 ≠ 0

/-- No end-record signature after position `p` is looked at. -/
def LastSignature (bytes : Bytes) (p : Nat) : Prop :=
  ∀ q, p < q → q + size.eocd ≤ bytes.length → (bytes.drop q).take 4 = magic.eocd → Skipped bytes q

theorem le16At_take {bs : Bytes} {i n : Nat} (h : i + 2 ≤ n) :
    le16At (bs.take n) i = le16At bs i := by
  rw [le16At, le16At, List.drop_take, List.take_take, Nat.min_eq_left (by omega)]

theorem le32At_take {bs : Bytes} {i n : Nat} (h : i + 4 ≤ n) :
    le32At (bs.take n) i = le32At bs i := by
  rw [le32At, le32At, List.drop_take, List.take_take, Nat.min_eq_left (by omega)]

/-- An end-record signature that is searched for. -/
structure Candidate (src : Source) (p : Nat) : Prop where
  window : tailStart src.bytes ≤ p
  fits : p + size.eocd ≤ src.bytes.length
  signature : (src.bytes.drop p).take 4 = magic.eocd

instance (bytes : Bytes) (p : Nat) : Decidable (Skipped bytes p) :=
  inferInstanceAs (Decidable (_ ∨ _ ∨ _))

/-- The directory that the end record at `p` leads to. -/
def directoryAt (src : Source) (p : Nat) : Result CentralDir :=
  let e := src.bytes.drop p
  cdirOf src (fromUtf8Lossy ((e.drop size.eocd).take (le16At e 20).toNat)) (le16At e 10)
    (le32At e 12).toUInt64 (le32At e 16).toUInt64
    (locatorBefore (src.bytes.drop (tailStart src.bytes)) (p - tailStart src.bytes))

/-- `try_parse_cdir` on a candidate of the tail. -/
def tryParseAt (src : Source) (p : Nat) : Result (Option CentralDir) :=
  tryParseCdir src (src.bytes.drop (tailStart src.bytes)) (tailStart src.bytes) p

/-- A candidate is passed over, or its directory is read. -/
theorem tryParseAt_eq {src : Source} {p : Nat} (h : Candidate src p) :
    tryParseAt src p =
      if Skipped src.bytes p then .ok none else (directoryAt src p).map some := by
  have hwin := h.window
  have hfits := h.fits
  have he : size.eocd = 22 := rfl
  have hdrop : (src.bytes.drop (tailStart src.bytes)).drop (p - tailStart src.bytes) =
      src.bytes.drop p := by rw [List.drop_drop]; congr 1; omega
  have hdrop' : (src.bytes.drop (tailStart src.bytes)).drop (p - tailStart src.bytes + 22) =
      (src.bytes.drop p).drop 22 := by rw [← List.drop_drop, hdrop]
  have htail : (src.bytes.drop (tailStart src.bytes)).length =
      src.bytes.length - tailStart src.bytes := List.length_drop
  simp only [tryParseAt, tryParseCdir, directoryAt, Skipped, hdrop, hdrop', htail, he] at hfits ⊢
  rw [if_neg (by omega)]
  simp only [le16At_take (show 4 + 2 ≤ 22 by omega), le16At_take (show 6 + 2 ≤ 22 by omega),
    le16At_take (show 10 + 2 ≤ 22 by omega), le16At_take (show 20 + 2 ≤ 22 by omega),
    le32At_take (show 12 + 4 ≤ 22 by omega), le32At_take (show 16 + 4 ≤ 22 by omega)]
  by_cases hcomment : src.bytes.length < p + 22 + (le16At (src.bytes.drop p) 20).toNat
  · rw [if_pos (by omega), if_pos (.inl hcomment)]
  · rw [if_neg (by omega)]
    by_cases hdisk : le16At (src.bytes.drop p) 4 ≠ 0 ∨ le16At (src.bytes.drop p) 6 ≠ 0
    · rw [if_pos hdisk, if_pos (.inr hdisk)]
    · rw [if_neg hdisk, if_neg (not_or.mpr ⟨hcomment, hdisk⟩)]

/-- The search stops at the first candidate that is not passed over. -/
theorem firstCdir_of_last {src : Source} {tail : Bytes} {start i : Nat} {x : Result CentralDir}
    {sig : Nat → Bool} (hi : sig i = true) (hx : tryParseCdir src tail start (start + i) = x.map some)
    {n : Nat} (hn : i < n) (hskip : ∀ j, i < j → j < n → sig j = true →
      tryParseCdir src tail start (start + j) = .ok none) :
    firstCdir src tail start (((List.range n).reverse.filter sig).map (start + ·)) = x.map some := by
  induction n with
  | zero => omega
  | succ n ih =>
    rw [List.range_succ, List.reverse_append, List.reverse_singleton, List.singleton_append]
    by_cases hin : i = n
    · subst hin
      rw [List.filter_cons_of_pos hi, List.map_cons, firstCdir, hx]
      cases x <;> rfl
    · have ih := ih (by omega) fun j hj hjn => hskip j hj (by omega)
      by_cases hs : sig n = true
      · rw [List.filter_cons_of_pos hs, List.map_cons, firstCdir, hskip n (by omega) (by omega) hs]
        exact ih
      · rw [List.filter_cons_of_neg hs]
        exact ih

/-- The directory of a source is the one its last end record leads to. -/
theorem readCentralDir_of_last {src : Source} {p : Nat} (h : Candidate src p)
    (hskip : ¬ Skipped src.bytes p) (hlast : LastSignature src.bytes p) :
    readCentralDir src = directoryAt src p := by
  have hwin := h.window
  have hfits := h.fits
  have he : size.eocd = 22 := rfl
  have hp : tailStart src.bytes + (p - tailStart src.bytes) = p := by omega
  have hdrop (j : Nat) : (src.bytes.drop (tailStart src.bytes)).drop j =
      src.bytes.drop (tailStart src.bytes + j) := List.drop_drop
  have hparse : tryParseAt src p = (directoryAt src p).map some := by rw [tryParseAt_eq h, if_neg hskip]
  have hfirst : firstCdir src (src.bytes.drop (tailStart src.bytes)) (tailStart src.bytes)
      (candidates (src.bytes.drop (tailStart src.bytes)) (tailStart src.bytes)) =
        (directoryAt src p).map some := by
    refine firstCdir_of_last (i := p - tailStart src.bytes) ?_ ?_ ?_ fun j hj hjn hs => ?_
    · rw [hdrop, hp, h.signature]
      rfl
    · rw [hp]
      exact hparse
    · rw [List.length_drop]; omega
    · rw [List.length_drop] at hjn
      rw [hdrop, beq_iff_eq] at hs
      have hcand : Candidate src (tailStart src.bytes + j) := ⟨Nat.le_add_right _ _, by omega, hs⟩
      have hnone := tryParseAt_eq hcand
      rwa [if_pos (hlast _ (by omega) (by omega) hs)] at hnone
  have hmin : src.bytes.length - min src.bytes.length maxCdBuffer = tailStart src.bytes := rfl
  simp only [readCentralDir, hmin, hfirst]
  rw [if_neg (by omega)]
  cases directoryAt src p <;> rfl

/-! ## The end record -/

/-- A single-disk end record. -/
def endRecord (numEntries : UInt16) (cdirSize cdirOffset : UInt32) (comment : Bytes) : Bytes :=
  [magic.eocd, le16 0, le16 0, le16 numEntries, le16 numEntries, le32 cdirSize, le32 cdirOffset,
    le16 (UInt16.ofNat comment.length), comment].flatten

theorem length_endRecord (n : UInt16) (size offset : UInt32) (comment : Bytes) :
    (endRecord n size offset comment).length = 22 + comment.length := by
  simp only [endRecord, List.flatten_cons, List.flatten_nil, List.append_nil, List.length_append,
    length_le16, length_le32, show magic.eocd.length = 4 from rfl]
  omega

theorem endRecord_sig (n : UInt16) (size offset : UInt32) (comment : Bytes) :
    (endRecord n size offset comment).take 4 = magic.eocd := List.take_left' rfl

theorem endRecord_comment (n : UInt16) (size offset : UInt32) (comment : Bytes) :
    (endRecord n size offset comment).drop 22 = comment := by
  have h : endRecord n size offset comment = [magic.eocd, le16 0, le16 0, le16 n, le16 n, le32 size,
      le32 offset, le16 (UInt16.ofNat comment.length)].flatten ++ comment := by
    simp only [endRecord, List.flatten_cons, List.flatten_nil, List.append_nil, List.append_assoc]
  rw [h]
  exact List.drop_left' rfl

/-- The fields of an end record are read back. -/
theorem endRecord_fields (n : UInt16) (size offset : UInt32) (comment : Bytes) :
    le16At (endRecord n size offset comment) 4 = 0 ∧ le16At (endRecord n size offset comment) 6 = 0 ∧
      le16At (endRecord n size offset comment) 10 = n ∧
      le32At (endRecord n size offset comment) 12 = size ∧
      le32At (endRecord n size offset comment) 16 = offset ∧
      le16At (endRecord n size offset comment) 20 = UInt16.ofNat comment.length := by
  simp only [endRecord, List.flatten_cons, List.flatten_nil, List.append_nil]
  refine ⟨le16At_append magic.eocd 0 _, le16At_append (magic.eocd ++ le16 0) 0 _,
    ?_, ?_, ?_, ?_⟩
  · exact le16At_append (magic.eocd ++ le16 0 ++ le16 0 ++ le16 n) n _
  · exact le32At_append (magic.eocd ++ le16 0 ++ le16 0 ++ le16 n ++ le16 n) size _
  · exact le32At_append (magic.eocd ++ le16 0 ++ le16 0 ++ le16 n ++ le16 n ++ le32 size) offset _
  · exact le16At_append
      (magic.eocd ++ le16 0 ++ le16 0 ++ le16 n ++ le16 n ++ le32 size ++ le32 offset) _ _

theorem locatorBefore_drop {bs : Bytes} {start rel : Nat}
    (h : start = 0 ∨ size.eocd64Locator ≤ rel) :
    locatorBefore (bs.drop start) rel = locatorBefore bs (start + rel) := by
  have hl : size.eocd64Locator = 20 := rfl
  rcases h with rfl | h
  · simp only [List.drop_zero, Nat.zero_add]
  · have hsub : start + (rel - size.eocd64Locator) = start + rel - size.eocd64Locator := by omega
    simp only [locatorBefore, List.drop_drop, hsub, show size.eocd64Locator ≤ start + rel by omega, h]

theorem locatorBefore_append (body rest : Bytes) :
    locatorBefore (body ++ rest) body.length = locatorBefore body body.length := by
  have hl : size.eocd64Locator = 20 := rfl
  simp only [locatorBefore, le64At]
  by_cases h : size.eocd64Locator ≤ body.length
  · have hd : (body ++ rest).drop (body.length - size.eocd64Locator) =
        body.drop (body.length - size.eocd64Locator) ++ rest :=
      List.drop_append_of_le_length (by omega)
    have hlen : (body.drop (body.length - size.eocd64Locator)).length = 20 := by
      rw [List.length_drop]; omega
    rw [hd, List.take_append_of_le_length (by omega), List.drop_append_of_le_length (by omega),
      List.take_append_of_le_length (by rw [List.length_drop]; omega)]
  · simp only [h, false_and, ↓reduceIte]

/-- An end record whose comment is the rest of the source, and after which no other one is looked
at, is the one that is used. -/
theorem readCentralDir_endRecord {src : Source} {body comment : Bytes} {n : UInt16}
    {cdirSize cdirOffset : UInt32} (hb : src.bytes = body ++ endRecord n cdirSize cdirOffset comment)
    (hc : comment.length ≤ 0xFFFF) (hlast : LastSignature src.bytes body.length) :
    readCentralDir src = cdirOf src (fromUtf8Lossy comment) n cdirSize.toUInt64 cdirOffset.toUInt64
      (locatorBefore body body.length) := by
  have he : size.eocd = 22 := rfl
  have hlen : src.bytes.length = body.length + (22 + comment.length) := by
    rw [hb, List.length_append, length_endRecord]
  have hmax : maxCdBuffer = 65578 := rfl
  have hwin : tailStart src.bytes = 0 ∨ tailStart src.bytes + size.eocd64Locator ≤ body.length := by
    rw [tailStart, hlen, hmax, show size.eocd64Locator = 20 from rfl]
    omega
  have hdrop : src.bytes.drop body.length = endRecord n cdirSize cdirOffset comment := by
    rw [hb, List.drop_left]
  have hcand : Candidate src body.length :=
    ⟨by omega, by omega, by rw [hdrop]; exact endRecord_sig n cdirSize cdirOffset comment⟩
  obtain ⟨h4, h6, h10, h12, h16, h20⟩ := endRecord_fields n cdirSize cdirOffset comment
  have hclen : (UInt16.ofNat comment.length).toNat = comment.length := toNat_ofNat_u16 hc
  have hskip : ¬ Skipped src.bytes body.length := by
    rw [Skipped, hdrop, h4, h6, h20, hclen]
    simp only [ne_eq, not_true_eq_false, or_self, or_false]
    omega
  have hloc : locatorBefore (src.bytes.drop (tailStart src.bytes))
      (body.length - tailStart src.bytes) = locatorBefore body body.length := by
    rw [locatorBefore_drop (by omega), show tailStart src.bytes +
      (body.length - tailStart src.bytes) = body.length by omega, hb, locatorBefore_append]
  have hcomment : ((endRecord n cdirSize cdirOffset comment).drop size.eocd).take comment.length =
      comment := by
    rw [he, endRecord_comment, List.take_length]
  rw [readCentralDir_of_last hcand hskip hlast]
  simp only [directoryAt, hdrop, h10, h12, h16, h20, hclen, hcomment, hloc]

/-! ## The records -/

/-- The entries before the first refused record. -/
def okPrefix : List (Result Dirent) → List Dirent
  | .ok d :: os => d :: okPrefix os
  | .error _ :: _ => []
  | [] => []

theorem okPrefix_map_ok (ds : List Dirent) : okPrefix (ds.map .ok) = ds := by
  induction ds with
  | nil => rfl
  | cons d ds ih => rw [List.map_cons, okPrefix, ih]

/-- The prefix is shorter than the list unless every record is accepted. -/
theorem okPrefix_full (os : List (Result Dirent)) (h : os.length ≤ (okPrefix os).length) :
    os = (okPrefix os).map .ok := by
  induction os with
  | nil => rfl
  | cons o os ih =>
    cases o with
    | ok d =>
      rw [okPrefix, List.length_cons, List.length_cons] at h
      rw [okPrefix, List.map_cons, ← ih (by omega)]
    | error e => simp [okPrefix] at h

theorem length_okPrefix_le (os : List (Result Dirent)) : (okPrefix os).length ≤ os.length := by
  induction os with
  | nil => exact Nat.le_refl _
  | cons o os ih =>
    cases o with
    | ok d => exact Nat.succ_le_succ ih
    | error e => exact Nat.zero_le _

theorem length_le_flatMap_fst {recs : List (Bytes × Result Dirent)}
    (h : ∀ p ∈ recs, IsRecord p.1 p.2) : recs.length ≤ (recs.flatMap (·.1)).length := by
  induction recs with
  | nil => exact Nat.le_refl _
  | cons p recs ih =>
    obtain ⟨hp, hrecs⟩ := List.forall_mem_cons.mp h
    have hpos := List.length_pos_iff.mpr hp.ne_nil
    have hlen := ih hrecs
    rw [List.flatMap_cons, List.length_append, List.length_cons]
    omega

theorem parseEntriesLoop_records {recs : List (Bytes × Result Dirent)}
    (h : ∀ p ∈ recs, IsRecord p.1 p.2) {n : Nat} (hn : (recs.flatMap (·.1)).length ≤ n) :
    parseEntriesLoop n (recs.flatMap (·.1)) = .ok (okPrefix (recs.map (·.2))) := by
  induction recs generalizing n with
  | nil => cases n <;> rfl
  | cons p recs ih =>
    obtain ⟨hp, hrecs⟩ := List.forall_mem_cons.mp h
    obtain ⟨r, o⟩ := p
    have hlen : r.length + (recs.flatMap (·.1)).length ≤ n := by
      rwa [List.flatMap_cons, List.length_append] at hn
    have hpos : 0 < r.length := List.length_pos_iff.mpr hp.ne_nil
    obtain ⟨n, rfl⟩ : ∃ k, n = k + 1 := ⟨n - 1, by omega⟩
    have hparse := hp.parse (recs.flatMap (·.1))
    rw [List.flatMap_cons, List.map_cons]
    cases hcons : r ++ recs.flatMap (·.1) with
    | nil => exact absurd (List.append_eq_nil_iff.mp hcons).1 hp.ne_nil
    | cons b bs =>
      rw [hcons] at hparse
      rw [parseEntriesLoop, hparse]
      cases o with
      | ok d =>
        have hn : (recs.flatMap (·.1)).length ≤ n := by omega
        simp only [Except.map, ih hrecs hn, okPrefix]
        rfl
      | error e =>
        cases e with
        | err c => rfl
        | panic => exact absurd rfl hp.no_panic

/-- Reading a region of records: those before the first refused one, if their number is the one
recorded. -/
theorem readEntries_records {src : Source} {pre post : Bytes}
    (recs : List (Bytes × Result Dirent)) (hb : src.bytes = pre ++ (recs.flatMap (·.1) ++ post))
    (h : ∀ p ∈ recs, IsRecord p.1 p.2)
    {offset cdirSize numEntries : UInt64} (hoff : offset.toNat = pre.length)
    (hsize : cdirSize.toNat = (recs.flatMap (·.1)).length) (hmax : cdirSize ≤ maxCdSize)
    (hseek : src.canSeek offset.toNat = true) :
    readEntries src offset cdirSize numEntries =
      if (okPrefix (recs.map (·.2))).length = numEntries.toNat ∨
          (okPrefix (recs.map (·.2))).length % 0x10000 = numEntries.toNat then
        .ok (okPrefix (recs.map (·.2)))
      else .error (.err .incons) := by
  have hread : src.readExact offset.toNat cdirSize.toNat = some (recs.flatMap (·.1)) := by
    rw [Source.readExact_ok (by rw [hb, hoff, hsize, List.length_append, List.length_append]; omega),
      hb, hoff, hsize, List.drop_left, List.take_left]
  simp only [readEntries, hseek, hread, Bool.not_true, Bool.false_eq_true, ↓reduceIte]
  rw [if_neg (UInt64.not_lt.mpr hmax), parseEntriesLoop_records h (Nat.le_refl _)]
  rfl

end Kzip.Impl
