import Kzip.Impl.Checked
import Kzip.Proof.Content

/-!
# The checks of the read path pass

Each function with its checks computes what the plain one does, given the bounds that its callers
establish. The one exception is the slice of an entry, and for a mapping the seek past a local header
(`Checked.openDirent_eq`).
-/

namespace Kzip.Impl

open Lib Lib.LE Lib.Utf8

variable {X : Extern}

/-- The same crates, in a build in which integer overflow panics. -/
def checking (X : Extern) : Extern := { X with overflowChecks := true }

theorem aesDecryptData_checking (password : Bytes) (method : UInt16) (data : Bytes) :
    aesDecryptData (checking X) password method data = aesDecryptData X password method data := by
  have hloop := aesCtrLoop_congr (show (checking X).encryptBlock = X.encryptBlock from rfl)
  simp only [aesDecryptData, aesCtrApply, hloop]
  rfl

theorem openStreaming_checking (a : Archive) (d : Dirent) (off : Nat) (password : Option Bytes) :
    a.openStreaming (checking X) d off password = a.openStreaming X d off password := by
  simp only [Archive.openStreaming, Archive.openAes, aesDecryptData_checking]
  rfl

namespace Checked

theorem add_eq {a b : Nat} (h : a + b < 2 ^ 64) : add a b = .ok (a + b) := Machine.add_of_lt h

theorem sub_eq {a b : Nat} (h : b ≤ a) : sub a b = .ok (a - b) := Machine.sub_of_le h

theorem slice_eq {bs : Bytes} {i j : Nat} (hij : i ≤ j) (hj : j ≤ bs.length) :
    slice bs i j = .ok ((bs.drop i).take (j - i)) := Machine.slice_of_le hij hj

theorem slice_front {bs : Bytes} {j : Nat} (hj : j ≤ bs.length) : slice bs 0 j = .ok (bs.take j) := by
  rw [slice_eq (Nat.zero_le _) hj, List.drop_zero, Nat.sub_zero]

theorem index_eq {bs : Bytes} {i : Nat} (h : i < bs.length) : index bs i = .ok (bs.getD i 0) := by
  rw [index, Machine.index_of_lt h, List.getD_eq_getElem?_getD, List.getElem?_eq_getElem h]
  rfl

/-- Bytes taken one by one are a slice. -/
theorem map_getD_range (bs : Bytes) {i n : Nat} (h : i + n ≤ bs.length) :
    (List.range n).map (fun j => bs.getD (i + j) 0) = (bs.drop i).take n := by
  refine List.ext_getElem ?_ fun j hj hj' => ?_
  · rw [List.length_map, List.length_range, List.length_take, List.length_drop]
    omega
  · rw [List.length_map, List.length_range] at hj
    rw [List.getElem_map, List.getElem_range, List.getElem_take, List.getElem_drop,
      List.getD_eq_getElem?_getD, List.getElem?_eq_getElem (by omega)]
    rfl

theorem indices_eq {bs : Bytes} {i n : Nat} (h : i + n ≤ bs.length) :
    indices bs i n = .ok ((bs.drop i).take n) := by
  rw [indices, mapM_of_ok (g := fun j => bs.getD (i + j) 0) fun j hj => index_eq (by
    rw [List.mem_range] at hj; omega), map_getD_range bs h]

theorem le16At_eq {bs : Bytes} {i : Nat} (h : i + 2 ≤ bs.length) :
    le16At bs i = .ok (Impl.le16At bs i) := by
  rw [le16At, indices_eq h]; rfl

theorem le32At_eq {bs : Bytes} {i : Nat} (h : i + 4 ≤ bs.length) :
    le32At bs i = .ok (Impl.le32At bs i) := by
  rw [le32At, indices_eq h]; rfl

theorem le64At_eq {bs : Bytes} {i : Nat} (h : i + 8 ≤ bs.length) :
    le64At bs i = .ok (Impl.le64At bs i) := by
  rw [le64At, indices_eq h]; rfl

theorem copyFromSlice_eq {dst src : Bytes} (h : dst.length = src.length) :
    copyFromSlice dst src = .ok src := if_pos h

/-- The front of a buffer. -/
theorem slice_replicate {n len : Nat} (h : n ≤ len) :
    slice (List.replicate len 0) 0 n = .ok (List.replicate n 0) := by
  rw [slice_front (by rw [List.length_replicate]; exact h), List.take_replicate, Nat.min_eq_left h]

/-! ## Sources -/

/-- A slice holds less than `2 ^ 63` bytes, so that no sum of two lengths overflows. -/
theorem read_eq {src : Source} (hlen : src.bytes.length < 2 ^ 63) (pos : Nat) {len : Nat}
    (hbuf : len < 2 ^ 63) : read src pos len = .ok ((src.bytes.drop pos).take len) := by
  rw [read]
  split
  · split
    · rename_i hpos
      rw [List.drop_of_length_le hpos, List.take_nil]
    · set stop := min (pos + len) src.bytes.length with hstop
      have hn : stop - pos ≤ len := by omega
      have htake : (src.bytes.drop pos).take (stop - pos) = (src.bytes.drop pos).take len := by
        refine List.take_eq_take_iff.mpr ?_
        rw [List.length_drop]
        omega
      have hroom : (List.replicate (stop - pos) (0 : UInt8)).length =
          ((src.bytes.drop pos).take (stop - pos)).length := by
        rw [List.length_replicate, List.length_take, List.length_drop]
        omega
      rw [add_eq (by omega), ok_bind, ← hstop]
      dsimp only
      rw [sub_eq (by omega), ok_bind, slice_replicate hn, ok_bind, slice_eq (by omega) (by omega),
        ok_bind, copyFromSlice_eq hroom, ok_bind, add_eq (by omega), ok_bind, htake]
  all_goals rfl

/-- Reading piece by piece, by induction on the reads left. -/
theorem readLoop_eq {src : Source} (hlen : src.bytes.length < 2 ^ 63) {cap : Nat} (hcap : cap < 2 ^ 63)
    {fuel pos n : Nat} (hfuel : src.bytes.length - pos < fuel) (hpos : 0 < cap ∨ n = 0) :
    readLoop src cap fuel pos n = .ok ((src.bytes.drop pos).take n) := by
  induction fuel generalizing pos n with
  | zero => omega
  | succ fuel ih =>
    rw [readLoop]
    split
    · rename_i hn
      rw [hn, List.take_zero]
    · rename_i hn
      rw [read_eq hlen pos (by omega)]
      set bs := (src.bytes.drop pos).take (min cap n) with hbs
      have hblen : bs.length = min (min cap n) (src.bytes.length - pos) := by
        rw [hbs, List.length_take, List.length_drop]
      rw [ok_bind]
      split
      · rename_i hnil
        rw [hnil, List.length_nil] at hblen
        rw [List.drop_of_length_le (by omega), List.take_nil]
      · rename_i hne
        have hpos' := List.length_pos_iff.mpr hne
        rw [ih (by omega) (by omega)]
        have hsplit : bs = (src.bytes.drop pos).take bs.length := by
          rw [hbs, List.length_take, List.take_eq_take_iff]
          omega
        have hrest : (src.bytes.drop pos).take n = (src.bytes.drop pos).take bs.length ++
            ((src.bytes.drop pos).drop bs.length).take (n - bs.length) := by
          rw [← List.take_add, Nat.add_sub_cancel' (by omega)]
        rw [ok_bind, hrest, ← hsplit, List.drop_drop]

theorem readExact_eq {src : Source} (hlen : src.bytes.length < 2 ^ 63) (pos : Nat) {n : Nat}
    (hn : n < 2 ^ 63) : readExact src pos n = .ok (src.readExact pos n) := by
  rw [readExact, readLoop_eq hlen hn (by omega) (by omega)]
  simp only [ok_bind, List.length_take, List.length_drop, Source.readExact]
  by_cases h0 : n = 0
  · rw [if_pos (by omega), if_pos h0, h0, List.take_zero]
  · by_cases hle : pos + n ≤ src.bytes.length
    · rw [if_pos (by omega), if_neg h0, if_pos hle]
    · rw [if_neg (by omega), if_neg h0, if_neg hle]

theorem readAt_eq {src : Source} (hlen : src.bytes.length < 2 ^ 63) (pos : Nat) {n : Nat}
    (hn : n < 2 ^ 63) : readAt src pos n = src.readAt pos n := by
  simp only [readAt, readExact_eq hlen pos hn, ok_bind]
  rfl

theorem stream_eq {src : Source} (hlen : src.bytes.length < 2 ^ 63) (pos n : Nat) :
    stream src pos n = .ok ((src.bytes.drop pos).take n) :=
  readLoop_eq hlen (by decide) (by omega) (.inl (by decide))

/-- A seek forward. A mapping takes the sum on `i64`. -/
theorem seekCurrent_eq {src : Source} {pos d : Nat} (hpos : pos < 2 ^ 63) (h : pos + d < 2 ^ 64) :
    seekCurrent src pos d =
      if src.kind = .mmap ∧ 2 ^ 63 ≤ pos + d then .error .panic else .ok (pos + d) := by
  rw [seekCurrent]
  split
  · rename_i hkind
    have hi64 : (UInt64.ofNat pos).toInt64.toInt = (pos : Int) := by
      rw [UInt64.toInt64_ofNat', Int64.toInt_ofNat_of_lt hpos]
    simp only [hi64, hkind, true_and]
    by_cases hbig : 2 ^ 63 ≤ pos + d
    · rw [if_pos hbig, if_neg (by omega)]
    · rw [if_neg hbig, if_pos (by omega)]
      congr 1
      omega
  all_goals
    rename_i hkind
    rw [if_pos h, hkind, if_neg (by simp)]

/-! ## Entries -/

theorem read16_eq {bs : Bytes} (h : 2 ≤ bs.length) : read16 bs = .ok (u16 (bs.take 2), bs.drop 2) := by
  simp only [read16, Cursor.u16, Cursor.take, h, ↓reduceIte, Except.map]

theorem read32_eq {bs : Bytes} (h : 4 ≤ bs.length) : read32 bs = .ok (u32 (bs.take 4), bs.drop 4) := by
  simp only [read32, Cursor.u32, Cursor.take, h, ↓reduceIte, Except.map]

/-- The position in the block and the bytes left, by induction on the fields. -/
theorem parseExtraFieldsLoop_eq {raw : Bytes} (hlen : raw.length < 2 ^ 63) {n pos : Nat}
    (hpos : pos ≤ raw.length) :
    parseExtraFieldsLoop raw n pos = Impl.parseExtraFieldsLoop n (raw.drop pos) := by
  induction n generalizing pos with
  | zero => rfl
  | succ n ih =>
    rw [parseExtraFieldsLoop, Impl.parseExtraFieldsLoop, add_eq (by omega), ok_bind, List.length_drop]
    by_cases hhead : pos + 4 ≤ raw.length
    · have hrest : 4 ≤ (raw.drop pos).length := by rw [List.length_drop]; omega
      rw [if_pos hhead, if_neg (by omega), read16_eq (by omega), ok_bind]
      dsimp only
      rw [read16_eq (by rw [List.length_drop]; omega), ok_bind]
      dsimp only
      set len := (u16 (((raw.drop pos).drop 2).take 2)).toNat with hfield
      have hsmall : len < 2 ^ 16 := UInt16.toNat_lt _
      rw [add_eq (by omega), ok_bind, List.drop_drop, List.length_drop]
      by_cases hdata : raw.length < pos + 4 + len
      · rw [if_pos hdata, if_pos (by omega)]
      · rw [if_neg hdata, if_neg (by omega), slice_eq (by omega) (by omega), ok_bind,
          ih (by omega), List.drop_drop, Nat.add_sub_cancel_left]
    · rw [if_neg hhead, if_pos (by omega)]

theorem parseExtraFields_eq {raw : Bytes} (hlen : raw.length < 2 ^ 63) :
    parseExtraFields raw = Impl.parseExtraFields raw :=
  parseExtraFieldsLoop_eq hlen (Nat.zero_le _)

theorem parseAesExtra_eq (fields : List ExtraField) :
    parseAesExtra fields = .ok (Impl.parseAesExtra fields) := by
  rw [parseAesExtra, Impl.parseAesExtra]
  cases fields.find? fun f => f.1 == efWinzipAes with
  | none => rfl
  | some f =>
    obtain ⟨id, data⟩ := f
    dsimp only
    by_cases hlen : data.length < efWinzipAesSize
    · rw [if_pos hlen, if_pos hlen]
    · rw [if_neg hlen, if_neg hlen]
      have hlen : 7 ≤ data.length := Nat.le_of_not_lt hlen
      have hmark : (data.drop 2).take 2 = [data.getD 2 0, data.getD 3 0] :=
        (map_getD_range data (i := 2) (n := 2) (by omega)).symm
      rw [index_eq (by omega), index_eq (by omega), le16At_eq (by omega), index_eq (by omega),
        le16At_eq (by omega), hmark]
      simp only [ok_bind, ne_eq, List.cons.injEq, and_true]
      by_cases ha : data.getD 2 0 = 0x41
      · by_cases he : data.getD 3 0 = 0x45
        · simp only [ha, he, not_true_eq_false, ↓reduceIte, and_self, Impl.le16At, List.drop_zero]
          split <;> rfl
        · simp only [ha, he, not_true_eq_false, not_false_eq_true, ↓reduceIte, and_false]
      · simp only [ha, not_false_eq_true, ↓reduceIte, false_and]

theorem resolveMethod_eq (raw bitflags : UInt16) (extra : List ExtraField) :
    resolveMethod raw bitflags extra = .ok (Impl.resolveMethod raw bitflags extra) := by
  rw [resolveMethod, Impl.resolveMethod]
  split
  · rw [parseAesExtra_eq, ok_bind]
    cases Impl.parseAesExtra extra <;> rfl
  · rfl

theorem ofCentral_eq {f : CentralFixed} {filename comment : Str} {extra : Bytes}
    (hextra : extra.length < 2 ^ 63) :
    ofCentral f filename extra comment = Dirent.ofCentral f filename extra comment := by
  simp only [ofCentral, Dirent.ofCentral, parseExtraFields_eq hextra, resolveMethod_eq, ok_bind]

/-- A record holds an extra block of less than 64 KiB. -/
theorem parseCentral_eq (bs : Bytes) : parseCentral bs = Dirent.parseCentral bs := by
  refine Cursor.bind_congr fun raw s hraw => ?_
  obtain ⟨-, hlen⟩ := Cursor.take_ok.mp hraw
  rw [slice_front (by rw [hlen]; decide), Cursor.lift_ok_bind]
  split
  · rfl
  · have htail : slice raw 4 size.central = .ok (raw.drop 4) := by
      rw [← hlen, slice, Machine.slice_to_end (by rw [hlen]; decide)]
    rw [htail, Cursor.lift_ok_bind]
    refine Cursor.bind_congr fun f s _ => Cursor.bind_congr fun filename s _ =>
      Cursor.bind_congr fun extra s hextra => Cursor.bind_congr fun comment s _ => ?_
    obtain ⟨-, hextra⟩ := Cursor.take_ok.mp hextra
    have := f.extraLen.toNat_lt
    rw [ofCentral_eq (by rw [hextra]; omega)]

/-! ## The central directory -/

theorem parseEntriesLoop_eq (n : Nat) (buf : Bytes) :
    parseEntriesLoop n buf = Impl.parseEntriesLoop n buf := by
  induction n generalizing buf with
  | zero => rfl
  | succ n ih =>
    cases buf with
    | nil => rfl
    | cons b bs =>
      rw [parseEntriesLoop, parseCentral_eq]
      simp only [ih]
      rfl

section
variable {src : Source} (hlen : src.bytes.length < 2 ^ 63)
include hlen

theorem readEocd64_eq (offset : UInt64) : readEocd64 src offset = .ok (Impl.readEocd64 src offset) := by
  rw [readEocd64, Impl.readEocd64]
  split
  · rw [readExact_eq hlen _ (by decide), ok_bind]
    cases hraw : src.readExact offset.toNat size.eocd64 with
    | none => rfl
    | some raw =>
      have hrawlen : raw.length = 56 := (readExact_iff.mp hraw).2
      dsimp only
      rw [slice_front (by omega), slice_eq (by omega) (by omega), slice_eq (by omega) (by omega),
        slice_eq (by omega) (by omega)]
      simp only [ok_bind]
      split <;> rfl
  · rfl

theorem readEntries_eq (offset cdirSize numEntries : UInt64) :
    readEntries src offset cdirSize numEntries = Impl.readEntries src offset cdirSize numEntries := by
  rw [readEntries, Impl.readEntries]
  split
  · rfl
  · rename_i hmax
    have hsize : cdirSize.toNat ≤ 2 ^ 30 := UInt64.le_iff_toNat_le.mp (UInt64.not_lt.mp hmax)
    split
    · rfl
    · rw [readExact_eq hlen _ (by omega), ok_bind]
      cases src.readExact offset.toNat cdirSize.toNat with
      | none => rfl
      | some buf =>
        dsimp only
        rw [parseEntriesLoop_eq]

theorem cdirAt_eq (comment : Str) (n : UInt64) (z : Bool) (cdirSize cdirOffset : UInt64) :
    cdirAt src comment n z cdirSize cdirOffset = Impl.cdirAt src comment n z cdirSize cdirOffset := by
  rw [cdirAt, readEntries_eq hlen, Impl.cdirAt]

theorem finishCdir_eq (comment : Str) (n : UInt16) (z : Bool) (cdirSize cdirOffset : UInt64) :
    finishCdir src comment n z cdirSize cdirOffset =
      Impl.finishCdir src comment n z cdirSize cdirOffset := by
  rw [finishCdir, cdirAt_eq hlen, Impl.finishCdir]

theorem cdirOf_eq (comment : Str) (n : UInt16) (cdirSize cdirOffset : UInt64)
    (locator : Option UInt64) :
    cdirOf src comment n cdirSize cdirOffset locator =
      Impl.cdirOf src comment n cdirSize cdirOffset locator := by
  cases locator with
  | none => exact finishCdir_eq hlen _ _ _ _ _
  | some offset =>
    simp only [cdirOf, readEocd64_eq hlen, ok_bind, cdirAt_eq hlen, finishCdir_eq hlen]
    rfl

end

theorem locatorBefore_eq {tail : Bytes} (hlen : tail.length < 2 ^ 63) {rel : Nat}
    (hrel : rel ≤ tail.length) : locatorBefore tail rel = .ok (Impl.locatorBefore tail rel) := by
  rw [locatorBefore, Impl.locatorBefore]
  by_cases hroom : size.eocd64Locator ≤ rel
  · have hroom' : 20 ≤ rel := hroom
    set p := rel - size.eocd64Locator with hp
    have hp' : p = rel - 20 := hp
    have hloc : ((tail.drop (p + 4)).take (p + 20 - (p + 4))).length = 16 := by
      rw [List.length_take, List.length_drop]
      omega
    have hoffset : Impl.le64At ((tail.drop (p + 4)).take (p + 20 - (p + 4))) 4 =
        Impl.le64At (tail.drop p) 8 := by
      simp only [Impl.le64At, List.drop_take, List.drop_drop, List.take_take]
      congr 2
      omega
    have hread : le64At ((tail.drop (p + 4)).take (p + 20 - (p + 4))) 4 =
        .ok (Impl.le64At (tail.drop p) 8) := by rw [le64At_eq (by omega), hoffset]
    rw [if_pos hroom, sub_eq hroom, ok_bind, ← hp, add_eq (by omega), ok_bind,
      slice_eq (by omega) (by omega), ok_bind, ok_bind, add_eq (by omega), ok_bind,
      slice_eq (by omega) (by omega), ok_bind, hread, Nat.add_sub_cancel_left]
    by_cases hmagic : (tail.drop p).take 4 = magic.eocd64Locator
    · rw [if_pos hmagic, if_pos ⟨hroom, hmagic⟩, ok_bind]
    · rw [if_neg hmagic, if_neg fun h => hmagic h.2]
  · rw [if_neg hroom, if_neg (fun h => hroom h.1)]

section
variable {src : Source} (hlen : src.bytes.length < 2 ^ 63)
include hlen

theorem tryParseCdir_eq {tail : Bytes} (htail : tail.length < 2 ^ 63) {start abs : Nat}
    (habs : start ≤ abs) (hrel : abs - start ≤ tail.length) :
    tryParseCdir src tail start abs = Impl.tryParseCdir src tail start abs := by
  rw [tryParseCdir, Impl.tryParseCdir, sub_eq habs, ok_bind]
  set rel := abs - start
  have heocd : size.eocd = 22 := rfl
  rw [add_eq (by omega), ok_bind]
  dsimp only
  by_cases hroom : rel + size.eocd > tail.length
  · rw [if_pos hroom, if_pos hroom]
  · rw [if_neg hroom, if_neg hroom, slice_eq (by omega) (by omega), ok_bind, Nat.add_sub_cancel_left]
    have he : ((tail.drop rel).take size.eocd).length = 22 := by
      rw [List.length_take, List.length_drop]
      omega
    rw [le16At_eq (by omega), ok_bind, le16At_eq (by omega), ok_bind, le16At_eq (by omega), ok_bind,
      le16At_eq (by omega), ok_bind, le32At_eq (by omega), ok_bind, le32At_eq (by omega), ok_bind,
      le16At_eq (by omega), ok_bind]
    set commentLen := (Impl.le16At ((tail.drop rel).take size.eocd) 20).toNat
    have hsmall : commentLen < 2 ^ 16 := UInt16.toNat_lt _
    rw [add_eq (by omega), ok_bind]
    by_cases hcomment : rel + size.eocd + commentLen > tail.length
    · rw [if_pos hcomment, if_pos hcomment]
    · rw [if_neg hcomment, if_neg hcomment, slice_eq (by omega) (by omega), ok_bind,
        Nat.add_sub_cancel_left]
      split
      · rfl
      · rw [locatorBefore_eq htail hrel, ok_bind, cdirOf_eq hlen]

theorem firstCdir_eq {tail : Bytes} (htail : tail.length < 2 ^ 63) {start : Nat} {cands : List Nat}
    (hcands : ∀ abs ∈ cands, start ≤ abs ∧ abs - start ≤ tail.length) :
    firstCdir src tail start cands = Impl.firstCdir src tail start cands := by
  induction cands with
  | nil => rfl
  | cons abs cands ih =>
    obtain ⟨⟨habs, hrel⟩, hcands⟩ := List.forall_mem_cons.mp hcands
    rw [firstCdir, tryParseCdir_eq hlen htail habs hrel, ih hcands]
    rfl

end

/-- The search for signatures, by induction on the positions that are left. -/
theorem candidates_eq {tail : Bytes} {start : Nat}
    (hstart : start + tail.length < 2 ^ 64) (hsize : size.eocd ≤ tail.length) :
    candidates tail start = .ok (Impl.candidates tail start) := by
  have hstep (is : List Nat) (his : ∀ i ∈ is, i + 4 ≤ tail.length) (out : List Nat) :
      is.foldlM (candidateStep tail start) out = .ok (out ++
        (is.filter fun i => (tail.drop i).take 4 == magic.eocd).map (start + ·)) := by
    induction is generalizing out with
    | nil => rw [List.foldlM_nil, List.filter_nil, List.map_nil, List.append_nil]; rfl
    | cons i is ih =>
      obtain ⟨hi, his⟩ := List.forall_mem_cons.mp his
      rw [List.foldlM_cons, candidateStep, add_eq (by omega), ok_bind,
        slice_eq (by omega) hi, ok_bind, Nat.add_sub_cancel_left, List.filter_cons]
      split
      · rw [add_eq (by omega), ok_bind, ok_bind, ih his, List.map_cons, List.append_assoc]
        rfl
      · rw [ok_bind, ih his]
  rw [candidates, if_pos hsize, sub_eq hsize, ok_bind, hstep _ (fun i hi => ?_), List.nil_append,
    Impl.candidates]
  rw [List.mem_reverse, List.mem_range] at hi
  have : size.eocd = 22 := rfl
  omega

theorem readCentralDir_eq {src : Source} (hlen : src.bytes.length < 2 ^ 63) :
    readCentralDir src = Impl.readCentralDir src := by
  rw [readCentralDir, Impl.readCentralDir]
  dsimp only
  split
  · rfl
  · rename_i hsize
    set start := src.bytes.length - min src.bytes.length maxCdBuffer with hstart
    have htail : (src.bytes.drop start).length = min src.bytes.length maxCdBuffer := by
      rw [List.length_drop]
      omega
    have hcands : ∀ abs ∈ Impl.candidates (src.bytes.drop start) start,
        start ≤ abs ∧ abs - start ≤ (src.bytes.drop start).length := by
      intro abs habs
      simp only [Impl.candidates, List.mem_map, List.mem_filter, List.mem_reverse, List.mem_range]
        at habs
      obtain ⟨i, ⟨hi, -⟩, rfl⟩ := habs
      omega
    have heocd : size.eocd ≤ min src.bytes.length maxCdBuffer :=
      Nat.le_min.mpr ⟨by omega, by decide⟩
    have hread : readAt src start (min src.bytes.length maxCdBuffer) = .ok (src.bytes.drop start) := by
      rw [readAt_eq hlen _ (by omega), readAt_iff hlen]
      refine ⟨?_, htail⟩
      rw [List.take_of_length_le (by omega)]
    rw [sub_eq (Nat.min_le_left _ _), ok_bind, ← hstart, hread, ok_bind,
      candidates_eq (by omega) (by omega), ok_bind]
    have hfirst : firstCdir src (src.bytes.drop start) start _ = _ :=
      firstCdir_eq hlen (by omega) hcands
    refine (congrArg (· >>= _) hfirst).trans ?_
    cases Impl.firstCdir src (src.bytes.drop start) start
      (Impl.candidates (src.bytes.drop start) start) with
    | error e => rfl
    | ok o => cases o <;> rfl

theorem open_eq {src : Source} (hlen : src.bytes.length < 2 ^ 63) :
    «open» src = Archive.open src := by
  rw [«open», readCentralDir_eq hlen, Archive.open]

/-! ## Decryption -/

/-- The table has an entry for every byte. -/
theorem crc32Update_eq (crc : UInt32) (byte : UInt8) :
    crc32Update crc byte = .ok (Impl.crc32Update crc byte) := by
  have hmask : ((crc ^^^ byte.toUInt32) &&& 0xFF).toNat < 256 := by
    rw [UInt32.toNat_and]
    exact Nat.lt_of_le_of_lt Nat.and_le_right (by decide)
  rw [crc32Update, crcTableAt, if_pos hmask]
  rfl

theorem updateKeys_eq (c : ZipCrypto) (byte : UInt8) :
    updateKeys c byte = .ok (c.updateKeys byte) := by
  simp only [updateKeys, crc32Update_eq, ok_bind, ZipCrypto.updateKeys]

theorem zipCryptoNew_eq (password : Bytes) : zipCryptoNew password = .ok (ZipCrypto.new password) := by
  have hfold (c : ZipCrypto) : password.foldlM updateKeys c =
      .ok (password.foldl ZipCrypto.updateKeys c) := by
    induction password generalizing c with
    | nil => rfl
    | cons b bs ih => rw [List.foldlM_cons, updateKeys_eq, ok_bind, ih, List.foldl_cons]
  exact hfold _

theorem decrypt_eq (c : ZipCrypto) (data : Bytes) : decrypt c data = .ok (c.decrypt data) := by
  induction data generalizing c with
  | nil => rfl
  | cons b data ih => simp only [decrypt, updateKeys_eq, ok_bind, ih, ZipCrypto.decrypt]

theorem deriveAesKeys_eq (method : UInt16) (password salt : Bytes) :
    deriveAesKeys X method password salt = .ok (Impl.deriveAesKeys X method password salt) := by
  have hkey : aesKeyLength method ≤ 32 := by
    unfold aesKeyLength
    split_ifs <;> decide
  have hverify : winzipAesPasswordVerifyLength = 2 := rfl
  rw [deriveAesKeys, Impl.deriveAesKeys]
  dsimp only
  set keyLength := aesKeyLength method
  rw [add_eq (by omega), ok_bind]
  set outLen := 2 * keyLength + winzipAesPasswordVerifyLength
  set derived := (X.pbkdf2HmacSha1 password salt winzipAesPbkdf2Iterations outLen).toList with hderived
  have hlen : derived.length = outLen := Vector.length_toList ..
  set rest := (List.replicate (2 * 32 + winzipAesPasswordVerifyLength) (0 : UInt8)).drop outLen
  have hcut {i j : Nat} (hij : i ≤ j) (hj : j ≤ outLen) :
      slice (derived ++ rest) i j = .ok ((derived.drop i).take (j - i)) := by
    rw [slice_eq hij (by rw [List.length_append]; omega), List.drop_append_of_le_length (by omega),
      List.take_append_of_le_length (by rw [List.length_drop]; omega)]
  have hcopy {i j n : Nat} (hij : i ≤ j) (hj : j ≤ outLen) (hn : j - i = n) :
      copyFromSlice (List.replicate n 0) ((derived.drop i).take (j - i)) =
        .ok ((derived.drop i).take (j - i)) := by
    refine copyFromSlice_eq ?_
    rw [List.length_replicate, List.length_take, List.length_drop]
    omega
  rw [slice_replicate (by omega), ok_bind, copyFromSlice_eq (by rw [List.length_replicate, hlen]),
    ok_bind]
  rw [slice_replicate hkey, ok_bind, hcut (by omega) (by omega), ok_bind,
    hcopy (by omega) (by omega) (by omega), ok_bind, ok_bind, hcut (by omega) (by omega), ok_bind,
    hcopy (by omega) (by omega) (by omega), ok_bind, hcut (by omega) (by omega), ok_bind,
    hcopy (by omega) (by omega) (by omega), ok_bind, List.drop_zero, Nat.sub_zero,
    List.take_of_length_le (l := derived.drop (2 * keyLength)) (by rw [List.length_drop]; omega)]
  congr 3
  congr 1
  omega

theorem xorBlock_eq {pad data : Bytes} {pos n : Nat} (hlen : data.length < 2 ^ 63)
    (hpad : n ≤ pad.length) (hn : pos + n ≤ data.length) :
    xorBlock pad data pos n = .ok (data.take pos ++
      List.zipWith (· ^^^ ·) ((data.drop pos).take n) pad ++ data.drop (pos + n)) := by
  have hbytes (j : Nat) (hj : j ∈ List.range n) :
      (do .ok ((← index data (← add pos j)) ^^^ (← index pad j)) : Result UInt8) =
        .ok (data.getD (pos + j) 0 ^^^ pad.getD j 0) := by
    rw [List.mem_range] at hj
    rw [add_eq (by omega), ok_bind, index_eq (by omega), ok_bind, index_eq (by omega), ok_bind]
  have hzip : (List.range n).map (fun j => data.getD (pos + j) 0 ^^^ pad.getD j 0) =
      List.zipWith (· ^^^ ·) ((data.drop pos).take n) pad := by
    have hcut := map_getD_range pad (i := 0) (n := n) (by omega)
    simp only [Nat.zero_add, List.drop_zero] at hcut
    rw [← map_getD_range data hn]
    refine List.ext_getElem ?_ fun j hj hj' => ?_
    · rw [List.length_map, List.length_zipWith, List.length_map, List.length_range]
      omega
    · rw [List.length_map, List.length_range] at hj
      rw [List.getElem_map, List.getElem_zipWith, List.getElem_map, List.getElem_range,
        List.getD_eq_getElem?_getD (l := pad), List.getElem?_eq_getElem (show j < pad.length by omega)]
      rfl
  rw [xorBlock, mapM_of_ok hbytes, ok_bind, hzip]

/-- The data before `pos` are done, by induction on the blocks left. -/
theorem aesCtrLoop_eq (key : Bytes) {fuel : Nat} (counter : Vector UInt8 16) {pos : Nat} {data : Bytes}
    (hlen : data.length < 2 ^ 63) (hfuel : data.length - pos ≤ fuel) :
    aesCtrLoop X key fuel counter pos data =
      .ok (data.take pos ++ Impl.aesCtrLoop X key fuel counter (data.drop pos)) := by
  induction fuel generalizing counter pos data with
  | zero =>
    rw [aesCtrLoop, List.take_of_length_le (by omega), List.drop_of_length_le (by omega)]
    exact congrArg _ (List.append_nil _).symm
  | succ fuel ih =>
    rw [aesCtrLoop]
    by_cases hpos : pos < data.length
    · set pad := (X.encryptBlock key counter).toList with hpadeq
      have hpad : pad.length = 16 := Vector.length_toList ..
      have hne : data.drop pos ≠ [] := by
        rw [ne_eq, List.drop_eq_nil_iff]
        omega
      set n := min 16 (data.length - pos) with hn
      have htake : (data.drop pos).take n = (data.drop pos).take 16 := by
        rw [List.take_eq_take_iff, List.length_drop]
        omega
      set block := List.zipWith (· ^^^ ·) ((data.drop pos).take 16) pad with hblock
      have hblen : block.length = n := by
        rw [hblock, List.length_zipWith, List.length_take, List.length_drop]
        omega
      have hfront : (data.take pos ++ block).length = pos + n := by
        rw [List.length_append, List.length_take, hblen]
        omega
      rw [if_pos hpos, sub_eq (by omega), ok_bind]
      dsimp only
      rw [← hn, xorBlock_eq hlen (by omega) (by omega), htake, ← hblock, ok_bind, add_eq (by omega),
        ok_bind, ih _ (by rw [List.length_append, hfront, List.length_drop]; omega)
          (by rw [List.length_append, hfront, List.length_drop]; omega),
        aesCtrLoop_cons key fuel counter hne, ← hpadeq, ← hblock, List.drop_drop]
      -- a short block is the last one
      rcases Nat.lt_or_ge (data.length - pos) 16 with hshort | hfull
      · rw [List.drop_of_length_le (show data.length ≤ pos + n by omega), List.append_nil,
          List.take_of_length_le (by omega), List.drop_of_length_le (by omega),
          List.drop_of_length_le (show data.length ≤ pos + 16 by omega), List.append_assoc]
      · rw [List.take_left' (by omega), show n = 16 by omega, List.drop_left' (by omega),
          List.append_assoc]
    · rw [if_neg hpos, List.take_of_length_le (by omega), List.drop_of_length_le (by omega)]
      exact congrArg _ (List.append_nil _).symm

theorem aesCtrApply_eq (method : UInt16) {key data : Bytes} (hlen : data.length < 2 ^ 63)
    (hkey : key.length = aesKeyLength method) :
    aesCtrApply X method key data = .ok (Impl.aesCtrApply X method key data) := by
  rw [aesCtrApply, Impl.aesCtrApply]
  split
  · rw [aesCtrLoop_eq key _ hlen (Nat.sub_le _ _)]
    rfl
  · rfl

theorem tag_eq (key ciphertext : Bytes) :
    slice (X.hmacSha1 key ciphertext).toList 0 winzipAesHmacLength = .ok (aesTag X key ciphertext) :=
  slice_front (by rw [Vector.length_toList]; decide)

/-- Each part of a region that is long enough lies within it, and the derived key is of the length
that the cipher takes. -/
theorem aesDecryptData_eq (password : Bytes) (method : UInt16) {data : Bytes}
    (hlen : data.length < 2 ^ 63) :
    aesDecryptData X password method data = Impl.aesDecryptData X password method data := by
  have hsalt : aesSaltLength method ≤ 16 := by
    unfold aesSaltLength aesKeyLength
    split_ifs <;> decide
  have hverify : winzipAesPasswordVerifyLength = 2 := rfl
  have hhmac : winzipAesHmacLength = 10 := rfl
  rw [aesDecryptData, Impl.aesDecryptData]
  dsimp only
  rw [add_eq (by omega), ok_bind, add_eq (by omega), ok_bind]
  split
  · rfl
  · have hkeylen (salt : Bytes) :
        (Impl.deriveAesKeys X method password salt).1.length = aesKeyLength method := by
      simp only [Impl.deriveAesKeys, List.length_take, Vector.length_toList]
      omega
    have hcipher : data.length - winzipAesHmacLength -
        (aesSaltLength method + winzipAesPasswordVerifyLength) =
          data.length - (aesSaltLength method + winzipAesPasswordVerifyLength + winzipAesHmacLength) := by
      omega
    rw [slice_front (by omega), ok_bind, ok_bind, slice_eq (by omega) (by omega), ok_bind,
      sub_eq (by omega), ok_bind, slice_eq (by omega) (by omega), ok_bind, hcipher,
      slice, Machine.slice_to_end (by omega), ok_bind, deriveAesKeys_eq, ok_bind, Nat.add_sub_cancel_left]
    split
    · rfl
    · rw [tag_eq, ok_bind]
      split
      · rfl
      · refine aesCtrApply_eq method ?_ (hkeylen _)
        rw [List.length_take, List.length_drop]
        omega

/-! ## Opening an entry -/

/-- The two lengths stand after 22 bytes of other fields. -/
theorem readLocalLengths_eq {bs : Bytes} (h : bs.length = 26) : ∃ rest, readLocalLengths bs =
    .ok ((u16 ((bs.drop 22).take 2), u16 ((bs.drop 24).take 2)), rest) := by
  have h16 (i : Nat) (hi : i + 2 ≤ 26) :
      read16 (bs.drop i) = .ok (u16 ((bs.drop i).take 2), bs.drop (i + 2)) := by
    rw [read16_eq (by rw [List.length_drop]; omega), List.drop_drop]
  have h32 (i : Nat) (hi : i + 4 ≤ 26) :
      read32 (bs.drop i) = .ok (u32 ((bs.drop i).take 4), bs.drop (i + 4)) := by
    rw [read32_eq (by rw [List.length_drop]; omega), List.drop_drop]
  refine ⟨bs.drop 26, ?_⟩
  rw [← List.drop_zero (l := bs), readLocalLengths]
  rw [Cursor.run_ok (h16 0 (by decide)), Cursor.run_ok (h16 2 (by decide)),
    Cursor.run_ok (h16 4 (by decide)), Cursor.run_ok (h16 6 (by decide)),
    Cursor.run_ok (h16 8 (by decide)), Cursor.run_ok (h32 10 (by decide)),
    Cursor.run_ok (h32 14 (by decide)), Cursor.run_ok (h32 18 (by decide)),
    Cursor.run_ok (h16 22 (by decide)), Cursor.run_ok (h16 24 (by decide)), List.drop_zero]
  rfl

/-- The position after a local header. A mapping adds it up on `i64`. -/
theorem localHeaderLen_eq {src : Source} (hlen : src.bytes.length < 2 ^ 63) (offset : Nat) :
    localHeaderLen src offset = (do
      let off ← Impl.localHeaderLen src offset
      if src.kind = .mmap ∧ 2 ^ 63 ≤ off then .error .panic else .ok off) := by
  rw [localHeaderLen, readAt_eq hlen _ (by decide), Impl.localHeaderLen]
  cases hraw : src.readAt offset size.localHeader with
  | error e => rfl
  | ok raw =>
    obtain ⟨hbytes, hrawlen⟩ := (readAt_iff hlen).mp hraw
    have hrawlen : raw.length = 30 := hrawlen
    have hroom : offset + 30 ≤ src.bytes.length := by
      rw [hbytes, List.length_take, List.length_drop] at hrawlen
      omega
    have hfront : slice raw 4 size.localHeader = .ok (raw.drop 4) := by
      rw [show size.localHeader = raw.length from hrawlen.symm, slice, Machine.slice_to_end (by omega)]
    have htail : (raw.drop 4).length = 26 := by rw [List.length_drop]; omega
    obtain ⟨rest, hlengths⟩ := readLocalLengths_eq htail
    rw [List.drop_drop, List.drop_drop] at hlengths
    simp only [ok_bind]
    rw [slice_front (by omega), ok_bind, hfront, ok_bind, hlengths, ok_bind]
    by_cases hmagic : raw.take 4 = magic.localHeader
    · have hn := (Impl.le16At raw 26).toNat_lt
      have he := (Impl.le16At raw 28).toNat_lt
      have hsum : (u16 ((raw.drop (4 + 22)).take 2)).toNat + (u16 ((raw.drop (4 + 24)).take 2)).toNat =
        (Impl.le16At raw 26).toNat + (Impl.le16At raw 28).toNat := rfl
      have hlocal : size.localHeader = 30 := rfl
      simp only [hmagic, ne_eq, not_true_eq_false, ↓reduceIte]
      rw [add_eq (by omega), ok_bind, hsum, seekCurrent_eq (by omega) (by omega), ok_bind]
    · simp only [hmagic, ne_eq, not_false_eq_true, ↓reduceIte, error_bind]

theorem decodeSliceInto_eq (data : Bytes) (method : CompressionMethod)
    (compSize : UInt64) (out : Bytes) :
    decodeSliceInto X data method compSize out = Impl.decodeSliceInto X data method compSize out := by
  rw [decodeSliceInto, slice_front (Nat.min_le_right _ _), ok_bind, add_eq (by decide), ok_bind]
  rfl

theorem findDataOffset_eq {src : Source} (hlen : src.bytes.length < 2 ^ 63) {d : Dirent}
    (hd : d.dataOffset = none) :
    findDataOffset d src = (do
      let off ← d.findDataOffset src
      if src.kind = .mmap ∧ 2 ^ 63 ≤ off then .error .panic else .ok off) := by
  rw [findDataOffset, Dirent.findDataOffset, hd]
  exact localHeaderLen_eq hlen _

/-- The plain function panics where this one does when it checks its sum. -/
theorem openSlice_eq {a : Archive} {d : Dirent} {off : Nat} :
    openSlice X a d off = a.openSlice (checking X) d off := by
  rw [openSlice, Archive.openSlice]
  cases a.src.asSlice with
  | none => rfl
  | some bytes =>
    dsimp only
    by_cases hfit : off + d.compSize.toNat < 2 ^ 64
    · rw [add_eq hfit, addUsize, if_pos hfit]
      dsimp only
      by_cases hle : off ≤ min (off + d.compSize.toNat) bytes.length
      · rw [if_pos hle, if_pos hle, slice_eq hle (Nat.min_le_right _ _)]
        simp only [decodeSliceInto_eq]
        rfl
      · rw [if_neg hle, if_neg hle]
    · rw [add, Machine.add, if_neg hfit, addUsize, if_neg hfit]
      rfl

theorem openZeroCopy_eq {a : Archive} {d : Dirent} {off : Nat} :
    openZeroCopy X a d off = a.openZeroCopy (checking X) d off := by
  rw [openZeroCopy, openSlice_eq]
  rfl

/-- The decoder is given the bytes that it may take. -/
theorem newReader_eq {src : Bytes} {n : UInt64} {method : CompressionMethod} {size : UInt64}
    {crc : UInt32} {check : Bool} :
    newReader X (src.take n.toNat) method size crc check =
      (do .ok (.fresh (.streaming (← Decoder.new X src method n)) crc size check)) := by
  rw [newReader, Decoder.new]
  cases decode X method (src.take n.toNat) <;> rfl

section
variable {a : Archive} (hlen : a.src.bytes.length < 2 ^ 63)
include hlen

theorem openAes_eq (d : Dirent) (off : Nat) (password : Option Bytes) :
    openAes X a d off password = a.openAes X d off password := by
  rw [openAes, Archive.openAes]
  cases a.resolvePassword password with
  | error e => rfl
  | ok pw =>
    rw [ok_bind, ok_bind]
    split
    · rfl
    · rename_i hmax
      have hsize : d.compSize.toNat ≤ 2 ^ 30 := UInt64.le_iff_toNat_le.mp (UInt64.not_lt.mp hmax)
      rw [readAt_eq hlen _ (by omega)]
      cases hregion : a.src.readAt off d.compSize.toNat with
      | error e => rfl
      | ok region =>
        have hrlen := (((readAt_iff hlen).mp hregion).2)
        rw [ok_bind, ok_bind, aesDecryptData_eq pw _ (by omega)]
        cases hplain : Impl.aesDecryptData X pw d.encryptionMethod region with
        | error e => rfl
        | ok plain =>
          have hplen := length_aesDecryptData hplain
          have hall : plain.take (UInt64.ofNat plain.length).toNat = plain := by
            rw [UInt64.toNat_ofNat_of_lt' (by rw [UInt64.size]; omega), List.take_length]
          have hnew : newReader X (plain.take (UInt64.ofNat plain.length).toNat) d.compMethod
              d.uncompSize 0 false = _ := newReader_eq
          rw [hall] at hnew
          rw [ok_bind, ok_bind, hnew]
          rfl

theorem openZipCrypto_eq (d : Dirent) (off : Nat) (password : Option Bytes) :
    openZipCrypto X a d off password = a.openZipCrypto X d off password := by
  rw [openZipCrypto, Archive.openZipCrypto]
  cases a.resolvePassword password with
  | error e => rfl
  | ok pw =>
    rw [ok_bind, ok_bind, readAt_eq hlen _ (by decide)]
    cases hheader : a.src.readAt off encryptionHeaderLen with
    | error e => rfl
    | ok header =>
      have hhlen : header.length = encryptionHeaderLen := ((readAt_iff hlen).mp hheader).2
      have hplen : ((ZipCrypto.new pw).decrypt header).1.length = 12 := by
        rw [ZipCrypto.length_decrypt, hhlen]; rfl
      rw [ok_bind, ok_bind, zipCryptoNew_eq, ok_bind, decrypt_eq, ok_bind]
      dsimp only
      rw [sub_eq (by decide), ok_bind, index_eq (by rw [hplen]; decide), ok_bind]
      split
      · rfl
      · by_cases hsize : d.compSize.toNat < encryptionHeaderLen
        · rw [if_pos hsize, if_pos (UInt64.lt_iff_toNat_lt.mpr hsize)]
        · have hle : UInt64.ofNat encryptionHeaderLen ≤ d.compSize :=
            UInt64.le_iff_toNat_le.mpr (Nat.le_of_not_lt hsize)
          have hsub : d.compSize.toNat - encryptionHeaderLen =
              (d.compSize - UInt64.ofNat encryptionHeaderLen).toNat :=
            (UInt64.toNat_sub_of_le _ _ hle).symm
          rw [if_neg hsize, if_neg (UInt64.not_lt.mpr hle), sub_eq (Nat.le_of_not_lt hsize), ok_bind,
            stream_eq hlen, ok_bind, decrypt_eq, ok_bind, ZipCrypto.decrypt_take, hsub, newReader_eq]
          rfl

theorem openStreaming_eq (d : Dirent) (off : Nat) (password : Option Bytes) :
    openStreaming X a d off password = a.openStreaming X d off password := by
  rw [openStreaming, Archive.openStreaming, openAes_eq hlen, openZipCrypto_eq hlen, stream_eq hlen,
    ok_bind, newReader_eq]
  rfl

end

/-- Opening an entry for the first time: apart from the seek over the local header of a mapped file,
what a build with overflow checks does. -/
theorem openDirent_eq {a : Archive} (hlen : a.src.bytes.length < 2 ^ 63)
    {index : Nat} {d : Dirent} {password : Option Bytes} (hd : d.dataOffset = none) :
    (openDirent X a index d password).1 = (do
      let off ← d.findDataOffset a.src
      if a.src.kind = .mmap ∧ 2 ^ 63 ≤ off then .error .panic
      else (a.openDirent (checking X) index d password).1) := by
  rw [openDirent, findDataOffset_eq hlen hd, Archive.openDirent]
  cases d.findDataOffset a.src with
  | error e => rfl
  | ok off =>
    have hlen' : (a.cacheOffset index off).src.bytes.length < 2 ^ 63 := hlen
    rw [ok_bind, ok_bind]
    by_cases hseek : a.src.kind = .mmap ∧ 2 ^ 63 ≤ off
    · rw [if_pos hseek, if_pos hseek]
    · rw [if_neg hseek, if_neg hseek]
      have hzero : openZeroCopy X (a.cacheOffset index off) d off = _ := openZeroCopy_eq
      have hstream := openStreaming_eq (X := X) hlen' d off password
      rw [← openStreaming_checking] at hstream
      cases hz : (a.cacheOffset index off).openZeroCopy (checking X) d off with
      | none => simp only [hzero.trans hz, hz, hstream]
      | some r => simp only [hzero.trans hz, hz]

/-! ## Reading -/

/-- The bytes in memory that a reader takes its content from are fewer than `2 ^ 63`. -/
def Fits : Inner → Prop
  | .streaming _ => True
  | .buffered data _ _ => data.length < 2 ^ 63
  | .shared data _ _ _ => data.length < 2 ^ 63

theorem copyOut_eq {data : Bytes} {i take len : Nat} (hlen : data.length < 2 ^ 63) (htake : take ≤ len)
    (hi : i + take ≤ data.length) : copyOut data i take len = .ok ((data.drop i).take take) := by
  rw [copyOut, slice_replicate htake, ok_bind, add_eq (by omega), ok_bind,
    slice_eq (by omega) hi, ok_bind, Nat.add_sub_cancel_left]
  refine copyFromSlice_eq ?_
  rw [List.length_replicate, List.length_take, List.length_drop]
  omega

theorem pull_eq {call : ReadCall} {i : Inner} (h : Fits i) : pull call i = .ok (i.pull call) := by
  cases i with
  | streaming d => rfl
  | buffered data pos pooled =>
    have h : data.length < 2 ^ 63 := h
    rw [pull, Inner.pull]
    split
    · rw [sub_eq (by omega), ok_bind]
      dsimp only
      rw [copyOut_eq h (by omega) (by omega), ok_bind, add_eq (by omega), ok_bind]
    · rfl
  | shared data start stop pos =>
    have h : data.length < 2 ^ 63 := h
    have hbegin : min (saturatingAdd start pos) data.length = min (start + pos) data.length := by
      rw [saturatingAdd]
      omega
    rw [pull, Inner.pull]
    dsimp only
    rw [hbegin]
    split
    · rw [sub_eq (by omega), ok_bind, copyOut_eq h (by omega) (by omega), ok_bind,
        add_eq (by omega), ok_bind]
    · rfl

theorem Fits.pull {call : ReadCall} {i i' : Inner} {bs : Bytes} (h : Fits i)
    (hp : i.pull call = .ok (bs, i')) : Fits i' ∧ bs.length ≤ call.len := by
  cases i with
  | streaming d =>
    simp only [Inner.pull] at hp
    split at hp
    · split at hp
      · cases hp
        exact ⟨trivial, Nat.zero_le _⟩
      · cases hp
    · cases hp
      refine ⟨trivial, ?_⟩
      rw [List.length_take]
      omega
  | buffered data pos pooled =>
    simp only [Inner.pull] at hp
    split at hp
    · cases hp
      refine ⟨h, ?_⟩
      rw [List.length_take]
      omega
    · cases hp
      exact ⟨h, Nat.zero_le _⟩
  | shared data start stop pos =>
    simp only [Inner.pull] at hp
    split at hp
    · cases hp
      refine ⟨h, ?_⟩
      rw [List.length_take]
      omega
    · cases hp
      exact ⟨h, Nat.zero_le _⟩

theorem readEntry_eq {call : ReadCall} {r : EntryReader} (h : Fits r.inner)
    (hsize : r.sizeRead + call.len < 2 ^ 64) : readEntry X call r = .ok (r.read X call) := by
  rw [readEntry, EntryReader.read]
  cases hpending : r.integrityErr with
  | some e => rfl
  | none =>
    dsimp only
    rw [pull_eq h, ok_bind]
    cases hp : r.inner.pull call with
    | error e => rfl
    | ok res =>
      obtain ⟨bs, i⟩ := res
      obtain ⟨-, hbs⟩ := Fits.pull h hp
      dsimp only
      split
      · have hhash : slice (bs ++ List.replicate (call.len - bs.length) 0) 0 bs.length = .ok bs := by
          rw [slice_front (by rw [List.length_append]; omega), List.take_left' rfl]
        rw [hhash, ok_bind, add_eq (by omega), ok_bind]
        simp only [EntryReader.advance, hpending]
        split <;> rfl
      · split
        · rfl
        · generalize EntryReader.verify X _ = verified
          obtain ⟨ok, r'⟩ := verified
          cases ok with
          | true => rfl
          | false =>
            dsimp only
            cases r'.integrityErr <;> rfl

/-- Reading to the end, by induction on what is left: what has been read is in the vector, which
bounds the count of bytes. -/
theorem readToEndLoop_no_panic (sched : Schedule) {n : Nat} (k : Nat) {r : EntryReader} {out : Bytes}
    (h : r.Reading out) (hfits : Fits r.inner) (hn : r.inner.remaining.length < n) :
    readToEndLoop X sched n k r out ≠ .error .panic := by
  induction n generalizing k r out with
  | zero => omega
  | succ n ih =>
    rw [readToEndLoop]
    split
    · exact nofun
    · rename_i hroom
      have hsize := h.sizeRead
      rw [readEntry_eq hfits (by omega), ok_bind]
      rcases r.inner.pull_spec (sched.len_pos k) with ⟨-, hp⟩ | ⟨bs, i, hp, hbs, hrem, -⟩
      · obtain ⟨hok, herr⟩ := h.last (X := X) hp
        by_cases hpass : r.Passes X out
        · have hr := hok hpass
          revert hr
          cases r.read X (sched.call k) with
          | mk o r' => rintro rfl; exact nofun
        · obtain ⟨e, hr⟩ := herr hpass
          revert hr
          cases r.read X (sched.call k) with
          | mk o r' => rintro rfl; exact nofun
      · rcases h.next (X := X) hp hbs with ⟨hr, hreading⟩ | ⟨-, e, hr⟩
        · rw [hr]
          dsimp only
          rw [if_neg hbs]
          refine ih (k + 1) hreading (Fits.pull hfits hp).1 ?_
          show i.remaining.length < n
          rw [hrem, List.length_append] at hn
          have := List.length_pos_iff.mpr hbs
          omega
        · revert hr
          cases r.read X (sched.call k) with
          | mk o r' => rintro rfl; exact nofun

theorem readToEnd_fresh_no_panic (sched : Schedule) {i : Inner} (hfits : Fits i) (crc : UInt32)
    (size : UInt64) (check : Bool) :
    readToEnd X sched (.fresh i crc size check) ≠ .error .panic :=
  readToEndLoop_no_panic sched 0 ⟨rfl, rfl, rfl, rfl, rfl, Nat.zero_le _⟩ hfits (Nat.lt_succ_self _)

end Checked

end Kzip.Impl
