import Kzip.Proof.SourceHandle
import Kzip.Spec.Copy
import Kzip.Spec.Window

/-!
# Windows

`makeMemorySource` makes a source of the bytes of the window, whenever the window starts in the data
(`makeMemorySource_iff`): the sum of its start and its length does not overflow then. However many windows are
put on a source, what is left is one stretch of its bytes (`windows_nest`), and of the bytes that a source of
fragments or of a file is made of (`windows_made`).
-/

namespace Kzip.Impl

open Lib Kzip.Spec

variable {X : Extern} {σ : Type}

/-- Where a window stops that starts in the data. -/
theorem windowStop_eq (X : Extern) {dlen start : UInt64} (len : Int64) (hdlen : dlen.toNat < 2 ^ 63)
    (hstart : start ≤ dlen) : ∃ hi, windowStop X dlen start len = .ok hi ∧ hi.toNat =
      if len < 0 then dlen.toNat else min (start.toNat + len.toInt.toNat) dlen.toNat := by
  rw [windowStop]
  by_cases hneg : len < 0
  · rw [if_pos hneg, if_pos hneg, ite_self]
    exact ⟨dlen, rfl, rfl⟩
  · have hall : len ≠ zipLengthUnchecked := by
      rintro rfl
      exact hneg (by decide)
    have hlen : len.toUInt64.toNat = len.toInt.toNat := Int64.toNat_toUInt64_of_le (Int64.not_lt.mp hneg)
    have hlt : len.toInt < 2 ^ 63 := Int64.toInt_lt len
    have hle : start.toNat ≤ dlen.toNat := hstart
    have hadd : (start + len.toUInt64).toNat = start.toNat + len.toInt.toNat := by
      rw [UInt64.toNat_add, hlen]
      omega
    refine ⟨min (start + len.toUInt64) dlen, ?_, ?_⟩
    · rw [if_neg hall, if_neg hneg, addU64, if_pos (by omega)]
      rfl
    · rw [if_neg hneg, ← hadd]
      show (if start + len.toUInt64 ≤ dlen then start + len.toUInt64 else dlen).toNat = _
      split
      · rename_i h
        exact (Nat.min_eq_left h).symm
      · rename_i h
        exact (Nat.min_eq_right (Nat.le_of_lt (UInt64.not_le.mp h))).symm

theorem makeMemorySource_iff (X : Extern) (data : Vec) (start : UInt64) (len : Int64) (mtime : Option UInt64)
    {s : SourceHandle σ} : makeMemorySource X data start len mtime = .ok (some s) ↔
      ∃ v, window data start len = some v ∧ s = { backend := .memory (.new v) mtime, refcount := 1 } := by
  have hlen := data.property
  have hsize : (UInt64.ofNat data.val.length).toNat = data.val.length := by
    rw [UInt64.toNat_ofNat']
    omega
  rw [window]
  by_cases hstart : start.toNat ≤ data.val.length
  · have hle : start ≤ UInt64.ofNat data.val.length := by rwa [UInt64.le_iff_toNat_le, hsize]
    obtain ⟨hi, hstop, hhi⟩ := windowStop_eq X len (by omega) hle
    have hge : start.toNat ≤ hi.toNat := by
      rw [hhi, hsize]
      split <;> omega
    have hin : ¬ (start > hi ∨ start > UInt64.ofNat data.val.length) :=
      not_or.mpr ⟨UInt64.not_lt.mpr hge, UInt64.not_lt.mpr hle⟩
    have htake : (data.val.drop start.toNat).take (hi - start).toNat = (data.val.drop start.toNat).take
        (if len < 0 then (data.val.drop start.toNat).length else len.toInt.toNat) := by
      rw [UInt64.toNat_sub_of_le _ _ hge, hhi, hsize]
      by_cases hneg : len < 0
      · rw [if_pos hneg, if_pos hneg, List.length_drop]
      · rw [if_neg hneg, if_neg hneg, List.take_eq_take_iff, List.length_drop]
        omega
    rw [if_pos hstart, makeMemorySource]
    simp only [hstop, Except.map, if_neg hin, Except.ok.injEq, Option.some.injEq, exists_eq_left']
    constructor
    · rintro rfl
      simp only [htake]
    · rintro rfl
      simp only [htake]
  · rw [if_neg hstart]
    refine iff_of_false ?_ (by simp)
    exact (makeMemorySource_refuses_iff X data start len mtime).mpr (Nat.lt_of_not_le hstart) s

variable {C : Callback σ}

/-! ## Windows on windows -/

theorem length_cut {r : Stretch} {data : Vec} (hr : r.hi ≤ data.val.length) :
    (r.cut data).val.length = r.hi - r.lo := by
  show ((data.val.drop r.lo).take (r.hi - r.lo)).length = _
  rw [List.length_take, List.length_drop]
  omega

theorem cut_all (data : Vec) : (Stretch.all data.val.length).cut data = data := by
  refine Subtype.ext ?_
  show (data.val.drop 0).take (data.val.length - 0) = data.val
  rw [List.drop_zero, Nat.sub_zero, List.take_length]

/-- A window leaves a stretch of what it is put on. -/
theorem narrow_within {r r' : Stretch} {w : UInt64 × Int64} (h : r.narrow w = some r') :
    r'.lo ≤ r'.hi ∧ r'.hi ≤ r.hi := by
  rw [Stretch.narrow, Option.ite_none_right_eq_some] at h
  obtain ⟨hin, h⟩ := h
  cases h
  dsimp only
  split <;> omega

/-- A window of a stretch of the data is a window of the data. -/
theorem window_cut {r : Stretch} {data : Vec} (hr : r.hi ≤ data.val.length) (hle : r.lo ≤ r.hi) (w : UInt64 × Int64) :
    window (r.cut data) w.1 w.2 = (r.narrow w).map (·.cut data) := by
  have hlen := length_cut hr
  rw [window, Stretch.narrow]
  by_cases hin : r.lo + w.1.toNat ≤ r.hi
  · rw [if_pos (by omega), if_pos hin, Option.map_some]
    refine congrArg some (Subtype.ext ?_)
    have hdrop : (r.cut data).val.drop w.1.toNat =
        (data.val.drop (r.lo + w.1.toNat)).take (r.hi - r.lo - w.1.toNat) := by
      show ((data.val.drop r.lo).take _).drop _ = _
      rw [List.drop_take, List.drop_drop]
    show ((r.cut data).val.drop w.1.toNat).take _ = (data.val.drop (r.lo + w.1.toNat)).take _
    rw [List.length_drop, hlen, hdrop, List.take_take]
    refine congrArg (fun n => (data.val.drop (r.lo + w.1.toNat)).take n) ?_
    dsimp only
    split <;> omega
  · rw [if_neg (by omega), if_neg hin, Option.map_none]

theorem orNull_makeMemorySource (X : Extern) (data : Vec) (start : UInt64) (len : Int64) (mtime : Option UInt64) :
    orNull (makeMemorySource (σ := σ) X data start len mtime) =
      (window data start len).map (freshSource σ mtime) := by
  refine Option.ext fun s => ?_
  rw [orNull, Option.join_eq_some_iff, toOption_eq_some, makeMemorySource_iff, Option.map_eq_some_iff]
  exact exists_congr fun v => and_congr_right fun _ => eq_comm

/-- The window that is put on a source that can be read. -/
theorem windowCreate_iff {s s' : SourceHandle σ} {rounds : Nat} {data : Vec}
    (hread : (s.dispatchStat C).2.readAll C rounds = some (.ok data, s')) (offset : UInt64) (len : Int64)
    {window : Option (SourceHandle σ)} :
    (∃ rounds left errorp e, zipSourceWindowCreate X C rounds (some s) offset len errorp = some (window, left, e)) ↔
      window = (Spec.window data offset len).map (freshSource σ (s.dispatchStat C).1) := by
  have hcreate (rounds' : Nat) (r : Result Vec × SourceHandle σ) (errorp : Option ZipErrorCode)
      (hr : (s.dispatchStat C).2.readAll C rounds' = some r) :
      ∃ left e, zipSourceWindowCreate X C rounds' (some s) offset len errorp =
        some (orNull (makeMemorySource X data offset len (s.dispatchStat C).1), left, e) := by
    cases readAll_unique hr hread
    simp only [zipSourceWindowCreate, hr, Option.map_some]
    rcases makeMemorySource X data offset len (s.dispatchStat C).1 with _ | _ | _ <;> exact ⟨_, _, rfl⟩
  rw [← orNull_makeMemorySource X]
  constructor
  · rintro ⟨rounds', left, errorp, e, h⟩
    obtain ⟨r, hr, -⟩ := Option.map_eq_some_iff.mp h
    obtain ⟨left', e', h'⟩ := hcreate rounds' r errorp hr
    cases h.symm.trans h'
    rfl
  · rintro rfl
    obtain ⟨left, e, h⟩ := hcreate rounds _ none hread
    exact ⟨rounds, left, none, e, h⟩

theorem windows_none {ws : List (UInt64 × Int64)} {t : Option (SourceHandle σ)} :
    Windows X C none ws t ↔ t = none := by
  induction ws with
  | nil =>
    constructor
    · intro h
      cases h
      rfl
    · rintro rfl
      exact .nil none
  | cons w ws ih =>
    constructor
    · intro h
      cases h with
      | cons hcreate hrest =>
        cases hcreate
        exact ih.mp hrest
    · rintro rfl
      exact .cons (show zipSourceWindowCreate X C 0 none w.1 w.2 none = some (none, none, _) from rfl) (ih.mpr rfl)

/-- Windows on a source of which it is known what a window makes of it. -/
theorem windows_cons {s s' : SourceHandle σ} {rounds : Nat} {data : Vec}
    (hread : (s.dispatchStat C).2.readAll C rounds = some (.ok data, s')) {offset : UInt64} {len : Int64}
    {ws : List (UInt64 × Int64)} {t : Option (SourceHandle σ)} :
    Windows X C (some s) ((offset, len) :: ws) t ↔
      Windows X C ((window data offset len).map (freshSource σ (s.dispatchStat C).1)) ws t := by
  constructor
  · intro h
    cases h with
    | cons hcreate hrest =>
      obtain rfl := (windowCreate_iff hread offset len).mp ⟨_, _, _, _, hcreate⟩
      exact hrest
  · intro h
    obtain ⟨rounds, left, errorp, e, hcreate⟩ := (windowCreate_iff hread offset len).mpr rfl
    exact .cons hcreate h

theorem windows_cut {r : Stretch} {data : Vec} (hr : r.hi ≤ data.val.length) (hle : r.lo ≤ r.hi)
    (mtime : Option UInt64) {ws : List (UInt64 × Int64)} {t : Option (SourceHandle σ)} :
    Windows X C (some (freshSource σ mtime (r.cut data))) ws t ↔
      t = (ws.foldlM Stretch.narrow r).map fun r => freshSource σ mtime (r.cut data) := by
  induction ws generalizing r with
  | nil =>
    constructor
    · intro h
      cases h
      rfl
    · rintro rfl
      exact .nil _
  | cons w ws ih =>
    obtain ⟨rounds, s', hread⟩ : ∃ rounds s', (freshSource σ mtime (r.cut data)).readAll C rounds =
        some (.ok (r.cut data), s') := readAll_memory (s := freshSource σ mtime (r.cut data)) rfl
    have hmtime : ((freshSource σ mtime (r.cut data)).dispatchStat C).1 = mtime := rfl
    rw [windows_cons hread, hmtime, window_cut hr hle w, List.foldlM_cons]
    cases hnarrow : r.narrow w with
    | none => exact windows_none
    | some r' =>
      obtain ⟨hle', hhi⟩ := narrow_within hnarrow
      exact ih (Nat.le_trans hhi hr) hle'

/-- Windows on a window of data in memory. -/
theorem windows_window (data : Vec) (mtime : Option UInt64) (offset : UInt64) (len : Int64)
    {ws : List (UInt64 × Int64)} {t : Option (SourceHandle σ)} :
    Windows X C ((window data offset len).map (freshSource σ mtime)) ws t ↔
      t = (((offset, len) :: ws).foldlM Stretch.narrow (.all data.val.length)).map fun r =>
        freshSource σ mtime (r.cut data) := by
  have hfirst : window data offset len = ((Stretch.all data.val.length).narrow (offset, len)).map (·.cut data) := by
    rw [← window_cut (Nat.le_refl _) (Nat.zero_le _) (offset, len), cut_all]
  rw [hfirst, List.foldlM_cons]
  cases hnarrow : (Stretch.all data.val.length).narrow (offset, len) with
  | none => exact windows_none
  | some r =>
    obtain ⟨hle, hhi⟩ := narrow_within hnarrow
    exact windows_cut hhi hle _

/-- However many windows are put on a source that can be read, each on the one before, and wherever they start
and end: what is left is the stretch that they leave of the bytes that the one read gives, and the modification
time. There is nothing left just when one of them starts behind the end of the one before. -/
theorem windows_nest (X : Extern) (C : Callback σ) {s s' : SourceHandle σ} {rounds : Nat} {data : Vec}
    (hread : (s.dispatchStat C).2.readAll C rounds = some (.ok data, s')) {ws : List (UInt64 × Int64)}
    (hne : ws ≠ []) (t : Option (SourceHandle σ)) :
    Windows X C (some s) ws t ↔
      t = (ws.foldlM Stretch.narrow (.all data.val.length)).map fun r =>
        freshSource σ (s.dispatchStat C).1 (r.cut data) := by
  obtain ⟨⟨offset, len⟩, ws, rfl⟩ := List.exists_cons_of_ne_nil hne
  rw [windows_cons hread]
  exact windows_window data (s.dispatchStat C).1 offset len

def fiveBytes : Vec := ⟨[1, 2, 3, 4, 5], show 5 < 2 ^ 63 by decide⟩

/-- A callback over bytes; the data behind it is the position. -/
def bytesCallback (bs : Bytes) : Callback Nat where
  cmdOpen _ := (0, 0)
  cmdRead k pos := (.ok ((bs.drop pos).take k), pos + k)
  cmdClose pos := pos
  cmdStat pos := (none, pos)

/-- A window of a window of a callback, and one that starts behind the end of the one before. -/
theorem windows_nest_sample :
    let s : SourceHandle Nat := { backend := .callback 0, refcount := 1 }
    (∃ t, Windows reference (bytesCallback fiveBytes.val) (some s) [(1, -1), (1, 2)] (some t) ∧
      Yields (bytesCallback fiveBytes.val) t [3, 4]) ∧
    Windows reference (bytesCallback fiveBytes.val) (some s) [(2, 2), (3, -1)] none := by
  intro s
  have hread : (s.dispatchStat (bytesCallback fiveBytes.val)).2.readAll (bytesCallback fiveBytes.val) 2 =
    some (.ok fiveBytes, _) := rfl
  exact ⟨⟨_, (windows_nest reference _ hread (by decide) _).mpr rfl, (yields_memory rfl _).mpr rfl⟩,
    (windows_nest reference _ hread (by decide) none).mpr rfl⟩

/-! ## Fragments and files -/

theorem ofBytes_append_error {bs : Bytes} {e : Fault} (h : Vec.ofBytes bs = .error e) (more : Bytes) :
    (Vec.ofBytes (bs ++ more)).toOption = none := by
  rw [Vec.ofBytes] at h ⊢
  split at h
  · cases h
  · rw [dif_neg (by rw [List.length_append]; omega)]
    rfl

theorem appendFragment_bytes {p : Vec × UInt64} (hp : p.2 = UInt64.ofNat p.1.val.length) (bs : Vec) :
    appendFragment p (.bytes bs) =
      (Vec.ofBytes (p.1.val ++ bs.val)).map fun data => (data, UInt64.ofNat data.val.length) := by
  obtain ⟨data, total⟩ := p
  obtain rfl : total = UInt64.ofNat data.val.length := hp
  have hdata := data.property
  have hbs := bs.property
  have hcount (n : Nat) (hn : n < 2 ^ 63) : (UInt64.ofNat n).toNat = n := by
    rw [UInt64.toNat_ofNat']
    omega
  rw [appendFragment]
  by_cases hnil : UInt64.ofNat bs.val.length = 0
  · have hempty : bs.val = [] := by
      rw [← List.length_eq_zero_iff, ← hcount _ hbs, hnil]
      rfl
    rw [if_pos hnil, hempty, List.append_nil, Vec.ofBytes, dif_pos hdata]
    rfl
  · rw [if_neg hnil, if_pos (by rw [hcount _ hdata, hcount _ hbs]; omega)]
    cases hout : Vec.ofBytes (data.val ++ bs.val) with
    | error e => rfl
    | ok out =>
      have hsum : UInt64.ofNat out.val.length = UInt64.ofNat data.val.length + UInt64.ofNat bs.val.length := by
        rw [Vec.ofBytes_ok.mp hout, List.length_append, UInt64.ofNat_add]
      show Except.ok (out, _) = Except.ok (out, _)
      rw [hsum]

/-- The fragments are put one behind the other; their number of bytes is never too large to be counted. -/
theorem appendFragments_eq (frags : List BufferFragment) {p : Vec × UInt64}
    (hp : p.2 = UInt64.ofNat p.1.val.length) : ((frags.foldlM appendFragment p).map (·.1)).toOption =
      (frags.mapM fragmentBytes).bind fun bss => (Vec.ofBytes (p.1.val ++ bss.flatten)).toOption := by
  induction frags generalizing p with
  | nil =>
    obtain ⟨⟨bs, hbs⟩, total⟩ := p
    show some _ = (Vec.ofBytes (bs ++ [])).toOption
    rw [List.append_nil, Vec.ofBytes, dif_pos hbs]
    rfl
  | cons f frags ih =>
    rw [List.foldlM_cons, List.mapM_cons]
    cases f with
    | null length =>
      rw [appendFragment, fragmentBytes]
      split
      · refine (ih hp).trans ?_
        cases frags.mapM fragmentBytes <;> rfl
      · rfl
    | bytes bs =>
      rw [appendFragment_bytes hp, fragmentBytes]
      cases hdata : Vec.ofBytes (p.1.val ++ bs.val) with
      | error e =>
        cases frags.mapM fragmentBytes with
        | none => rfl
        | some bss =>
          show none = (Vec.ofBytes (p.1.val ++ (bs.val ++ bss.flatten))).toOption
          rw [← List.append_assoc, ofBytes_append_error hdata]
      | ok data =>
        have hrest := @ih (data, UInt64.ofNat data.val.length) rfl
        refine hrest.trans ?_
        cases frags.mapM fragmentBytes with
        | none => rfl
        | some bss =>
          show (Vec.ofBytes (data.val ++ bss.flatten)).toOption =
            (Vec.ofBytes (p.1.val ++ (bs.val ++ bss.flatten))).toOption
          rw [Vec.ofBytes_ok.mp hdata, List.append_assoc]

theorem window_rest (data : Vec) : window data 0 (-1) = some data := by
  rw [window, if_pos (show (0 : UInt64).toNat ≤ data.val.length from Nat.zero_le _)]
  exact congrArg some (Subtype.ext List.take_length)

theorem fragments_made (X : Extern) (clock : Option UInt64) (array : FragmentArray) (errorp : Option ZipErrorCode) :
    (zipSourceBufferFragmentCreate (σ := σ) X clock array errorp).1 =
      (arrayData array).map (freshSource σ clock) := by
  have hdata : array.data.toOption = arrayData array := by
    cases array with
    | null nfragments =>
      rw [FragmentArray.data, arrayData, arrayBytes]
      by_cases hzero : nfragments = 0
      · rw [hzero]
        rfl
      · rw [if_pos (UInt64.pos_iff_ne_zero.mpr hzero), if_neg hzero]
        rfl
    | fragments frags =>
      rw [FragmentArray.data, appendFragments_eq frags rfl, arrayData, arrayBytes]
      cases frags.mapM fragmentBytes <;> rfl
  rw [zipSourceBufferFragmentCreate, ← hdata]
  cases harray : array.data with
  | error e => rfl
  | ok data =>
    rw [ok_bind, orNull_makeMemorySource, window_rest]
    rfl

theorem file_made (X : Extern) (disk : Utf8.Str → Option FileOnDisk) (path : Option Bytes) (start : UInt64)
    (len : Int64) : sourceFileFromPath X disk path start len =
      (fileData disk path).bind fun file => (window file.1 start len).map (freshSource σ file.2) := by
  unfold sourceFileFromPath fileData
  cases cStr path with
  | none => rfl
  | some name =>
    dsimp only [Option.bind_eq_bind, Option.bind_some]
    cases disk name with
    | none => rfl
    | some file =>
      obtain ⟨isFile, mtime, data⟩ := file
      cases isFile with
      | false => cases data <;> rfl
      | true =>
        cases data with
        | none => rfl
        | some data => exact orNull_makeMemorySource X data start len mtime

/-- A source that is made of fragments or of a file, and windows on it, each on the one before: what is left is
the stretch that they leave of the bytes of the fragments, one behind the other, or of the file. There is nothing
left just when the fragments or the file cannot be had, or a window starts behind the end of the one before. -/
theorem windows_made (X : Extern) (C : Callback σ) (errorp : Option ZipErrorCode) (ws : List (UInt64 × Int64))
    (t : Option (SourceHandle σ)) :
    (∀ clock array, Windows X C (zipSourceBufferFragmentCreate X clock array errorp).1 ws t ↔
      t = (arrayData array).bind fun data =>
        (ws.foldlM Stretch.narrow (.all data.val.length)).map fun r => freshSource σ clock (r.cut data)) ∧
    ∀ disk path start len, Windows X C (zipSourceFileCreate X disk path start len errorp).1 ws t ↔
      t = (fileData disk path).bind fun file =>
        (((start, len) :: ws).foldlM Stretch.narrow (.all file.1.val.length)).map fun r =>
          freshSource σ file.2 (r.cut file.1) := by
  refine ⟨fun clock array => ?_, fun disk path start len => ?_⟩
  · rw [fragments_made]
    cases arrayData array with
    | none => exact windows_none
    | some data =>
      have hwindows : Windows X C (some (freshSource σ clock ((Stretch.all data.val.length).cut data))) ws t ↔ _ :=
        windows_cut (Nat.le_refl _) (Nat.zero_le _) clock
      rwa [cut_all] at hwindows
  · have hfile : (zipSourceFileCreate (σ := σ) X disk path start len errorp).1 =
        sourceFileFromPath X disk path start len := by
      rw [zipSourceFileCreate]
      cases sourceFileFromPath X disk path start len <;> rfl
    rw [hfile, file_made]
    cases fileData disk path with
    | none => exact windows_none
    | some file => exact windows_window file.1 file.2 start len

end Kzip.Impl
