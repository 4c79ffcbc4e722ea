import Kzip.Proof.Cdir
import Kzip.Spec.ModifyFailure

/-!
# Reading the directory of a file

Through a file whose operations may fail, `readCentralDirFile` gives the directory that is in the file, or an
error after a failure, or the directory without its ZIP64 end record (`gives_readCentralDirFile`).
-/

namespace Kzip.Impl

open Lib Lib.Utf8 Kzip.Spec

variable {sys : FileSystem} {content : Vec} {α : Type}

/-- A disk with this file. -/
def Holding (content : Vec) (disk : Disk) : Prop := disk.file.content = content

/-- A seek or a read has failed. -/
def Unread (disk : Disk) : Prop := Missed disk.faults

/-- The bytes of the file, as a source. -/
def fileSource (sys : FileSystem) (content : Vec) : Source := { kind := .file sys.maps, bytes := content.val }

/-! ## Seeks and reads -/

theorem missed_append {faults : List FileCall} (h : Missed faults) (more : List FileCall) :
    Missed (faults ++ more) :=
  h.imp (List.mem_append_left more) (List.mem_append_left more)

theorem missed_ne_nil {faults : List FileCall} (h : Missed faults) : faults ≠ [] :=
  h.elim List.ne_nil_of_mem List.ne_nil_of_mem

theorem missed_concat {call : FileCall} (hcall : call = .seek ∨ call = .read) (faults : List FileCall) :
    Missed (faults ++ [call]) := by
  rcases hcall with rfl | rfl
  · exact .inl List.mem_concat_self
  · exact .inr List.mem_concat_self

theorem exec_readCall (call : FileCall) (code : ZipErrorCode) (act : OsFile → Result (α × OsFile)) (disk : Disk) :
    exec (readCall sys call code act) disk =
      if sys.fails disk.calls call then
        (.error (.err code), { file := { disk.file with pos := sys.readTo }, calls := disk.calls + 1,
                               faults := disk.faults ++ [call] })
      else
        match act disk.file with
        | .ok (a, file) => (.ok a, { disk with file, calls := disk.calls + 1 })
        | .error e => (.error e, { disk with file := { disk.file with pos := sys.readTo },
                                             calls := disk.calls + 1 }) := by
  by_cases hfails : sys.fails disk.calls call = true
  · rw [if_pos hfails]
    exact if_pos hfails
  · rw [if_neg hfails]
    have hrun : exec (readCall sys call code act) disk = _ := if_neg hfails
    rw [hrun]
    rcases act disk.file with e | ⟨a, file⟩ <;> rfl

theorem keeps_readCall (call : FileCall) (code : ZipErrorCode) {act : OsFile → Result (α × OsFile)}
    (hact : ∀ f, f.content = content → ∀ a f', act f = .ok (a, f') → f'.content = content) :
    Keeps (Holding content) Unread (readCall sys call code act) := by
  refine ⟨fun disk hdisk => ?_, fun disk hdisk hbad => ?_⟩
  all_goals
    rw [exec_readCall]
    by_cases hfails : sys.fails disk.calls call = true
    all_goals
      simp only [hfails, if_true, Bool.false_eq_true, if_false]
  · exact hdisk
  · cases hrun : act disk.file with
    | error e => exact hdisk
    | ok r => exact hact disk.file hdisk r.1 r.2 hrun
  · exact missed_append hbad [call]
  · cases act disk.file with
    | error e => exact hbad
    | ok r => exact hbad

/-- A seek or read that only moves the file pointer. -/
theorem readCall_cases (sys : FileSystem) {call : FileCall} (hcall : call = .seek ∨ call = .read)
    (code : ZipErrorCode) (act : OsFile → Result (α × OsFile)) (disk : Disk) {a : α} {pos : Nat}
    (hact : act disk.file = .ok (a, { disk.file with pos })) :
    exec (readCall sys call code act) disk =
        (.ok a, { disk with file := { disk.file with pos }, calls := disk.calls + 1 }) ∨
      ∃ e t, exec (readCall sys call code act) disk = (.error e, t) ∧ Unread t := by
  rw [exec_readCall, hact]
  by_cases hfails : sys.fails disk.calls call = true
  · rw [if_pos hfails]
    exact .inr ⟨_, _, rfl, missed_concat hcall disk.faults⟩
  · rw [if_neg hfails]
    exact .inl rfl

theorem runs_readCall {call : FileCall} (hcall : call = .seek ∨ call = .read) (code : ZipErrorCode)
    {act : OsFile → Result (α × OsFile)} (hact : ∀ f, ∃ a pos, act f = .ok (a, { f with pos })) :
    Runs (Holding content) Unread (readCall sys call code act) where
  toKeeps := by
    refine keeps_readCall call code fun f hf a f' hrun => ?_
    obtain ⟨b, pos, hb⟩ := hact f
    cases hb.symm.trans hrun
    exact hf
  gives := fun disk _ => by
    obtain ⟨a, pos, ha⟩ := hact disk.file
    rcases readCall_cases sys hcall code act disk ha with hrun | ⟨e, t, hrun, hunread⟩
    · rw [hrun]
      exact .inl ⟨a, rfl⟩
    · rw [hrun]
      exact .inr ⟨hunread, e, rfl⟩

/-- A seek or read that gives the same wherever the file pointer is. -/
theorem gives_readCall {call : FileCall} (hcall : call = .seek ∨ call = .read) (code : ZipErrorCode)
    {act : OsFile → Result (α × OsFile)} {a : α}
    (hact : ∀ f, f.content = content → ∃ pos, act f = .ok (a, { f with pos })) :
    Gives (Holding content) Unread (readCall sys call code act) (.ok a) fun _ => False where
  toKeeps := by
    refine keeps_readCall call code fun f hf b f' hrun => ?_
    obtain ⟨pos, ha⟩ := hact f hf
    cases ha.symm.trans hrun
    exact hf
  gives := fun disk hdisk => by
    obtain ⟨pos, ha⟩ := hact disk.file hdisk
    rcases readCall_cases sys hcall code act disk ha with hrun | ⟨e, t, hrun, hunread⟩
    · rw [hrun]
      exact .inl rfl
    · rw [hrun]
      exact .inr ⟨hunread, .inr ⟨e, rfl⟩⟩

/-- What a read at a position gives if nothing fails. -/
def readThere (sys : FileSystem) (content : Vec) (code : ZipErrorCode) (pos n : Nat) : Result Bytes :=
  if pos < 2 ^ 63 then
    match (fileSource sys content).readExact pos n with
    | some bs => .ok bs
    | none => .error (.err .eof)
  else .error (.err code)

theorem exec_seekStart (sys : FileSystem) (code : ZipErrorCode) (pos : Nat) (disk : Disk) :
    exec (seekStart sys code pos) disk =
      if sys.fails disk.calls .seek then
        (.error (.err code), { file := { disk.file with pos := sys.readTo }, calls := disk.calls + 1,
                               faults := disk.faults ++ [.seek] })
      else if pos < 2 ^ 63 then
        (.ok (), { disk with file := { disk.file with pos }, calls := disk.calls + 1 })
      else
        (.error (.err code), { disk with file := { disk.file with pos := sys.readTo },
                                         calls := disk.calls + 1 }) := by
  rw [seekStart, exec_readCall]
  by_cases hpos : pos < 2 ^ 63
  · rw [if_pos hpos, if_pos hpos]
  · rw [if_neg hpos, if_neg hpos]

theorem keeps_readAtFile (code : ZipErrorCode) (pos n : Nat) :
    Keeps (Holding content) Unread (readAtFile sys code pos n) := by
  refine (keeps_readCall .seek code fun f hf a f' hrun => ?_).bind fun _ => ?_
  · split at hrun
    · cases hrun
      exact hf
    · cases hrun
  · rw [readExactFile]
    split
    · exact keeps_plainly (.ok [])
    · refine keeps_readCall .read .read fun f hf a f' hrun => ?_
      split at hrun
      · cases hrun
        exact hf
      · cases hrun

theorem gives_readAtFile (code : ZipErrorCode) (pos n : Nat) :
    Gives (Holding content) Unread (readAtFile sys code pos n) (readThere sys content code pos n)
      fun _ => False where
  toKeeps := keeps_readAtFile code pos n
  gives := fun disk hdisk => by
    rw [readAtFile]
    by_cases hseek : sys.fails disk.calls .seek = true
    · rw [exec_bind_error ((exec_seekStart ..).trans (if_pos hseek))]
      exact .inr ⟨missed_concat (.inl rfl) disk.faults, .inr ⟨_, rfl⟩⟩
    have hsought := (exec_seekStart sys code pos disk).trans (if_neg hseek)
    by_cases hpos : pos < 2 ^ 63
    · rw [if_pos hpos] at hsought
      rw [exec_bind_ok hsought, readExactFile, readThere, if_pos hpos, Source.readExact]
      by_cases hn : n = 0
      · rw [if_pos hn, if_pos hn]
        exact .inl rfl
      rw [if_neg hn, if_neg hn, exec_readCall]
      dsimp only
      by_cases hread : sys.fails (disk.calls + 1) .read = true
      · rw [if_pos hread]
        exact .inr ⟨missed_concat (.inr rfl) disk.faults, .inr ⟨_, rfl⟩⟩
      rw [if_neg hread]
      have hbytes : disk.file.content.val = content.val := congrArg Subtype.val hdisk
      have hsource : (fileSource sys content).bytes = content.val := rfl
      by_cases hle : pos + n ≤ content.val.length
      · rw [if_pos (hbytes ▸ hle), hsource, if_pos hle, hbytes]
        exact .inl rfl
      · rw [if_neg (hbytes ▸ hle), hsource, if_neg hle]
        exact .inl rfl
    · rw [if_neg hpos] at hsought
      rw [exec_bind_error hsought, readThere, if_neg hpos]
      exact .inl rfl

theorem gives_seekBack (pos : Nat) :
    Gives (Holding content) Unread (seekBack sys pos) (.ok ()) fun _ => False :=
  gives_readCall (.inl rfl) _ fun _ _ => ⟨pos, rfl⟩

theorem runs_streamPosition : Runs (Holding content) Unread (streamPosition sys) :=
  runs_readCall (.inl rfl) _ fun f => ⟨f.pos, f.pos, rfl⟩

theorem gives_sourceLen :
    Gives (Holding content) Unread (sourceLen sys) (.ok content.val.length) fun _ => False := by
  refine runs_streamPosition.then fun pos => ?_
  have hlen : Gives (Holding content) Unread
      (readCall sys .seek .seek fun f => .ok (f.content.val.length, { f with pos := f.content.val.length }))
      (.ok content.val.length) fun _ => False :=
    gives_readCall (.inl rfl) .seek fun f hf => ⟨f.content.val.length, by rw [hf]⟩
  exact hlen.then fun len => (gives_seekBack pos).then fun _ => gives_pure len

theorem gives_readHead :
    Gives (Holding content) Unread (readHead sys) (.ok (content.val.take 2)) fun _ => False where
  toKeeps := by
    refine (gives_seekBack 0).toKeeps.bind fun _ => keeps_readCall .read .read fun f hf a f' hrun => ?_
    cases hrun
    exact hf
  gives := fun disk hdisk => by
    rw [readHead, seekBack]
    rcases readCall_cases sys (.inl rfl) .seek (fun f => .ok ((), { f with pos := 0 })) disk rfl with
      hseek | ⟨e, t, hseek, hunread⟩
    · rw [exec_bind_ok hseek]
      rcases readCall_cases sys (.inr rfl) .read (fun f => .ok (f.read 2 2))
        { disk with file := { disk.file with pos := 0 }, calls := disk.calls + 1 } rfl with
        hread | ⟨e, t, hread, hunread⟩
      · rw [hread]
        have hbytes : (disk.file.content.val.drop 0).take (min 2 2) = content.val.take 2 := by
          rw [List.drop_zero, Nat.min_self, show disk.file.content = content from hdisk]
        exact .inl (congrArg Except.ok hbytes)
      · rw [hread]
        exact .inr ⟨hunread, .inr ⟨e, rfl⟩⟩
    · rw [exec_bind_error hseek]
      exact .inr ⟨hunread, .inr ⟨e, rfl⟩⟩

theorem gives_sourceStartsWithPk :
    Gives (Holding content) Unread (sourceStartsWithPkFile sys)
      (.ok (sourceStartsWithPk (fileSource sys content))) fun _ => False := by
  refine runs_streamPosition.then fun pos => ?_
  have hpure (head : Bytes) : Gives (Holding content) Unread
      (seekBack sys pos >>= fun _ => pure (head == [0x50, 0x4B])) (.ok (head == [0x50, 0x4B])) fun _ => False :=
    (gives_seekBack pos).then fun _ => gives_pure _
  exact gives_readHead.then hpure

/-! ## The directory -/

theorem gives_readEocd64 (offset : UInt64) :
    Gives (Holding content) Unread (readEocd64File sys offset)
      (.ok (readEocd64 (fileSource sys content) offset)) fun r => r = .ok none := by
  have hread : Gives (Holding content) Unread (readAtFile sys .seek offset.toNat size.eocd64)
      (readThere sys content .seek offset.toNat size.eocd64) fun _ => False :=
    gives_readAtFile ..
  have hgives := hread.attempt.after fun raw => gives_pure (raw.bind parseEocd64)
  have hvalue : (readThere sys content .seek offset.toNat size.eocd64).toOption.bind parseEocd64 =
      readEocd64 (fileSource sys content) offset := by
    have hseek : (fileSource sys content).canSeek offset.toNat = decide (offset.toNat < 2 ^ 63) := rfl
    rw [readThere, readEocd64, hseek]
    by_cases hpos : offset.toNat < 2 ^ 63
    · rw [if_pos hpos, if_pos (decide_eq_true hpos)]
      cases (fileSource sys content).readExact offset.toNat size.eocd64 <;> rfl
    · rw [if_neg hpos, if_neg (by rw [decide_eq_false hpos]; exact Bool.false_ne_true)]
      rfl
  rw [← hvalue]
  refine hgives.mono ?_
  rintro r ⟨y', rfl, rfl⟩
  rfl

theorem gives_readEntries (offset cdirSize numEntries : UInt64) :
    Gives (Holding content) Unread (readEntriesFile sys offset cdirSize numEntries)
      (readEntries (fileSource sys content) offset cdirSize numEntries) fun _ => False := by
  have hseek : (fileSource sys content).canSeek offset.toNat = decide (offset.toNat < 2 ^ 63) := rfl
  rw [readEntriesFile, readEntries]
  by_cases hmax : cdirSize > maxCdSize
  · rw [if_pos hmax, if_pos hmax]
    exact gives_plainly _
  rw [if_neg hmax, if_neg hmax]
  have hgives : Gives (Holding content) Unread
      (changeError inconsAtEof (readAtFile sys .seek offset.toNat cdirSize.toNat) >>= fun buf =>
        plainly (parseEntries numEntries buf))
      ((readThere sys content .seek offset.toNat cdirSize.toNat).mapError inconsAtEof >>= parseEntries numEntries)
      fun _ => False :=
    ((gives_readAtFile ..).changeError inconsAtEof).then fun buf => gives_plainly (parseEntries numEntries buf)
  rw [readThere] at hgives
  by_cases hpos : offset.toNat < 2 ^ 63
  · rw [if_pos hpos] at hgives
    rw [hseek, decide_eq_true hpos, Bool.not_true, if_neg Bool.false_ne_true]
    cases hread : (fileSource sys content).readExact offset.toNat cdirSize.toNat with
    | none =>
      rw [hread] at hgives
      exact hgives
    | some buf =>
      rw [hread] at hgives
      exact hgives
  · rw [if_neg hpos] at hgives
    rw [hseek, decide_eq_false hpos, Bool.not_false, if_pos rfl]
    exact hgives

theorem gives_cdirAt (comment : Str) (n : UInt64) (z : Bool) (cdirSize cdirOffset : UInt64) :
    Gives (Holding content) Unread (cdirAtFile sys comment n z cdirSize cdirOffset)
      (cdirAt (fileSource sys content) comment n z cdirSize cdirOffset) fun _ => False :=
  (gives_readEntries cdirOffset cdirSize n).then fun _ => gives_pure _

theorem gives_finishCdir (comment : Str) (n : UInt16) (z : Bool) (cdirSize cdirOffset : UInt64) :
    Gives (Holding content) Unread (finishCdirFile sys comment n z cdirSize cdirOffset)
      (finishCdir (fileSource sys content) comment n z cdirSize cdirOffset) fun _ => False := by
  rw [finishCdirFile, finishCdir]
  split
  · exact gives_pure _
  · exact gives_cdirAt ..

/-- The directory of an end record. -/
def EndRecord.cdir (src : Source) (r : EndRecord) : Result CentralDir :=
  cdirOf src r.comment r.numEntries r.cdirSize r.cdirOffset r.locator

/-- The directory of an end record with a locator before it, and what the locator leads to. -/
def EndRecord.wideCdir (src : Source) (r : EndRecord) (z : Option Zip64Eocd) : Result CentralDir :=
  match z with
  | some z =>
    if r.numEntries = 0xFFFF then cdirAt src r.comment z.numEntries true z.cdirSize z.cdirOffset
    else finishCdir src r.comment r.numEntries true z.cdirSize z.cdirOffset
  | none => finishCdir src r.comment r.numEntries true r.cdirSize r.cdirOffset

/-- The directory without the ZIP64 end record. -/
def EndRecord.Narrow (src : Source) (r : EndRecord) (cd : Result CentralDir) : Prop :=
  r.locator.isSome = true ∧ cd = finishCdir src r.comment r.numEntries true r.cdirSize r.cdirOffset

theorem gives_cdirOf (r : EndRecord) :
    Gives (Holding content) Unread (cdirOfFile sys r) (r.cdir (fileSource sys content))
      (r.Narrow (fileSource sys content)) := by
  cases hlocator : r.locator with
  | none =>
    simp only [cdirOfFile, EndRecord.cdir, cdirOf, hlocator]
    exact (gives_finishCdir ..).mono fun _ h => h.elim
  | some offset =>
    have hcdir : r.cdir (fileSource sys content) =
        (.ok (readEocd64 (fileSource sys content) offset) >>= r.wideCdir (fileSource sys content)) := by
      rw [EndRecord.cdir, hlocator]
      rfl
    simp only [cdirOfFile, hlocator]
    rw [hcdir]
    refine ((gives_readEocd64 offset).after fun z => ?_).mono ?_
    · cases z with
      | none => exact gives_finishCdir ..
      | some z =>
        dsimp only [EndRecord.wideCdir]
        split
        · exact gives_cdirAt ..
        · exact gives_finishCdir ..
    · rintro cd ⟨y', rfl, rfl⟩
      exact ⟨by rw [hlocator]; rfl, rfl⟩

/-! ## The search -/

theorem tryParseCdir_eq (src : Source) (tail : Bytes) (tailStart abs : Nat) :
    tryParseCdir src tail tailStart abs =
      match endRecordAt tail tailStart abs with
      | none => .ok none
      | some r => (r.cdir src).map some := by
  simp only [tryParseCdir, endRecordAt]
  split
  · rfl
  · split
    · rfl
    · split <;> rfl

/-- The search ends at the first end record that is not passed over. -/
theorem firstCdir_eq (src : Source) (tail : Bytes) (tailStart : Nat) (cands : List Nat) :
    firstCdir src tail tailStart cands =
      match cands.findSome? (endRecordAt tail tailStart) with
      | none => .ok none
      | some r => (r.cdir src).map some := by
  induction cands with
  | nil => rfl
  | cons abs cands ih =>
    rw [firstCdir, tryParseCdir_eq, List.findSome?_cons]
    cases endRecordAt tail tailStart abs with
    | none => exact ih
    | some r =>
      dsimp only
      cases r.cdir src <;> rfl

theorem gives_firstCdir (tail : Bytes) (tailStart : Nat) (cands : List Nat) :
    Gives (Holding content) Unread (firstCdirFile sys tail tailStart cands)
      (firstCdir (fileSource sys content) tail tailStart cands)
      fun r => ∃ record cd, cands.findSome? (endRecordAt tail tailStart) = some record ∧
        record.Narrow (fileSource sys content) cd ∧ r = cd.map some := by
  rw [firstCdir_eq]
  induction cands with
  | nil => exact gives_pure none
  | cons abs cands ih =>
    rw [firstCdirFile, List.findSome?_cons]
    cases endRecordAt tail tailStart abs with
    | none => exact ih
    | some record =>
      have hmap (cd : Result CentralDir) : cd.map some = (cd >>= fun cd => .ok (some cd)) := by
        cases cd <;> rfl
      dsimp only
      rw [hmap]
      refine ((gives_cdirOf record).after fun cd => gives_pure (some cd)).mono ?_
      rintro r ⟨cd, hnarrow, rfl⟩
      exact ⟨record, cd, rfl, hnarrow, (hmap cd).symm⟩

/-- The rest of `read_central_dir`, once the search has come to an end. -/
def afterSearch (src : Source) : Option CentralDir → Result CentralDir
  | some cd => .ok cd
  | none => if sourceStartsWithPk src then .error (.err .truncatedZip) else .error (.err .nozip)

/-- What `read_central_dir` does with a source of this length. -/
def searchTail (sys : FileSystem) (content : Vec) (len : Nat) : Result CentralDir :=
  if len < size.eocd then .error (.err .nozip)
  else
    readThere sys content .internal (len - min len maxCdBuffer) (min len maxCdBuffer) >>= fun tail =>
      firstCdir (fileSource sys content) tail (len - min len maxCdBuffer)
        (candidates tail (len - min len maxCdBuffer)) >>= afterSearch (fileSource sys content)

theorem readThere_tail (code : ZipErrorCode) :
    readThere sys content code (content.val.length - min content.val.length maxCdBuffer)
      (min content.val.length maxCdBuffer) =
        .ok (content.val.drop (content.val.length - min content.val.length maxCdBuffer)) := by
  have hlen := content.property
  have hfull : content.val.length - min content.val.length maxCdBuffer + min content.val.length maxCdBuffer =
      content.val.length := by omega
  have hread : (fileSource sys content).readExact (content.val.length - min content.val.length maxCdBuffer)
      (min content.val.length maxCdBuffer) = some _ := Source.readExact_ok (Nat.le_of_eq hfull)
  have htake : (content.val.drop (content.val.length - min content.val.length maxCdBuffer)).length ≤
      min content.val.length maxCdBuffer := by
    rw [List.length_drop]
    omega
  rw [readThere, if_pos (by omega), hread]
  exact congrArg Except.ok (List.take_of_length_le htake)

theorem searchTail_length : searchTail sys content content.val.length = readCentralDir (fileSource sys content) := by
  have hbytes : (fileSource sys content).bytes = content.val := rfl
  rw [searchTail, readCentralDir, readThere_tail, hbytes]
  split <;> rfl

/-- What is read of a file: its directory, and after a failure perhaps the one without the ZIP64 end record. -/
theorem gives_readCentralDirFile :
    Gives (Holding content) Unread (readCentralDirFile sys) (readCentralDir (fileSource sys content))
      fun r => ∃ record, lastEndRecord content.val = some record ∧
        record.Narrow (fileSource sys content) r := by
  have hafter (found : Option CentralDir) : Gives (Holding content) Unread
      (match found with
        | some cd => pure cd
        | none => do
          if ← sourceStartsWithPkFile sys then plainly (.error (.err .truncatedZip))
          else plainly (.error (.err .nozip)))
      (afterSearch (fileSource sys content) found) fun _ => False := by
    cases found with
    | some cd => exact gives_pure cd
    | none =>
      refine gives_sourceStartsWithPk.then (g := fun pk =>
        if pk = true then .error (.err .truncatedZip) else .error (.err .nozip)) fun pk => ?_
      cases pk <;> exact gives_plainly _
  rw [← searchTail_length]
  refine (gives_sourceLen.next (g := searchTail sys content) (Q := fun len r => ∃ tail,
    readThere sys content .internal (len - min len maxCdBuffer) (min len maxCdBuffer) = .ok tail ∧
      ∃ record, (candidates tail (len - min len maxCdBuffer)).findSome?
          (endRecordAt tail (len - min len maxCdBuffer)) = some record ∧
        record.Narrow (fileSource sys content) r) fun len => ?_).mono ?_
  · rw [searchTail]
    split
    · exact gives_plainly _
    · refine ((gives_readAtFile ..).next fun tail => (gives_firstCdir ..).after hafter).mono ?_
      rintro r ⟨tail, htail, found, ⟨record, cd, hrecord, hnarrow, rfl⟩, rfl⟩
      refine ⟨tail, htail, record, hrecord, ?_⟩
      have hcd : (cd.map some >>= afterSearch (fileSource sys content)) = cd := by cases cd <;> rfl
      rwa [hcd]
  · rintro r ⟨len, hlen, tail, htail, record, hrecord, hnarrow⟩
    obtain rfl := Except.ok.inj hlen
    obtain rfl := Except.ok.inj ((readThere_tail _).symm.trans htail)
    exact ⟨record, hrecord, hnarrow⟩

/-- A program that starts by reading the directory: it fails, or goes on with a directory that may be found. -/
theorem exec_readCentralDirFile_cases {next : CentralDir → OnDisk α} {disk : Disk} {run : Result α × Disk}
    (hdisk : Holding content disk) (hrun : exec (readCentralDirFile sys >>= next) disk = run) :
    ∃ read, Holding content read ∧
      ((∃ e, run = (.error e, read) ∧ (readCentralDir (fileSource sys content) = .error e ∨ Unread read)) ∨
        ∃ cd, exec (next cd) read = run ∧ (readCentralDir (fileSource sys content) = .ok cd ∨
          Unread read ∧ NarrowDirectory (fileSource sys content) cd)) := by
  have hprogram := @gives_readCentralDirFile sys content
  have hkeeps := hprogram.keeps disk hdisk
  have hgives := hprogram.gives disk hdisk
  rcases exec_bind_cases (readCentralDirFile sys) next disk with
    ⟨e, read, hread, hnext⟩ | ⟨cd, read, hread, hnext⟩
  · rw [hread] at hkeeps hgives
    refine ⟨read, hkeeps, .inl ⟨e, hrun.symm.trans hnext, ?_⟩⟩
    exact hgives.imp Eq.symm And.left
  · rw [hread] at hkeeps hgives
    refine ⟨read, hkeeps, .inr ⟨cd, hnext.symm.trans hrun, ?_⟩⟩
    rcases hgives with hcd | ⟨hunread, ⟨record, hrecord, hlocator, hcd⟩ | ⟨e, he⟩⟩
    · exact .inl hcd.symm
    · exact .inr ⟨hunread, record, hrecord, hlocator, hcd.symm⟩
    · cases he

end Kzip.Impl
