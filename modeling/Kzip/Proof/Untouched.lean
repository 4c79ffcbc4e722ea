import Kzip.Impl.Reference
import Kzip.Proof.Reopened

/-!
# Entries that no call edited

An entry that no successful call edited has no pending edits (`untouched_ops`), so a close makes its
file from its own record and content. `materialize_untouched_iff` says when it stays the same.
-/

namespace Kzip.Impl

open Lib Lib.Utf8 Kzip.Spec

variable {X : Extern}

/-! ## Edits of an untouched entry -/

/-- An effect that does not edit an entry leaves it without edits. -/
theorem apply_ops_none {n : Nat} {e : Edits} {x : Effect} {i : Nat} (h : e.ops i = .none)
    (hx : x.target ≠ some i) : (x.apply n e).ops i = .none := by
  cases x with
  | keep => exact h
  | record j s =>
    have hne : i ≠ j := fun hij => hx (congrArg some hij.symm)
    rw [Effect.ops_record_of_ne n e hne]
    exact h
  | add entry => exact h
  | unchange j =>
    by_cases hij : i = j
    · rw [Effect.ops_unchange, hij, Function.update_self]
    · rw [Effect.ops_unchange, Function.update_of_ne hij]
      exact h
  | clear => rfl

theorem untouched_ops {n : Nat} {effs : List Effect} {e : Edits} {i : Nat} (h : e.ops i = .none)
    (hi : Untouched effs i) : (effs.foldl (Effect.apply n) e).ops i = .none := by
  induction effs generalizing e with
  | nil => exact h
  | cons x effs ih =>
    obtain ⟨hx, hi⟩ := List.forall_mem_cons.mp hi
    exact ih (apply_ops_none h hx) hi

/-! ## The file of an untouched entry -/

/-- The file made of an entry without edits has its metadata, and is not encrypted. -/
theorem describes_entryFor (d : Dirent) (data : Vec) :
    Describes d (entryFor X (some d) .none d.filename data).1 where
  filename := rfl
  comment := by
    show _ = Option.getD (if d.comment = [] then none else some (asBytes d.comment)) []
    split
    · rename_i h
      rw [h]
      rfl
    · rfl
  lastModTime := rfl
  lastModDate := rfl
  opsys := rfl
  extAttrib := rfl
  extraFields := by
    show userFields d.extraFields = userFields (withoutManaged d.extraFields)
    rw [userFields, userFields, withoutManaged, List.filter_filter]
    refine List.filter_congr fun f _ => ?_
    cases f.1 != efWinzipAes <;> cases f.1 != extraFieldZip64 <;> rfl

theorem makeZip_edits (a : Archive) (flags : Int32) (i : Nat) :
    (editsOf (makeZip a flags).pending).ops i = .none := rfl

/-- The file of an entry without edits. -/
theorem entry_without_edits {a : Archive} {z : Zip} (hgrown : a.Grown z.archive) {i : Nat} {d : Dirent}
    {f : ArchiveFile × UInt16} (hd : a.entries[i]? = some d)
    (hops : (editsOf z.pending).ops i = .none) (hf : IsEntry X z.archive (editsOf z.pending) i f) :
    f.2 = encryption.none ∧ Describes d f.1 ∧
      ∀ sched, (z.archive.readEntry X sched i).1 = .ok f.1.data.val := by
  obtain ⟨data, hdata, rfl⟩ := hf
  have hi : i < z.archive.len := by
    rw [hgrown.len]
    exact (List.getElem?_eq_some_iff.mp hd).1
  have hname : nameOf z.archive (editsOf z.pending) i = d.filename := by
    rw [nameOf_grown hgrown, nameOf, if_pos (hgrown.len ▸ hi), hops, Archive.name, Archive.dirent, hd]
    rfl
  have hdirent : (z.archive.dirent i).map uncached = (some d).map uncached := by
    rw [hgrown.dirent, Archive.dirent, hd]
  rw [hops, hname, entryFor_uncached hdirent]
  refine ⟨rfl, describes_entryFor d data, ?_⟩
  rw [Contents, if_pos hi, hops] at hdata
  exact hdata

/-- The untouched entries are all written, in their order. -/
theorem present_untouched {n : Nat} {e : Edits} {effs : List Effect}
    (hops : ∀ i, Untouched effs i → e.ops i = .none) :
    (present n e).filter (fun i => decide (i < n ∧ Untouched effs i)) =
      (List.range n).filter fun i => decide (Untouched effs i) := by
  have hadds : ((List.range e.adds.length).map (n + ·)).filter
      (fun i => decide (i < n ∧ Untouched effs i)) = [] := by
    refine List.filter_eq_nil_iff.mpr fun i hi => ?_
    obtain ⟨k, -, rfl⟩ := List.mem_map.mp hi
    simp
  rw [present, List.filter_append, hadds, List.append_nil, List.filter_filter]
  refine List.filter_congr fun i hi => ?_
  have hlt := List.mem_range.mp hi
  by_cases hu : Untouched effs i
  · simp [hu, hlt, hops i hu, EntryOps.none]
  · simp [hu]

/-- The entry that was written for an entry without edits. -/
theorem preserves_iff {a b : Archive} {z : Zip} (hgrown : a.Grown z.archive) {i k : Nat} {d : Dirent}
    {f : ArchiveFile × UInt16} (hd : a.entries[i]? = some d)
    (hops : (editsOf z.pending).ops i = .none) (hf : IsEntry X z.archive (editsOf z.pending) i f)
    (hshows : ShowsFile X b (closePassword z) k f) :
    Preserves X a z b i k ↔ d.encryptionMethod = encryption.none := by
  obtain ⟨hnone, hdescribes, hread⟩ := entry_without_edits hgrown hd hops hf
  obtain ⟨d', hd', hshow⟩ := hshows.entry
  constructor
  · rintro ⟨d₁, d₁', content, hd₁, hd₁', hsame, -⟩
    cases hd.symm.trans hd₁
    cases hd'.symm.trans hd₁'
    rw [← hsame.encryptionMethod, hshow.encryptionMethod, hnone]
  · intro hplain
    have hcomment : d'.comment = d.comment := by
      rw [hshow.comment, ← hdescribes.comment, fromUtf8Lossy_asBytes]
    refine ⟨d, d', _, hd, hd', ⟨hshow.filename.trans hdescribes.filename.symm, hcomment,
      hshow.extraFields.trans hdescribes.extraFields.symm,
      hshow.lastModTime.trans hdescribes.lastModTime.symm, hshow.lastModDate.trans hdescribes.lastModDate.symm,
      hshow.opsys.trans hdescribes.opsys.symm, hshow.extAttrib.trans hdescribes.extAttrib.symm, ?_⟩,
      hread, (hshows.given _).mpr ⟨rfl, fun haes => ?_⟩, fun _ _ _ => hshows.plain hnone⟩
    · rw [hshow.encryptionMethod, hnone, hplain]
    · rw [hnone] at haes
      cases haes

/-- The untouched entries are written in their order, and each differs at most in the encryption method. -/
theorem keepsUntouched_iff (hX : InvertsDeflate X) {src : Source} {a : Archive}
    (hopen : Archive.open src = .ok a) (flags : Int32) (calls : List ZipCall) {sched : Nat → Schedule}
    {plan : List (ArchiveFile × UInt16)} {out : Vec}
    (h : Closes X sched (runAll X calls (makeZip a flags)) plan out) {kind : SourceKind}
    (hfind : Findable X kind (runAll X calls (makeZip a flags)) plan) {b : Archive}
    (hb : Archive.open { kind, bytes := out.val } = .ok b) :
    KeepsUntouched X a (runAll X calls (makeZip a flags)) (effects X calls (makeZip a flags)) b ↔
      ∀ i d, a.entries[i]? = some d → Untouched (effects X calls (makeZip a flags)) i →
        d.encryptionMethod = encryption.none := by
  have hgrown := grown_runAll X calls (makeZip a flags)
  have hops (i : Nat) (hi : Untouched (effects X calls (makeZip a flags)) i) :
      (editsOf (runAll X calls (makeZip a flags)).pending).ops i = .none := by
    rw [editsOf_runAll]
    exact untouched_ops (makeZip_edits a flags i) hi
  have hplan := closes_entries hopen h
  obtain ⟨-, hshows⟩ := (closes_opened hX h hfind).2 b hb
  generalize runAll X calls (makeZip a flags) = z at h hfind hgrown hops hplan hshows ⊢
  generalize effects X calls (makeZip a flags) = effs at hops ⊢
  change a.Grown z.archive at hgrown
  -- the entry of an untouched entry, where it is written
  have hpreserves (k i : Nat) (d : Dirent) (hk : (present a.len (editsOf z.pending))[k]? = some i)
      (hd : a.entries[i]? = some d) (hu : Untouched effs i) :
      Preserves X a z b i k ↔ d.encryptionMethod = encryption.none := by
    obtain ⟨f, hf, hentry⟩ := exists_of_forall₂ hplan hk
    exact preserves_iff hgrown hd (hops i hu) hentry (hshows k f hf)
  constructor
  · intro hkeeps i d hd hu
    have hi : i < a.len := (List.getElem?_eq_some_iff.mp hd).1
    have hpresent : i ∈ present a.len (editsOf z.pending) :=
      mem_present.mpr (.inl ⟨hi, by rw [hops i hu]; rfl⟩)
    obtain ⟨k, hk⟩ := List.mem_iff_getElem?.mp hpresent
    exact (hpreserves k i d hk hd hu).mp (hkeeps.entries k i hk hi hu)
  · intro hnone
    refine ⟨present_untouched hops, fun k i hk hi hu => ?_⟩
    have hd : a.entries[i]? = some a.entries[i] := List.getElem?_eq_getElem hi
    exact (hpreserves k i _ hk hd hu).mpr (hnone i _ hd hu)

/-- When a close succeeds and a reader can find what it writes, the archive is opened again with the entries
that no successful call edited as they were, exactly if its entries are accepted and none of these was
encrypted. -/
theorem materialize_untouched_iff {X : Extern} (hX : InvertsDeflate X) {src : Source} {a : Archive}
    (hopen : Archive.open src = .ok a) (flags : Int32) (calls : List ZipCall) (sched : Nat → Schedule)
    {plan : List (ArchiveFile × UInt16)} (hplan : (runAll X calls (makeZip a flags)).plan X sched = .ok plan)
    {out : Vec} (h : (runAll X calls (makeZip a flags)).materialize X sched = .ok out) {kind : SourceKind}
    (hfind : Findable X kind (runAll X calls (makeZip a flags)) plan) :
    (∃ b, Archive.open { kind, bytes := out.val } = .ok b ∧
      KeepsUntouched X a (runAll X calls (makeZip a flags)) (effects X calls (makeZip a flags)) b) ↔
    AcceptsPlan X (runAll X calls (makeZip a flags)) plan ∧
      ∀ i d, a.entries[i]? = some d → Untouched (effects X calls (makeZip a flags)) i →
        d.encryptionMethod = encryption.none := by
  have hcloses := closes_of_plan hplan h
  rw [← (closes_opened hX hcloses hfind).1]
  constructor
  · rintro ⟨b, hb, hkeeps⟩
    exact ⟨⟨b, hb⟩, (keepsUntouched_iff hX hopen flags calls hcloses hfind hb).mp hkeeps⟩
  · rintro ⟨⟨b, hb⟩, hnone⟩
    exact ⟨b, hb, (keepsUntouched_iff hX hopen flags calls hcloses hfind hb).mpr hnone⟩

/-- The calls that add a file `b`. -/
def addCalls : List ZipCall :=
  [.setDefaultPassword (some [0x70]), .fileAdd (some [0x62]) (some (.memory (oneByte 0x6A))) 0]

theorem materialize_untouched_sample : ∃ a plan out,
    Archive.open { kind := .vec, bytes := sampleArchive } = .ok a ∧
    (runAll reference addCalls (makeZip a 0)).materialize reference (fun _ => bytewise) = .ok out ∧
    ((∃ b, Archive.open { kind := .mmap, bytes := out.val } = .ok b ∧
      KeepsUntouched reference a (runAll reference addCalls (makeZip a 0))
        (effects reference addCalls (makeZip a 0)) b) ↔
    AcceptsPlan reference (runAll reference addCalls (makeZip a 0)) plan ∧
      ∀ i d, a.entries[i]? = some d → Untouched (effects reference addCalls (makeZip a 0)) i →
        d.encryptionMethod = encryption.none) := by
  obtain ⟨a, ha, hp⟩ := exists_ok (x := Archive.open { kind := .vec, bytes := sampleArchive })
    (p := fun a => ((runAll reference addCalls (makeZip a 0)).materialize reference
      fun _ => bytewise).toOption.any fun _ : Vec => ((runAll reference addCalls (makeZip a 0)).plan reference
        fun _ => bytewise).toOption.any fun plan : List (ArchiveFile × UInt16) =>
          decide (∀ f ∈ plan, (asBytes f.1.name).length ≤ 0xFFFF) &&
            shortTail reference (runAll reference addCalls (makeZip a 0)) plan) (by decide +kernel)
  obtain ⟨out, hout, hp⟩ := exists_ok hp
  obtain ⟨plan, hplan, hp⟩ := exists_ok hp
  obtain ⟨hnames, htail⟩ := Bool.and_eq_true_iff.mp hp
  exact ⟨a, plan, out, ha, hout, materialize_untouched_iff (fun _ _ _ => reference_inflate_deflate) ha 0 addCalls _
    hplan hout (findable_of_shortTail (of_decide_eq_true hnames) htail)⟩

/-- An encrypted entry that no call edited is written without encryption. -/
theorem materialize_untouched_decrypted : ∃ a out b,
    Archive.open { kind := .vec, bytes := encryptedArchive } = .ok a ∧
    (runAll reference addCalls (makeZip a 0)).materialize reference (fun _ => bytewise) = .ok out ∧
    Archive.open { kind := .vec, bytes := out.val } = .ok b ∧
    ¬ KeepsUntouched reference a (runAll reference addCalls (makeZip a 0))
      (effects reference addCalls (makeZip a 0)) b := by
  obtain ⟨a, ha, hp⟩ := exists_ok (x := Archive.open { kind := .vec, bytes := encryptedArchive })
    (p := fun a => ((runAll reference addCalls (makeZip a 0)).materialize reference
      fun _ => bytewise).toOption.any fun out : Vec => (Archive.open { kind := .vec, bytes := out.val }).toOption.any
        fun b : Archive => decide (
          a.entries.head?.map (·.encryptionMethod) ≠ b.entries.head?.map (·.encryptionMethod) ∧
          (present a.len (editsOf (runAll reference addCalls (makeZip a 0)).pending))[0]? = some 0 ∧ 0 < a.len ∧
          Untouched (effects reference addCalls (makeZip a 0)) 0)) (by decide +kernel)
  obtain ⟨out, hout, hp⟩ := exists_ok hp
  obtain ⟨b, hb, hp⟩ := exists_ok hp
  obtain ⟨hne, hpresent, hlt, hu⟩ := of_decide_eq_true hp
  refine ⟨a, out, b, ha, hout, hb, fun hkeeps => ?_⟩
  obtain ⟨d, d', -, hd, hd', hsame, -⟩ := hkeeps.entries 0 0 hpresent hlt hu
  rw [List.head?_eq_getElem?, List.head?_eq_getElem?, hd, hd'] at hne
  exact hne (congrArg some hsame.encryptionMethod.symm)

end Kzip.Impl
