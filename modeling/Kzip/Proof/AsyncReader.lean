import Kzip.Spec.AsyncReader

/-!
# The asynchronous reader equals the synchronous one

A poll keeps what the states of the reader have in common (`Delivering`): the bytes that were
delivered and those that are staged are what successive reads returned. It delivers staged bytes, or
reports how the reads end (`polled`). So polls in any order and of any kind deliver what the reads
return (`async_matches_sync`).
-/

namespace Kzip.Impl

open Lib Kzip.Spec

variable {ρ : Type} {read : ρ → Except IoError Bytes × ρ}

/-! ## Successive reads -/

theorem chunks_snoc {r r' : ρ} {cs : List Bytes} (h : Chunks read r cs r') {c : Bytes}
    (hread : (read r').1 = .ok c) (hc : c ≠ []) : Chunks read r (cs ++ [c]) (read r').2 := by
  induction h with
  | nil r => exact .cons hread hc (.nil _)
  | cons h' hc' _ ih => exact .cons h' hc' (ih hread)

/-- Reads that go on no longer than those that end with an error. -/
theorem chunks_prefix {r r₁ r₂ : ρ} {cs₁ cs₂ : List Bytes} {e : IoError}
    (h₁ : Chunks read r cs₁ r₁) (h₂ : Chunks read r cs₂ r₂) (he : (read r₂).1 = .error e) :
    ∃ cs, cs₂ = cs₁ ++ cs ∧ Chunks read r₁ cs r₂ := by
  induction h₁ generalizing cs₂ with
  | nil r => exact ⟨cs₂, rfl, h₂⟩
  | cons h hc _ ih =>
    cases h₂ with
    | nil =>
      rw [h] at he
      cases he
    | cons h' hc' rest =>
      obtain ⟨cs, rfl, hrest⟩ := ih rest
      rw [h] at h'
      cases h'
      exact ⟨cs, rfl, hrest⟩

/-! ## What a poll does -/

/-- The state of a reader made from `r` after polls that delivered `d`. -/
inductive Delivering (read : ρ → Except IoError Bytes × ρ) (r : ρ) (d : Bytes) (s : AsyncEntryReader ρ) :
    Prop where
  /-- No task is in flight, and there may be staged bytes. -/
  | idle {cs : List Bytes} {r' : ρ} (h : Chunks read r cs r') (inner : s.inner = some r')
      (pending : s.pending = none) (staged : d ++ s.staging.drop s.stagingPos = cs.flatten)
  /-- A task reads the next chunk. -/
  | busy {cs : List Bytes} {r' : ρ} (h : Chunks read r cs r') (inner : s.inner = none)
      (pending : s.pending = some ((read r').2, (read r').1))
      (empty : s.staging.length ≤ s.stagingPos) (all : d = cs.flatten)
  /-- A task met the end of the file. -/
  | exhausted {cs : List Bytes} {r' : ρ} (h : Chunks read r cs r') (inner : s.inner = none)
      (pending : s.pending = none) (empty : s.staging.length ≤ s.stagingPos)
      (eof : (read r').1 = .ok []) (all : d = cs.flatten)

/-- What a poll returns, and the state it leaves behind, after polls that delivered `d`. -/
inductive Polled (read : ρ → Except IoError Bytes × ρ) (r : ρ) (d : Bytes) (p : Poll) :
    PollOut × AsyncEntryReader ρ → Prop where
  | pending {s : AsyncEntryReader ρ} (h : p.receiver = .pending) (next : Delivering read r d s) :
      Polled read r d p (.pending, s)
  | served {bs : Bytes} {s : AsyncEntryReader ρ} (h : bs ≠ [] ∨ p.room = 0)
      (next : Delivering read r (d ++ bs) s) : Polled read r d p (.ready bs, s)
  | eof {cs : List Bytes} {r' : ρ} {s : AsyncEntryReader ρ} (room : p.room ≠ 0)
      (h : Chunks read r cs r') (eof : (read r').1 = .ok []) (all : d = cs.flatten) :
      Polled read r d p (.ready [], s)
  | error {e : IoError} {s : AsyncEntryReader ρ} (h : p.receiver ≠ .cancelled →
      ∃ cs r', Chunks read r cs r' ∧ (read r').1 = .error e ∧ d = cs.flatten) :
      Polled read r d p (.error e, s)

/-- Serving takes bytes off the front of those that are staged. -/
theorem serveBuffered_some {s s' : AsyncEntryReader ρ} {room : Nat} {bs : Bytes}
    (h : s.serveBuffered room = some (bs, s')) : s.stagingPos < s.staging.length ∧ bs ≠ [] ∧
      bs ++ s'.staging.drop s'.stagingPos = s.staging.drop s.stagingPos ∧ s'.inner = s.inner ∧
      s'.pending = s.pending := by
  unfold AsyncEntryReader.serveBuffered at h
  dsimp only at h
  split at h
  · rename_i hlt
    obtain ⟨hlt, hn⟩ := hlt
    cases h
    refine ⟨hlt, fun hnil => ?_, ?_, by split <;> rfl, by split <;> rfl⟩
    · have hlen := congrArg List.length hnil
      rw [List.length_take, List.length_drop, List.length_nil] at hlen
      omega
    · split
      · rename_i hall
        rw [List.take_of_length_le (by rw [List.length_drop]; omega)]
        exact List.append_nil _
      · show _ ++ s.staging.drop (s.stagingPos + min (s.staging.length - s.stagingPos) room) = _
        rw [← List.drop_drop, List.take_append_drop]
  · cases h

theorem delivering_serve {r : ρ} {d : Bytes} {s s' : AsyncEntryReader ρ} {room : Nat} {bs : Bytes}
    (h : Delivering read r d s) (hs : s.serveBuffered room = some (bs, s')) :
    bs ≠ [] ∧ Delivering read r (d ++ bs) s' := by
  obtain ⟨hlt, hne, hstaged, hinner, hpending⟩ := serveBuffered_some hs
  refine ⟨hne, ?_⟩
  cases h with
  | idle hc inner pending staged =>
    refine .idle hc (hinner.trans inner) (hpending.trans pending) ?_
    rw [List.append_assoc, hstaged, staged]
  | busy _ _ _ empty _ => exact absurd hlt (Nat.not_lt.mpr empty)
  | exhausted _ _ _ empty _ _ => exact absurd hlt (Nat.not_lt.mpr empty)

/-- The message of a task is that of the next read. -/
theorem delivering_pending {r : ρ} {d : Bytes} {s : AsyncEntryReader ρ} {msg : ReadResult ρ}
    (h : Delivering read r d s) (hs : s.pending = some msg) : ∃ cs r', Chunks read r cs r' ∧
      msg = ((read r').2, (read r').1) ∧ d = cs.flatten := by
  cases h with
  | idle _ _ pending _ =>
    rw [pending] at hs
    cases hs
  | busy hc _ pending _ all =>
    rw [pending] at hs
    exact ⟨_, _, hc, (Option.some.inj hs).symm, all⟩
  | exhausted _ _ pending _ _ _ =>
    rw [pending] at hs
    cases hs

theorem delivering_finish {r : ρ} {d : Bytes} {s : AsyncEntryReader ρ} {msg : ReadResult ρ}
    (h : Delivering read r d s) (hs : s.pending = some msg) (hok : (s.finishRead msg).1 = none) :
    Delivering read r d (s.finishRead msg).2 := by
  obtain ⟨cs, r', hc, rfl, hd⟩ := delivering_pending h hs
  unfold AsyncEntryReader.finishRead at hok ⊢
  split at hok
  · cases hok
  · rename_i bs hread
    split
    · rename_i hnil
      exact .exhausted hc rfl rfl (Nat.le_refl 0) (hnil ▸ hread) hd
    · rename_i hne
      refine .idle (chunks_snoc hc hread hne) rfl rfl ?_
      rw [hd, List.flatten_append, List.flatten_singleton]
      rfl

theorem finishRead_error {s : AsyncEntryReader ρ} {msg : ReadResult ρ} {e : IoError}
    (h : (s.finishRead msg).1 = some e) : msg.2 = .error e := by
  unfold AsyncEntryReader.finishRead at h
  split at h
  · cases h
    assumption
  · split at h <;> cases h

theorem delivering_launch {r reader : ρ} {d : Bytes} {s : AsyncEntryReader ρ}
    (h : Delivering read r d s) (hs : s.inner = some reader)
    (hempty : s.staging.length ≤ s.stagingPos) :
    Delivering read r d { s with inner := none, pending := some ((read reader).2, (read reader).1),
                                 staging := [] } := by
  cases h with
  | idle hc inner pending staged =>
    rw [inner] at hs
    cases hs
    rw [List.drop_eq_nil_of_le hempty, List.append_nil] at staged
    exact .busy hc rfl rfl (Nat.zero_le _) staged
  | busy _ inner _ _ _ =>
    rw [inner] at hs
    cases hs
  | exhausted _ inner _ _ _ _ =>
    rw [inner] at hs
    cases hs

theorem polled {r : ρ} {d : Bytes} {s : AsyncEntryReader ρ} (h : Delivering read r d s) (p : Poll) :
    Polled read r d p (s.pollRead read p) := by
  fun_induction AsyncEntryReader.pollRead read s p with
  | case1 s bs s' hserve =>
    obtain ⟨hne, hnext⟩ := delivering_serve h hserve
    exact .served (.inl hne) hnext
  | case2 s _ msg _ hreceiver => exact .pending hreceiver h
  | case3 s _ msg _ hreceiver => exact .error fun hne => absurd hreceiver hne
  | case4 s _ msg hpending _ e herror =>
    obtain ⟨cs, r', hc, rfl, hd⟩ := delivering_pending h hpending
    exact .error fun _ => ⟨cs, r', hc, finishRead_error herror, hd⟩
  | case5 s _ msg hpending _ hok ih => exact ih (delivering_finish h hpending hok)
  | case6 s _ _ hroom => exact .served (.inr hroom) (by rwa [List.append_nil])
  | case7 s _ hpending hroom hinner =>
    cases h with
    | idle _ inner _ _ =>
      rw [inner] at hinner
      cases hinner
    | busy _ _ pending _ _ =>
      rw [pending] at hpending
      cases hpending
    | exhausted hc _ _ _ eof all => exact .eof hroom hc eof all
  | case8 s hserve _ hroom reader hinner result reader' hread ih =>
    have hnext := delivering_launch h hinner (AsyncEntryReader.le_of_serveBuffered hserve hroom)
    rw [hread] at hnext
    exact ih hnext

/-! ## All polls -/

theorem delivered_cons (x : Poll × PollOut) (log : List (Poll × PollOut)) :
    delivered (x :: log) = bytesOf x.2 ++ delivered log := List.flatMap_cons

/-- After polls that reported no end, the reader is in a state that goes on with the rest. -/
theorem delivering_after {r : ρ} {pre post : List (Poll × PollOut)} {d : Bytes} {s : AsyncEntryReader ρ}
    {polls : List Poll} (h : Delivering read r d s) (hlog : pollLog read s polls = pre ++ post)
    (hpre : ∀ x ∈ pre, ¬ Ends x) :
    ∃ s' polls', Delivering read r (d ++ delivered pre) s' ∧ post = pollLog read s' polls' := by
  induction pre generalizing d s polls with
  | nil => exact ⟨s, polls, by rwa [delivered, List.flatMap_nil, List.append_nil], hlog.symm⟩
  | cons x pre ih =>
    cases polls with
    | nil => cases hlog
    | cons p polls =>
      have hcons : (p, (s.pollRead read p).1) :: pollLog read (s.pollRead read p).2 polls =
          x :: (pre ++ post) := hlog
      obtain ⟨rfl, hrest⟩ := List.cons.inj hcons
      obtain ⟨hx, hpre⟩ := List.forall_mem_cons.mp hpre
      have hpolled := polled h p
      rw [delivered_cons, ← List.append_assoc]
      generalize s.pollRead read p = out at hx hrest hpolled
      cases hpolled with
      | pending _ next => exact ih (by rwa [bytesOf, List.append_nil]) hrest hpre
      | served _ next => exact ih next hrest hpre
      | eof room => exact absurd ⟨room, rfl⟩ hx
      | error => exact absurd trivial hx

/-- The next poll after polls that reported no end. -/
theorem polled_after {r : ρ} {pre post : List (Poll × PollOut)} {s : AsyncEntryReader ρ}
    {polls : List Poll} {p : Poll} {o : PollOut} (h : Delivering read r [] s)
    (hlog : pollLog read s polls = pre ++ (p, o) :: post) (hpre : ∀ x ∈ pre, ¬ Ends x) :
    ∃ s', Polled read r (delivered pre) p (o, s') := by
  obtain ⟨s', polls', hs', hpost⟩ := delivering_after h hlog hpre
  cases polls' with
  | nil => cases hpost
  | cons p' polls' =>
    have hcons : (p, o) :: post = (p', (s'.pollRead read p').1) :: _ := hpost
    cases hcons
    exact ⟨_, polled hs' p⟩

/-- The bytes that were delivered and staged are what successive reads returned. -/
theorem Delivering.chunks {r : ρ} {d : Bytes} {s : AsyncEntryReader ρ} (h : Delivering read r d s) :
    ∃ cs r', Chunks read r cs r' ∧ d <+: cs.flatten := by
  cases h with
  | idle hc _ _ staged => exact ⟨_, _, hc, _, staged⟩
  | busy hc _ _ _ all => exact ⟨_, _, hc, all ▸ List.prefix_rfl⟩
  | exhausted hc _ _ _ _ all => exact ⟨_, _, hc, all ▸ List.prefix_rfl⟩

/-- More prompt polls than there are bytes before an error surface it: each delivers a byte, or reports
how the reads end. -/
theorem surfaced {r r' : ρ} {cs : List Bytes} {e : IoError} (hc : Chunks read r cs r')
    (he : (read r').1 = .error e) {d : Bytes} {s : AsyncEntryReader ρ} {polls : List Poll}
    (h : Delivering read r d s) (hpolls : ∀ x ∈ pollLog read s polls, x.1.receiver ≠ .cancelled)
    (hcount : cs.flatten.length <
      d.length + ((pollLog read s polls).filter fun x => prompt x.1).length) :
    ∃ p, (p, .error e) ∈ pollLog read s polls := by
  induction polls generalizing d s with
  | nil =>
    obtain ⟨cs₁, r₁, hc₁, hd⟩ := h.chunks
    obtain ⟨cs₂, rfl, -⟩ := chunks_prefix hc₁ hc he
    have hlen := hd.length_le
    rw [List.flatten_append, List.length_append] at hcount
    exact absurd hcount (Nat.not_lt.mpr (Nat.le_trans hlen (Nat.le_add_right _ _)))
  | cons p polls ih =>
    have hcons : pollLog read s (p :: polls) =
        (p, (s.pollRead read p).1) :: pollLog read (s.pollRead read p).2 polls := rfl
    rw [hcons] at hpolls hcount ⊢
    obtain ⟨hp, hpolls⟩ := List.forall_mem_cons.mp hpolls
    have hpolled := polled h p
    generalize s.pollRead read p = out at hp hpolls hcount hpolled ⊢
    have hskip {d' : Bytes} (hnext : Delivering read r d' out.2)
        (hd' : d.length + (if prompt p then 1 else 0) ≤ d'.length) :
        ∃ q, (q, .error e) ∈ (p, out.1) :: pollLog read out.2 polls := by
      obtain ⟨q, hq⟩ := ih hnext hpolls (by
        rw [List.filter_cons] at hcount
        split at hcount
        · rename_i hprompt
          rw [if_pos hprompt] at hd'
          rw [List.length_cons] at hcount
          omega
        · rename_i hprompt
          rw [if_neg hprompt] at hd'
          omega)
      exact ⟨q, List.mem_cons_of_mem _ hq⟩
    cases hpolled with
    | pending hreceiver next => exact hskip next (by simp [prompt, hreceiver])
    | served hbs next =>
      refine hskip next ?_
      rw [List.length_append]
      split
      · rename_i hprompt
        have hroom : p.room ≠ 0 := (of_decide_eq_true hprompt).1
        have hpos := List.length_pos_iff.mpr (hbs.resolve_right hroom)
        omega
      · omega
    | eof room hc₁ heof all =>
      obtain ⟨cs₂, -, hrest⟩ := chunks_prefix hc₁ hc he
      cases hrest with
      | nil =>
        rw [heof] at he
        cases he
      | cons h hne _ =>
        rw [heof] at h
        cases h
        exact absurd rfl hne
    | error herror =>
      obtain ⟨cs₁, r₁, hc₁, he₁, -⟩ := herror hp
      obtain ⟨cs₂, -, hrest⟩ := chunks_prefix hc₁ hc he
      cases hrest with
      | nil =>
        rw [he₁] at he
        cases he
        exact ⟨p, List.mem_cons_self⟩
      | cons h _ _ =>
        rw [he₁] at h
        cases h

theorem delivering_new (read : ρ → Except IoError Bytes × ρ) (r : ρ) : Delivering read r [] (.new r) :=
  .idle (.nil r) rfl rfl rfl

theorem matchesSync_of_delivering {r : ρ} {s : AsyncEntryReader ρ} (h : Delivering read r [] s)
    (polls : List Poll) : MatchesSync read r (pollLog read s polls) := by
  refine ⟨fun pre post hlog hpre => ?_, fun pre p post hlog hroom hpre => ?_,
    fun pre p e post hlog hp hpre => ?_, fun cs r' e hc he hpolls hcount => ?_⟩
  · obtain ⟨s', polls', hs', -⟩ := delivering_after h hlog hpre
    exact hs'.chunks
  · obtain ⟨s', hpolled⟩ := polled_after h hlog hpre
    cases hpolled with
    | served hbs _ => exact absurd (hbs.resolve_right hroom) (fun h => h rfl)
    | eof _ hc heof all => exact ⟨_, _, hc, heof, all⟩
  · obtain ⟨s', hpolled⟩ := polled_after h hlog hpre
    cases hpolled with
    | error herror => exact herror hp
  · exact surfaced hc he h hpolls (by rwa [List.length_nil, Nat.zero_add])

/-- The polls of an asynchronous reader, in any order and of any kind, deliver what the successive reads
of the reader return. -/
theorem async_matches_sync (read : ρ → Except IoError Bytes × ρ) (r : ρ) (polls : List Poll) :
    MatchesSync read r (pollLog read (.new r) polls) := matchesSync_of_delivering (delivering_new read r) polls

/-- The reader of an entry, polled. -/
theorem entry_matches_sync (X : Extern) (ready : Nat → Nat) (r : EntryReader) (polls : List Poll) :
    MatchesSync (EntryReader.readChunk X ready) (0, r)
      (pollLog (EntryReader.readChunk X ready) (.new (0, r)) polls) :=
  matchesSync_of_delivering (delivering_new _ (0, r)) polls

end Kzip.Impl
