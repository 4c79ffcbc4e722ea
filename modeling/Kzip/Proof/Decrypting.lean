import Kzip.Impl.Archive
import Kzip.Impl.Decrypting
import Kzip.Proof.Crypto

/-!
# Decrypting in pieces

The keys advance with the plaintext alone (`ZipCrypto.encrypt_keys`, `ZipCrypto.decrypt_keys`), so a stream
is decrypted in pieces as it is as a whole (`ZipCrypto.decrypt_append`). A `DecryptingSource` is therefore a
reader of the decrypted rest of its inner source (`DecryptingSource.reader`), whatever that returns at
once; the header is read and decrypted before (`leaves_readExactRound`).
-/

namespace Kzip.Impl

open Lib

/-! ## The keys -/

theorem ZipCrypto.encrypt_keys (c : ZipCrypto) (data : Bytes) :
    (c.encrypt data).2 = data.foldl updateKeys c := by
  induction data generalizing c with
  | nil => rfl
  | cons b data ih => exact ih _

theorem ZipCrypto.decrypt_keys (c : ZipCrypto) (data : Bytes) :
    (c.decrypt data).2 = (c.decrypt data).1.foldl updateKeys c := by
  induction data generalizing c with
  | nil => rfl
  | cons b data ih => exact ih _

theorem ZipCrypto.encrypt_append (c : ZipCrypto) (data more : Bytes) :
    (c.encrypt (data ++ more)).1 = (c.encrypt data).1 ++ ((c.encrypt data).2.encrypt more).1 := by
  induction data generalizing c with
  | nil => rfl
  | cons b data ih => simp only [List.cons_append, encrypt, ih]

theorem ZipCrypto.decrypt_append (c : ZipCrypto) (data more : Bytes) :
    (c.decrypt (data ++ more)).1 = (c.decrypt data).1 ++ ((c.decrypt data).2.decrypt more).1 := by
  induction data generalizing c with
  | nil => rfl
  | cons b data ih => simp only [List.cons_append, decrypt, ih]

theorem ZipCrypto.encrypt_take (c : ZipCrypto) (data : Bytes) (n : Nat) :
    (c.encrypt data).1.take n = (c.encrypt (data.take n)).1 := by
  induction data generalizing c n with
  | nil => simp only [List.take_nil, encrypt]
  | cons b data ih =>
    cases n with
    | zero => rfl
    | succ n => simp only [List.take_succ_cons, encrypt, ih]

/-- Header and data are one stream. -/
theorem encryptData_stream (password : Bytes) (crc : UInt32) (data : Bytes) :
    encryptData password crc data =
      ((ZipCrypto.new password).encrypt (encryptionHeader password crc ++ data)).1 := by
  rw [ZipCrypto.encrypt_append, encryptData_eq]

/-- Encrypter and decrypter have the same keys after every byte. -/
theorem keys_agree (password : Bytes) (crc : UInt32) (data : Bytes) (n : Nat) :
    ((ZipCrypto.new password).decrypt ((encryptData password crc data).take n)).2 =
      ((ZipCrypto.new password).encrypt ((encryptionHeader password crc ++ data).take n)).2 := by
  rw [encryptData_stream, ZipCrypto.encrypt_take, ZipCrypto.decrypt_encrypt]

/-! ## The header -/

variable {σ : Type} {R : Reader σ UInt8 ReadError}

/-- The bytes read so far and those still to come make up what the source held. -/
def Gathered (R : Reader σ UInt8 ReadError) (len : Nat) (s : σ) (c : σ × Bytes) : Prop :=
  R.rest s = c.2 ++ R.rest c.1 ∧ c.2.length ≤ len

theorem readExactRound_gathers {len : Nat} {s : σ} (c c' : σ × Bytes) (h : Gathered R len s c)
    (hc : readExactRound R len c = .inl c') : Gathered R len s c' := by
  obtain ⟨hrest, hlen⟩ := h
  have htaken := R.rest_eq_taken (len - c.2.length) c.1
  rw [readExactRound] at hc
  split at hc
  · cases hc
  split at hc <;> rename_i hread
  · cases hc
  · cases hc
    obtain ⟨-, hle, -⟩ := R.read_ok (len - c.2.length) c.1 _ (congrArg Prod.fst hread)
    rw [hread] at htaken
    refine ⟨by rw [hrest, htaken, List.append_assoc]; rfl, ?_⟩
    rw [List.length_append]
    omega
  · cases hc
    rw [hread] at htaken
    exact ⟨by rw [hrest, htaken]; rfl, hlen⟩
  · cases hc

/-- What `read_exact` returns is what the source hands out next. -/
theorem leaves_readExactRound {len n : Nat} {s s' : σ} {bs : Bytes}
    (h : Leaves (readExactRound R len) (s, []) n (.ok bs, s')) :
    bs.length = len ∧ R.rest s = bs ++ R.rest s' := by
  have hleave (c : σ × Bytes) (w : Result Bytes × σ) (hc : Gathered R len s c)
      (hw : readExactRound R len c = .inr w) :
      ∀ bs, w.1 = .ok bs → bs.length = len ∧ R.rest s = bs ++ R.rest w.2 := by
    rw [readExactRound] at hw
    split at hw
    · rename_i hfull
      cases hw
      intro bs hbs
      cases hbs
      exact ⟨hfull, hc.1⟩
    · split at hw <;> cases hw <;> exact fun _ hbs => by cases hbs
  exact h.invariant readExactRound_gathers hleave ⟨rfl, Nat.zero_le _⟩ bs rfl

/-- A source that does not fail gives all the bytes it has. -/
theorem exists_leaves_readExactRound {len : Nat} {s : σ}
    (hR : ∀ k s e, (R.read k s).1 ≠ .error e) (hlen : len ≤ (R.rest s).length) :
    ∃ n bs s', Leaves (readExactRound R len) (s, []) n (.ok bs, s') := by
  have hround (c c' : σ × Bytes) (h : Gathered R len s c) (hc : readExactRound R len c = .inl c') :
      Gathered R len s c' ∧ len - c'.2.length < len - c.2.length := by
    refine ⟨readExactRound_gathers c c' h hc, ?_⟩
    obtain ⟨-, hle⟩ := h
    rw [readExactRound] at hc
    split at hc
    · cases hc
    split at hc <;> rename_i hread
    · cases hc
    · rename_i bs s' hne
      cases hc
      have := List.length_pos_iff.mpr fun hnil : bs = [] => hne hnil
      rw [List.length_append]
      omega
    · exact absurd (congrArg Prod.fst hread) (hR _ _ _)
    · exact absurd (congrArg Prod.fst hread) (hR _ _ _)
  have hleave (c : σ × Bytes) (w : Result Bytes × σ) (h : Gathered R len s c)
      (hc : readExactRound R len c = .inr w) : ∃ bs, w.1 = .ok bs := by
    obtain ⟨hrest, hle⟩ := h
    rw [readExactRound] at hc
    split at hc
    · cases hc
      exact ⟨_, rfl⟩
    split at hc <;> rename_i hread
    · -- nothing was left, so all of it had been read
      have hnil : R.rest c.1 = [] :=
        (R.read_nil_iff (by omega) (congrArg Prod.fst hread)).mp rfl
      rw [hrest, hnil, List.append_nil] at hlen
      omega
    · cases hc
    · exact absurd (congrArg Prod.fst hread) (hR _ _ _)
    · exact absurd (congrArg Prod.fst hread) (hR _ _ _)
  obtain ⟨n, w, -, hl, bs, hbs⟩ := exists_leaves (s := (s, [])) hround hleave ⟨rfl, Nat.zero_le _⟩
  obtain ⟨w1, w2⟩ := w
  cases hbs
  exact ⟨n, bs, w2, hl⟩

/-! ## The stream -/

/-- A decrypting source is a reader of what its inner source holds, decrypted. -/
def DecryptingSource.reader (R : Reader σ UInt8 ReadError) :
    Reader (DecryptingSource σ) UInt8 ReadError where
  read := DecryptingSource.read R
  rest d := (d.crypto.decrypt (R.rest d.inner)).1
  read_ok := by
    intro k d as h
    rw [DecryptingSource.read] at h ⊢
    split at h <;> rename_i hread
    · cases h
    · cases h
      obtain ⟨hsplit, hle, hnil⟩ := R.read_ok k d.inner _ (congrArg Prod.fst hread)
      rw [hread] at hsplit
      rw [ZipCrypto.length_decrypt]
      refine ⟨by rw [hsplit, ZipCrypto.decrypt_append], hle, fun has => ?_⟩
      have hbs := List.length_eq_zero_iff.mp
        ((ZipCrypto.length_decrypt _ _).symm.trans (congrArg List.length has))
      exact (hnil hbs).imp id fun hrest => by rw [hrest]; rfl
  read_error := by
    intro k d e h
    rw [DecryptingSource.read] at h ⊢
    split at h <;> rename_i hread
    · have hrest := R.read_error k d.inner _ (congrArg Prod.fst hread)
      rw [hread] at hrest
      exact congrArg (fun bs => (d.crypto.decrypt bs).1) hrest
    · cases h

/-- The keys are those of the plaintext that was handed out. -/
theorem decrypting_keys (d : DecryptingSource σ) (ks : List Nat) :
    ((DecryptingSource.reader R).after d ks).crypto =
      ((DecryptingSource.reader R).delivered d ks).foldl ZipCrypto.updateKeys d.crypto := by
  refine (DecryptingSource.reader R).delivered_invariant
    (I := fun d' plain => d'.crypto = plain.foldl ZipCrypto.updateKeys d.crypto) (l := [])
    (fun k s as h => ?_) rfl ks
  show (DecryptingSource.read R k s).2.crypto = _
  rw [List.foldl_append, ← h]
  show _ = (Reader.taken (DecryptingSource.read R k s).1).foldl ZipCrypto.updateKeys s.crypto
  rw [DecryptingSource.read]
  split
  · rfl
  · exact ZipCrypto.decrypt_keys _ _

/-- Behind a header that was encrypted from the keys `c`, the data come in order and to the end, and the
keys are those of the encrypter. -/
theorem decrypting_stream {c : ZipCrypto} {header data : Bytes} {d : DecryptingSource σ}
    (hkeys : d.crypto = (c.encrypt header).2)
    (hdata : R.rest d.inner = ((c.encrypt header).2.encrypt data).1) (ks : List Nat) :
    (DecryptingSource.reader R).delivered d ks <+: data ∧
    ((DecryptingSource.reader R).after d ks).crypto =
      (c.encrypt (header ++ (DecryptingSource.reader R).delivered d ks)).2 ∧
    ∀ k bs, 0 < k →
      ((DecryptingSource.reader R).read k ((DecryptingSource.reader R).after d ks)).1 = .ok bs →
      (bs = [] ↔ (DecryptingSource.reader R).delivered d ks = data) := by
  have hall : (DecryptingSource.reader R).rest d = data := by
    show (d.crypto.decrypt (R.rest d.inner)).1 = data
    rw [hkeys, hdata, ZipCrypto.decrypt_encrypt]
  have hsplit := (DecryptingSource.reader R).rest_eq_delivered ks d
  rw [hall] at hsplit
  refine ⟨⟨_, hsplit.symm⟩, ?_, fun k bs hk hbs => ?_⟩
  · rw [decrypting_keys, hkeys, ZipCrypto.encrypt_keys, ZipCrypto.encrypt_keys, List.foldl_append]
  · rw [(DecryptingSource.reader R).read_nil_iff hk hbs]
    constructor
    · intro hnil
      rw [hnil, List.append_nil] at hsplit
      exact hsplit.symm
    · intro hdone
      rw [hdone] at hsplit
      exact List.append_right_eq_self.mp hsplit.symm

/-- What an entry is decompressed from is what a decrypting source behind the header holds. -/
theorem openZipCrypto_decrypting {X : Extern} (a : Archive) (d : Dirent) (off : Nat)
    (password : Option Bytes) {s : σ}
    (hs : R.rest s = a.src.bytes.drop (off + encryptionHeaderLen)) :
    a.openZipCrypto X d off password = (do
      let pw ← a.resolvePassword password
      let header ← a.src.readAt off encryptionHeaderLen
      let r := (ZipCrypto.new pw).decrypt header
      if r.1.getD (encryptionHeaderLen - 1) 0 ≠ (d.crc >>> 24).toUInt8 then
        .error (.err .wrongpasswd)
      else if d.compSize < UInt64.ofNat encryptionHeaderLen then .error (.err .truncatedZip)
      else
        EntryReader.new X ((DecryptingSource.reader R).rest { inner := s, crypto := r.2 }) d.compMethod
          (d.compSize - UInt64.ofNat encryptionHeaderLen) d.uncompSize d.crc) := by
  simp only [Archive.openZipCrypto, DecryptingSource.reader, hs]

/-- The stream of an encrypted entry, read from a source that holds it: the header is decrypted to one
whose last byte is the high byte of the CRC; after it, whatever the lengths of the reads and of what the
source returns, the data come in order and to the end, and the keys are always those of the encrypter. -/
theorem zipCrypto_stream {s : σ} {password data : Bytes} {crc : UInt32}
    (hs : R.rest s = encryptData password crc data) :
    ((∀ k s' e, (R.read k s').1 ≠ .error e) →
      ∃ n header s', Leaves (readExactRound R encryptionHeaderLen) (s, []) n (.ok header, s')) ∧
    (∀ n header s', Leaves (readExactRound R encryptionHeaderLen) (s, []) n (.ok header, s') →
      ((ZipCrypto.new password).decrypt header).1 = encryptionHeader password crc ∧
      ((ZipCrypto.new password).decrypt header).1[encryptionHeaderLen - 1]? =
        some (crc >>> 24).toUInt8 ∧
      ∀ ks,
        let D := DecryptingSource.reader R
        let d : DecryptingSource σ :=
          { inner := s', crypto := ((ZipCrypto.new password).decrypt header).2 }
        D.delivered d ks <+: data ∧
        (D.after d ks).crypto =
          ((ZipCrypto.new password).encrypt (encryptionHeader password crc ++ D.delivered d ks)).2 ∧
        ∀ k bs, 0 < k → (D.read k (D.after d ks)).1 = .ok bs → (bs = [] ↔ D.delivered d ks = data)) ∧
    ∀ n, ((ZipCrypto.new password).decrypt ((encryptData password crc data).take n)).2 =
      ((ZipCrypto.new password).encrypt ((encryptionHeader password crc ++ data).take n)).2 := by
  refine ⟨fun hR => exists_leaves_readExactRound hR ?_, fun n header s' h => ?_,
    keys_agree password crc data⟩
  · rw [hs, encryptData_eq, List.length_append, ZipCrypto.length_encrypt, length_encryptionHeader]
    exact Nat.le_add_right _ _
  · obtain ⟨hlen, hrest⟩ := leaves_readExactRound h
    have hcheck := encryptionHeader_check password crc
    have hlength := length_encryptionHeader password crc
    rw [hs, encryptData_eq] at hrest
    generalize encryptionHeader password crc = clear at hcheck hlength hrest ⊢
    obtain ⟨rfl, hdata⟩ := List.append_inj hrest.symm (by rw [hlen, ZipCrypto.length_encrypt, hlength])
    rw [ZipCrypto.decrypt_encrypt]
    exact ⟨rfl, hcheck, decrypting_stream rfl hdata⟩

/-- A source that returns one byte at a time. -/
def trickle : Reader Bytes UInt8 ReadError where
  read k s := (.ok (s.take (min k 1)), s.drop (min k 1))
  rest s := s
  read_ok := by
    rintro k s _ ⟨⟩
    refine ⟨(List.take_append_drop _ s).symm, by rw [List.length_take]; omega, fun h => ?_⟩
    rcases List.take_eq_nil_iff.mp h with h | h
    · exact .inl (by omega)
    · exact .inr h
  read_error := by
    rintro k s e ⟨⟩

theorem zipCrypto_stream_sample : ∃ n header s',
    Leaves (readExactRound trickle encryptionHeaderLen) (encryptData [112, 119] 0xCAFEBABE [1, 2, 3], [])
      n (.ok header, s') :=
  (zipCrypto_stream (R := trickle) rfl).1 fun _ _ _ h => by cases h

end Kzip.Impl
