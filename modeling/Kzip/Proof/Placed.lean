import Kzip.Proof.Content

/-!
# Where the content of an entry lies

An entry of an archive points at a local header, and its compressed bytes follow that header
(`Placed`). `readEntry_after`: the content that an entry holds is what reading it gives, by whichever of
the ways it is opened and whatever was read before.
-/

namespace Kzip.Impl

open Lib Lib.LE Kzip.Spec

variable {X : Extern}

/-- A local header as the reader skips it: its signature, and the lengths of what follows the fixed
part. -/
structure IsLocalHeader (h : Bytes) : Prop where
  signature : h.take 4 = magic.localHeader
  length : h.length = size.localHeader + ((le16At h 26).toNat + (le16At h 28).toNat)

/-- A local header stands at `offset`, and the compressed bytes right after it. -/
def Placed (bytes : Bytes) (offset : UInt64) (compressed : Bytes) : Prop :=
  ∃ pre header rest, bytes = pre ++ (header ++ (compressed ++ rest)) ∧ IsLocalHeader header ∧
    offset = UInt64.ofNat pre.length

theorem Placed.append {bytes compressed : Bytes} {offset : UInt64} (h : Placed bytes offset compressed)
    (more : Bytes) : Placed (bytes ++ more) offset compressed := by
  obtain ⟨pre, header, rest, rfl, hh, ho⟩ := h
  exact ⟨pre, header, rest ++ more, by simp only [List.append_assoc], hh, ho⟩

/-- The reader finds the compressed bytes after the local header. -/
theorem localHeaderLen_placed {src : Source} {offset : UInt64} {compressed : Bytes}
    (hlen : src.bytes.length < 2 ^ 63) (h : Placed src.bytes offset compressed) :
    ∃ off, localHeaderLen src offset.toNat = .ok off ∧
      off + compressed.length ≤ src.bytes.length ∧ compressed <+: src.bytes.drop off := by
  obtain ⟨pre, header, rest, hb, hh, rfl⟩ := h
  have hsum : src.bytes.length = pre.length + (header.length + (compressed.length + rest.length)) := by
    rw [hb]; simp only [List.length_append]
  have hpre : (UInt64.ofNat pre.length).toNat = pre.length :=
    UInt64.toNat_ofNat_of_lt' (by rw [UInt64.size]; omega)
  have hfixed : size.localHeader ≤ header.length := by rw [hh.length]; omega
  have hread : src.readExact pre.length size.localHeader = some (header.take size.localHeader) := by
    rw [Source.readExact_ok (by omega), hb, List.drop_left, List.take_append_of_le_length hfixed]
  have hseek : src.canSeek pre.length = true := src.canSeek_of_lt (by omega)
  have hsig : (header.take size.localHeader).take 4 = magic.localHeader := by
    rw [List.take_take, ← hh.signature]; rfl
  refine ⟨pre.length + header.length, ?_, by omega, ?_⟩
  · simp only [localHeaderLen, Source.readAt, hpre, hseek, hread, Bool.not_true, Bool.false_eq_true,
      and_false, ↓reduceIte, bind, Except.bind, hsig, ne_eq, not_true_eq_false,
      le16At_take (show 26 + 2 ≤ size.localHeader by decide),
      le16At_take (show 28 + 2 ≤ size.localHeader by decide)]
    rw [hh.length, Nat.add_assoc]
  · rw [hb, ← List.append_assoc, List.drop_left' (by rw [List.length_append])]
    exact List.prefix_append _ _

/-- The entry is plain, and the bytes stored for it decode to `content`. -/
structure Dirent.Stores (X : Extern) (bytes : Bytes) (d : Dirent) (content : Bytes) : Prop where
  plain : d.encrypted = false
  placed : ∃ compressed, Placed bytes d.offset compressed ∧ d.compSize.toNat = compressed.length ∧
    decode X d.compMethod compressed = some { out := content, err := none }
  size : content.length = d.uncompSize.toNat
  crc : X.crc32 content = d.crc

/-- What an entry holds does not depend on a cached offset. -/
theorem holds_uncached {bytes : Bytes} {d d' : Dirent} (h : uncached d' = uncached d) {off : Nat}
    {password : Option Bytes} {v : Bytes} :
    Holds X bytes d' off password v ↔ Holds X bytes d off password v := by
  have hdecodes (d : Dirent) (c : Bytes) : DecodesTo X (uncached d) c v ↔ DecodesTo X d c v :=
    ⟨fun h => ⟨h.decode, h.size, h.crc⟩, fun h => ⟨h.decode, h.size, h.crc⟩⟩
  have hholds (d : Dirent) : Holds X bytes (uncached d) off password v ↔ Holds X bytes d off password v :=
    exists_congr fun c => and_congr_right fun _ => hdecodes d c
  rw [← hholds d', ← hholds d, h]

/-- The content that an entry holds, under whatever default password, is what reading it gives, after
any calls. -/
theorem readEntry_after {a : Archive} (hc : a.CacheOk) {index : Nat} {d : Dirent} {content : Bytes}
    (hd : a.entries[index]? = some d) (hlen : a.src.bytes.length < 2 ^ 63) {off : Nat}
    (hoff : localHeaderLen a.src d.offset.toNat = .ok off) (hfit : off + d.compSize.toNat < 2 ^ 64)
    {password : Option Bytes}
    (h : ∀ default, Holds X a.src.bytes d off (password.or default) content)
    (calls : List ArchiveCall) (sched : Schedule) :
    ((after X calls a).readEntryWithPassword X sched index password).1 = .ok content := by
  have hgrown := grown_after X calls a
  have hentry : ((after X calls a).entries.map uncached)[index]? = some (uncached d) := by
    rw [hgrown.entries, List.getElem?_map, hd]; rfl
  rw [List.getElem?_map, Option.map_eq_some_iff] at hentry
  obtain ⟨d', hd', hu⟩ := hentry
  have hoffset : d'.offset = d.offset := (congrArg Dirent.offset hu :)
  have hcomp : d'.compSize = d.compSize := (congrArg Dirent.compSize hu :)
  have hoff' : d'.findDataOffset (after X calls a).src = .ok off := by
    rw [findDataOffset_eq (hgrown.cache hc) (List.mem_of_getElem? hd'), hgrown.src, hoffset, hoff]
  refine (readEntry_iff (by rw [hgrown.src]; exact hlen) hd' hoff' (by rw [hcomp]; exact hfit) sched
    password).mpr ?_
  rw [hgrown.src, holds_uncached hu]
  exact h _

/-- An entry that stores a content holds it, under any password. -/
theorem Dirent.Stores.holds {src : Source} {d : Dirent} {content : Bytes}
    (h : d.Stores X src.bytes content) (hlen : src.bytes.length < 2 ^ 63) :
    ∃ off, localHeaderLen src d.offset.toNat = .ok off ∧ off + d.compSize.toNat ≤ src.bytes.length ∧
      ∀ password, Holds X src.bytes d off password content := by
  obtain ⟨compressed, hplaced, hcomp, hdec⟩ := h.placed
  obtain ⟨off, hoff, hin, hprefix⟩ := localHeaderLen_placed hlen hplaced
  refine ⟨off, hoff, hcomp ▸ hin, fun password => (holds_plain h.plain).mpr ?_⟩
  rw [hcomp, ← List.prefix_iff_eq_take.mp hprefix]
  exact ⟨hdec, h.size, fun _ => h.crc⟩

theorem readsAs_of_stores {kind : SourceKind} {bytes : Bytes} {a : Archive}
    (hopen : Archive.open { kind, bytes } = .ok a) {index : Nat} {d : Dirent} {content : Bytes}
    (hd : a.entries[index]? = some d) (hlen : bytes.length < 2 ^ 63) (h : d.Stores X bytes content) :
    ReadsAs X a index content := by
  obtain ⟨hsrc, -, -⟩ := open_parts hopen
  have hsrc : a.src.bytes = bytes := hsrc
  have hlen : a.src.bytes.length < 2 ^ 63 := hsrc ▸ hlen
  have hstores : d.Stores X a.src.bytes content := hsrc ▸ h
  obtain ⟨off, hoff, hin, hholds⟩ := hstores.holds hlen
  intro calls sched
  exact readEntry_after (open_cacheOk hopen) hd hlen hoff (by omega) (fun _ => hholds _) calls sched

end Kzip.Impl
