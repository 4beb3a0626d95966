import Kvdb.SSTable.Contents
import Kvdb.SSTable.Format
import Kvdb.Lib.InputStream

/-! # `SSTable::ReadAll` reads back what `SSTable::Write` has written

`ReadAll` reads block after block until it has as many entries as the header says, without the block index. It checks
the two words at the front of the file and nothing else. -/
namespace Kvdb.SSTableBytes
set_option autoImplicit false

open LittleEndian InputStream

/-! ## The reader -/

/-- One round of the loop over the entries of a block. -/
def readEntry (bs : InputStream) : KeyValuePair × InputStream :=
  let kl := getLe 4 bs
  let k := readZeroed kl.1 kl.2
  let vl := getLe 4 k.2
  let v := readZeroed vl.1 vl.2
  let ts := getLe 8 v.2
  let fl := get ts.2
  (⟨k.1, v.1, ts.1, decide (fl.1.toNat % 2 = 1)⟩, fl.2)

def readEntries : ℕ → InputStream → List KeyValuePair
  | 0, _ => []
  | n + 1, bs => (readEntry bs).1 :: readEntries n (readEntry bs).2

/-- One round of the loop over the blocks: the payload is read as a whole and decoded from a stream of its own. -/
def readBlock (file : InputStream) : List KeyValuePair × InputStream :=
  let crc := getLe 4 file
  let csz := getLe 4 (skip 1 crc.2)
  let cbuf := readZeroed csz.1 csz.2
  let n := getLe 4 (ofData cbuf.1)
  (readEntries n.1 n.2, cbuf.2)

/-- `while (entries.size() < ec)`; `none` when `fuel` rounds do not end it. -/
def readBlocks (ec : ℕ) : ℕ → InputStream → List KeyValuePair → Option (List KeyValuePair)
  | 0, _, _ => none
  | fuel + 1, file, entries =>
    if entries.length < ec then readBlocks ec fuel (readBlock file).2 (entries ++ (readBlock file).1)
    else some entries

/-- `ReadAll` for a file that can be opened. -/
def readAll (fuel : ℕ) (data : Bytes) : Option (Except String (List KeyValuePair)) :=
  let magic := getLe 4 (ofData data)
  if magic.1 ≠ Config.sstableMagic then some (.error "Bad magic")
  else
    let version := getLe 4 magic.2
    if version.1 ≠ Config.sstableVersion then some (.error "Bad version")
    else
      let ec := getLe 4 (getLe 4 version.2).2
      (readBlocks ec.1 fuel (skip 4 (skip 4 ec.2)) []).map .ok

/-! ## What it reads of stored blocks -/

variable {s : InputStream} {bs : Bytes}

theorem readEntry_stored {e : StoredEntry} (h : s.Ahead (e.bytes ++ bs)) (hk : e.key.length < 2 ^ 32)
    (hv : e.value.length < 2 ^ 32) (hts : e.timestamp < 2 ^ 64) :
    readEntry s = (e.pair, s.advance e.bytes.length) ∧ (s.advance e.bytes.length).Ahead bs := by
  have hright := h.right
  refine ⟨?_, hright⟩
  have h := h.left
  rw [StoredEntry.bytes, StoredEntry.valueBytes] at h
  obtain ⟨hkl, h⟩ := h.word hk
  obtain ⟨hkey, h⟩ := h.chunk
  obtain ⟨hvl, h⟩ := h.word hv
  obtain ⟨hvalue, h⟩ := h.chunk
  obtain ⟨htime, h⟩ := h.word hts
  rw [readEntry, hkl]
  simp only [hkey, hvl, hvalue, htime, h.get]
  simp only [advance_advance, StoredEntry.length_bytes]
  rfl

theorem readEntries_stored (es : List StoredEntry) (h : s.Ahead (es.flatMap StoredEntry.bytes))
    (hfits : ∀ e ∈ es, e.key.length < 2 ^ 32 ∧ e.value.length < 2 ^ 32 ∧ e.timestamp < 2 ^ 64) :
    readEntries es.length s = es.map StoredEntry.pair := by
  induction es generalizing s with
  | nil => rfl
  | cons e es ih =>
    rw [List.flatMap_cons] at h
    obtain ⟨hk, hv, hts⟩ := hfits e List.mem_cons_self
    obtain ⟨hread, hrest⟩ := readEntry_stored h hk hv hts
    rw [List.length_cons, readEntries, hread, List.map_cons]
    simp only []
    rw [ih hrest fun e' he' => hfits e' (List.mem_cons_of_mem _ he')]

/-- The payload that stands behind the checksum, the compression byte and its length. -/
def readChunk (file : InputStream) : Bytes × InputStream :=
  let crc := getLe 4 file
  let csz := getLe 4 (skip 1 crc.2)
  readZeroed csz.1 csz.2

theorem readChunk_stored {b : StoredBlock} (h : s.Ahead b.bytes) (hb : b.Fits) :
    readChunk s = (b.payload, s.advance b.bytes.length) := by
  rw [StoredBlock.bytes] at h
  have hcrc := h.left.getLe
  have hcomp := h.right
  rw [hb.crc] at hcrc hcomp
  have hskip := hcomp.skip 1
  obtain ⟨hcsz, hpayload⟩ := hcomp.tail.word hb.size
  have hcbuf := hpayload.readZeroed rfl
  rw [readChunk, hcrc]
  simp only [hskip, hcsz, hcbuf]
  simp only [advance_advance, StoredBlock.length_bytes hb]

theorem readBlock_stored {b : StoredBlock} (h : s.Ahead (b.bytes ++ bs)) (hb : b.Fits) :
    readBlock s = (b.pairs, s.advance b.bytes.length) ∧ (s.advance b.bytes.length).Ahead bs := by
  refine ⟨?_, h.right⟩
  have hinner : (ofData b.payload).Ahead (leBytes 4 b.entries.length ++ b.entries.flatMap StoredEntry.bytes) :=
    ahead_ofData b.payload
  obtain ⟨hn, hentries⟩ := hinner.word hb.count
  have hread := readEntries_stored b.entries hentries fun e he => hb.entry he
  have hsplit : readBlock s = (readEntries (getLe 4 (ofData (readChunk s).1)).1 (getLe 4 (ofData (readChunk s).1)).2,
      (readChunk s).2) := rfl
  rw [hsplit, readChunk_stored h.left hb]
  simp only [hn, hread]
  rfl

/-- As many blocks are read as it takes to have `ec` entries. -/
theorem readBlocks_take (blocks : List StoredBlock) (entries : List KeyValuePair) {ec : ℕ}
    (h : s.Ahead (blocks.flatMap StoredBlock.bytes)) (hfits : ∀ b ∈ blocks, b.Fits)
    (hec : ec ≤ (entries ++ blocks.flatMap StoredBlock.pairs).length) {fuel : ℕ} (hfuel : blocks.length < fuel) :
    ∃ k, readBlocks ec fuel s entries = some (entries ++ (blocks.take k).flatMap StoredBlock.pairs) ∧
      ec ≤ (entries ++ (blocks.take k).flatMap StoredBlock.pairs).length ∧
      ∀ j < k, (entries ++ (blocks.take j).flatMap StoredBlock.pairs).length < ec := by
  induction blocks generalizing s entries fuel with
  | nil =>
    obtain ⟨fuel, rfl⟩ := Nat.exists_eq_succ_of_ne_zero (Nat.ne_of_gt hfuel)
    rw [List.flatMap_nil, List.append_nil] at hec
    refine ⟨0, ?_, ?_, fun j hj => absurd hj (Nat.not_lt_zero j)⟩
    · rw [readBlocks, if_neg (by omega), List.take_zero, List.flatMap_nil, List.append_nil]
    · rwa [List.take_zero, List.flatMap_nil, List.append_nil]
  | cons b blocks ih =>
    obtain ⟨fuel, rfl⟩ := Nat.exists_eq_succ_of_ne_zero (Nat.ne_of_gt (Nat.zero_lt_of_lt hfuel))
    rcases Nat.lt_or_ge entries.length ec with hmore | henough
    · rw [List.flatMap_cons] at h
      rw [List.flatMap_cons, ← List.append_assoc] at hec
      obtain ⟨hread, hrest⟩ := readBlock_stored h (hfits b List.mem_cons_self)
      obtain ⟨k, hblocks, hlen, hshort⟩ := ih (entries ++ b.pairs) hrest
        (fun b' hb' => hfits b' (List.mem_cons_of_mem _ hb')) hec (Nat.lt_of_succ_lt_succ hfuel)
      refine ⟨k + 1, ?_, ?_, fun j hj => ?_⟩
      · rw [readBlocks, if_pos hmore, hread, List.take_succ_cons, List.flatMap_cons, ← List.append_assoc]
        exact hblocks
      · rwa [List.take_succ_cons, List.flatMap_cons, ← List.append_assoc]
      · cases j with
        | zero => rwa [List.take_zero, List.flatMap_nil, List.append_nil]
        | succ j =>
          rw [List.take_succ_cons, List.flatMap_cons, ← List.append_assoc]
          exact hshort j (Nat.lt_of_succ_lt_succ hj)
    · refine ⟨0, ?_, ?_, fun j hj => absurd hj (Nat.not_lt_zero j)⟩
      · rw [readBlocks, if_neg (by omega), List.take_zero, List.flatMap_nil, List.append_nil]
      · rwa [List.take_zero, List.flatMap_nil, List.append_nil]

/-- All blocks are read when the header counts their entries. -/
theorem readBlocks_stored (blocks : List StoredBlock) (h : s.Ahead (blocks.flatMap StoredBlock.bytes))
    (hfits : ∀ b ∈ blocks, b.Fits) {fuel : ℕ} (hfuel : blocks.length < fuel) :
    readBlocks (blocks.flatMap StoredBlock.pairs).length fuel s [] = some (blocks.flatMap StoredBlock.pairs) := by
  obtain ⟨k, hread, hlen, -⟩ := readBlocks_take blocks [] h hfits (Nat.le_refl _) hfuel
  simp only [List.nil_append] at hread hlen
  rw [hread]
  have hsplit : blocks.flatMap StoredBlock.pairs =
      (blocks.take k).flatMap StoredBlock.pairs ++ (blocks.drop k).flatMap StoredBlock.pairs := by
    rw [← List.flatMap_append, List.take_append_drop]
  have hnil : (blocks.drop k).flatMap StoredBlock.pairs = [] := by
    have htotal := congrArg List.length hsplit
    rw [List.length_append] at htotal
    exact List.length_eq_zero_iff.mp (by omega)
  rw [hsplit, hnil, List.append_nil]

theorem readBlocks_mono {ec fuel fuel' : ℕ} (hle : fuel ≤ fuel') {entries es : List KeyValuePair}
    (h : readBlocks ec fuel s entries = some es) : readBlocks ec fuel' s entries = some es := by
  induction fuel generalizing s entries fuel' with
  | zero => cases h
  | succ fuel ih =>
    obtain ⟨fuel', rfl⟩ := Nat.exists_eq_succ_of_ne_zero (show fuel' ≠ 0 by omega)
    rw [readBlocks] at h ⊢
    split
    · next hmore =>
      rw [if_pos hmore] at h
      exact ih (Nat.le_of_succ_le_succ hle) h
    · next henough => rwa [if_neg henough] at h

/-- The header is read, and what follows it is in front. -/
theorem readHeader {data rest bs : Bytes} {n : ℕ} (hdata : data = header n rest ++ bs) (hrest : rest.length = 8) :
    ∃ s₁ s₂ s₃ s₄, getLe 4 (ofData data) = (Config.sstableMagic, s₁) ∧ getLe 4 s₁ = (Config.sstableVersion, s₂) ∧
      getLe 4 s₂ = (Config.sstableBlockSize, s₃) ∧ getLe 4 s₃ = (n % 2 ^ 32, s₄) ∧
      skip 4 (skip 4 s₄) = (ofData data).advance 24 ∧ ((ofData data).advance 24).Ahead bs := by
  have hall := ahead_ofData data
  have hword : leBytes 4 n = leBytes 4 (n % 2 ^ 32) := (leBytes_mod 4 n).symm
  have hahead : (ofData data).Ahead (leBytes 4 Config.sstableMagic ++ (leBytes 4 Config.sstableVersion ++
      (leBytes 4 Config.sstableBlockSize ++ (leBytes 4 (n % 2 ^ 32) ++ (rest ++ bs))))) := by
    rw [header, hword] at hdata
    simp only [List.append_assoc] at hdata
    rw [← hdata]
    exact hall
  obtain ⟨h₁, hahead⟩ := hahead.word (by decide)
  obtain ⟨h₂, hahead⟩ := hahead.word (by decide)
  obtain ⟨h₃, hahead⟩ := hahead.word (by decide)
  obtain ⟨h₄, hahead⟩ := hahead.word (Nat.mod_lt n (by decide))
  have hskip := hahead.skip 4
  have hskip' : skip 4 (advance 4 (advance 4 (advance 4 (advance 4 (advance 4 (ofData data)))))) =
      (ofData data).advance 24 := by
    simp [skip, advance, ofData]
  have hright := hahead.right
  rw [hrest] at hright
  simp only [advance_advance] at hright hskip hskip' h₂ h₃ h₄
  exact ⟨_, _, _, _, h₁, h₂, h₃, h₄, by rw [hskip]; exact hskip', hright⟩

theorem readHeader_stored {data rest tail : Bytes} {blocks : List StoredBlock} (h : Stored data blocks rest tail) :
    ∃ s₁ s₂ s₃ s₄, getLe 4 (ofData data) = (Config.sstableMagic, s₁) ∧ getLe 4 s₁ = (Config.sstableVersion, s₂) ∧
      getLe 4 s₂ = (Config.sstableBlockSize, s₃) ∧ getLe 4 s₃ = ((blocks.flatMap StoredBlock.pairs).length, s₄) ∧
      skip 4 (skip 4 s₄) = (ofData data).advance 24 ∧
      ((ofData data).advance 24).Ahead (blocks.flatMap StoredBlock.bytes ++ tail) := by
  have hheader := readHeader h.data h.rest
  rwa [Nat.mod_eq_of_lt h.count] at hheader

/-- `ReadAll` behind the header. -/
theorem readAll_header {data rest bs : Bytes} {n : ℕ} (hdata : data = header n rest ++ bs) (hrest : rest.length = 8)
    (fuel : ℕ) : readAll fuel data = (readBlocks (n % 2 ^ 32) fuel ((ofData data).advance 24) []).map .ok ∧
      ((ofData data).advance 24).Ahead bs := by
  obtain ⟨s₁, s₂, s₃, s₄, h₁, h₂, h₃, h₄, hskip, hahead⟩ := readHeader hdata hrest
  refine ⟨?_, hahead⟩
  rw [readAll, h₁]
  simp only [h₂, h₃, h₄, hskip]
  rw [if_neg (by simp), if_neg (by simp)]

theorem readAll_stored {data rest tail : Bytes} {blocks : List StoredBlock} (h : Stored data blocks rest tail)
    {fuel : ℕ} (hfuel : blocks.length < fuel) :
    readAll fuel data = some (.ok (blocks.flatMap StoredBlock.pairs)) := by
  obtain ⟨hread, hahead⟩ := readAll_header h.data h.rest fuel
  rw [hread, Nat.mod_eq_of_lt h.count, readBlocks_stored blocks hahead.left h.fits hfuel]
  rfl

theorem readAll_fileBytes {f : SSTableFile} (hf : f.WellFormed) (h : Limits f) {fuel : ℕ}
    (hfuel : f.blocks.length < fuel) : readAll fuel (fileBytes f) = some (.ok f.entries) := by
  have hlength : (f.blocks.map StoredBlock.ofPairs).length < fuel := by rwa [List.length_map]
  have hread := readAll_stored (stored_fileBytes hf h) hlength
  rw [ofPairs_flatMap] at hread
  exact hread

/-- `ReadAll` returns the entries that `Write` was given, in their order. -/
theorem readAll_write (sizing : ℕ → ℕ × ℕ) (es : List KeyValuePair) (aborted : List ℕ) (hcount : es.length < 2 ^ 32)
    (hsize : ∀ b ∈ SSTableFile.packBlocks es, (blockPayload b).length < 2 ^ 32)
    (hts : ∀ e ∈ es, e.timestamp < 2 ^ 64) (fuel : ℕ) (hfuel : es.length < fuel) :
    readAll fuel (fileBytes (SSTableFile.write sizing es aborted)) = some (.ok es) := by
  have hentries := SSTableFile.entries_write sizing es aborted
  have hf := SSTableFile.write_wellFormed sizing es aborted
  have hlimits : Limits (SSTableFile.write sizing es aborted) :=
    ⟨by rw [hentries]; exact hcount, hsize, by rw [hentries]; exact hts⟩
  have hblocks := blocks_length_le hf
  rw [hentries] at hblocks
  have hread := readAll_fileBytes hf hlimits (Nat.lt_of_le_of_lt hblocks hfuel)
  rw [hentries] at hread
  exact hread

theorem readAll_write_two :
    readAll 3 (fileBytes (SSTableFile.write (fun _ => (64, 1)) [⟨[1], [2], 3, false⟩, ⟨[], [], 0, true⟩] [7])) =
      some (.ok [⟨[1], [2], 3, false⟩, ⟨[], [], 0, true⟩]) :=
  readAll_write (fun _ => (64, 1)) [⟨[1], [2], 3, false⟩, ⟨[], [], 0, true⟩] [7] (by decide) (by decide) (by decide) 3
    (by decide)

end Kvdb.SSTableBytes
