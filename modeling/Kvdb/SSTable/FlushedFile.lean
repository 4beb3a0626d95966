import Kvdb.SSTable.LookupBytes

/-! # What a flush writes, read back from its file

`WriteFromWalk` takes the empty key for the key before the first one, with nothing to write for it. So versions of the
empty key are not written, though `Write` and all readers cope with that key. -/
namespace Kvdb.SSTableBytes
set_option autoImplicit false

open LittleEndian InputStream
open SSTableFile (Ascending KeySorted flushEntries)

/-- One entry of each key of the walk, in key order, and none of the walk is newer. -/
structure NewestOf (walk es : List KeyValuePair) : Prop where
  ascending : Ascending es
  newest : ∀ x ∈ es, x ∈ walk ∧ ∀ y ∈ walk, y.key = x.key → y.timestamp ≤ x.timestamp
  every : ∀ y ∈ walk, ∃ x ∈ es, x.key = y.key

/-- The metadata tells the first and the last key, the first key of each block, and a filter that accepts all keys. -/
structure Summarizes (f : SSTableFile) (es : List KeyValuePair) (md : FileMetadata) : Prop where
  minKey : ∀ x ∈ es.head?, md.minKey = x.key
  maxKey : ∀ x ∈ es.getLast?, md.maxKey = x.key
  blocks : md.blockOffsets.length = f.blocks.length
  firstKeys : ∀ i b x, f.blocks[i]? = some b → b.head? = some x → md.firstKey i = x.key
  bloom : ∀ x ∈ es, md.bloom.mightContain x.key = true

/-- `ReadAll` returns the newest entries of the walk, and `ReadMetadata` what is true of them. -/
def Decodes (walk : List KeyValuePair) (f : SSTableFile) (filepath : String) : Prop :=
  ∃ es md, (∃ fuel, readAll fuel (fileBytes f) = some (.ok es)) ∧ NewestOf walk es ∧
    readMetadata filepath (fileBytes f) = .returned md ∧ Summarizes f es md

/-- The blocks, the filter and the aborted timestamps have sizes that fit their words. -/
structure Sized (f : SSTableFile) : Prop where
  payload : ∀ b ∈ f.blocks, (blockPayload b).length < 2 ^ 32
  bloom : f.bloom.bits < 2 ^ 32
  abortedCount : f.abortedBatchTs.length < 2 ^ 32

/-- The empty key is not among the keys, the count of entries fits its word too, and the offset of the filter area is read
back. -/
structure WalkCondition (walk : List KeyValuePair) (f : SSTableFile) : Prop extends Sized f where
  keys : ∀ x ∈ walk, x.key ≠ []
  entryCount : f.entryCount < 2 ^ 32
  filterOffset : Kept (filterOffset f)

variable {walk : List KeyValuePair} {f : SSTableFile}

theorem newestOf_flushEntries (h : KeySorted walk) (hkeys : ∀ x ∈ walk, x.key ≠ []) : NewestOf walk (flushEntries walk) := by
  refine ⟨(SSTableFile.flushEntries_ascending walk h).1, fun x hx => ⟨SSTableFile.flushEntries_subset walk x hx,
    fun y hy hkey => SSTableFile.flushEntries_top walk h hx hy hkey⟩, fun y hy => ?_⟩
  obtain ⟨x, hx, hkey, -⟩ := SSTableFile.flushEntries_newest walk y hy (hkeys y hy)
  exact ⟨x, hx, hkey⟩

/-! ## What `ReadAll` returns -/

/-- Whatever the header counts, `ReadAll` returns the entries of the first blocks, as many as it takes for the count that
it reads. -/
theorem readAll_eq_take (hf : f.WellFormed) (hpayload : ∀ b ∈ f.blocks, (blockPayload b).length < 2 ^ 32)
    (hts : ∀ x ∈ f.entries, x.timestamp < 2 ^ 64) {fuel : ℕ} {es : List KeyValuePair}
    (h : readAll fuel (fileBytes f) = some (.ok es)) :
    ∃ k, es = (f.blocks.take k).flatten ∧ f.entryCount % 2 ^ 32 ≤ es.length ∧
      ∀ j < k, (f.blocks.take j).flatten.length < f.entryCount % 2 ^ 32 := by
  obtain ⟨hread, hahead⟩ := readAll_header (rfl : fileBytes f = _) (length_keyLengths f) fuel
  rw [h] at hread
  obtain ⟨es', hblocks, hes⟩ := Option.map_eq_some_iff.mp hread.symm
  cases hes
  have hbytes : f.blocks.flatMap blockBytes = (f.blocks.map StoredBlock.ofPairs).flatMap StoredBlock.bytes := by
    rw [List.flatMap_map]
    simp only [StoredBlock.ofPairs_bytes]
  rw [hbytes] at hahead
  have hfits : ∀ b ∈ f.blocks.map StoredBlock.ofPairs, b.Fits := by
    intro b hb
    obtain ⟨b', hb', rfl⟩ := List.mem_map.mp hb
    exact StoredBlock.fits_ofPairs (hpayload b' hb') fun x hx => hts x (List.mem_flatten.mpr ⟨b', hb', hx⟩)
  have htake : ∀ k, ((f.blocks.map StoredBlock.ofPairs).take k).flatMap StoredBlock.pairs = (f.blocks.take k).flatten := by
    intro k
    rw [← List.map_take, List.flatMap_map, List.flatMap_def]
    exact congrArg List.flatten ((List.map_congr_left fun b _ => StoredBlock.ofPairs_pairs b).trans (List.map_id _))
  have htotal : f.entryCount % 2 ^ 32 ≤ ([] ++ (f.blocks.map StoredBlock.ofPairs).flatMap StoredBlock.pairs).length := by
    rw [List.nil_append, ofPairs_flatMap, ← hf.entryCount]
    exact Nat.mod_le _ _
  have hfuel : (f.blocks.map StoredBlock.ofPairs).length < fuel + f.blocks.length + 1 := by
    rw [List.length_map]
    omega
  obtain ⟨k, htaken, hlen, hshort⟩ := readBlocks_take (f.blocks.map StoredBlock.ofPairs) [] hahead.left hfits htotal hfuel
  simp only [List.nil_append, htake] at htaken hlen hshort
  rw [readBlocks_mono (by omega) hblocks, Option.some_inj] at htaken
  exact ⟨k, htaken, htaken ▸ hlen, hshort⟩

/-- If all entries are returned their count fits its word. -/
theorem entryCount_lt_of_readAll (hf : f.WellFormed) (hpayload : ∀ b ∈ f.blocks, (blockPayload b).length < 2 ^ 32)
    (hts : ∀ x ∈ f.entries, x.timestamp < 2 ^ 64) {fuel : ℕ} {es : List KeyValuePair}
    (h : readAll fuel (fileBytes f) = some (.ok es)) (hall : f.entryCount ≤ es.length) : f.entryCount < 2 ^ 32 := by
  obtain ⟨k, rfl, hlen, hshort⟩ := readAll_eq_take hf hpayload hts h
  by_contra hlarge
  cases k with
  | zero =>
    rw [List.take_zero, List.flatten_nil, List.length_nil] at hall
    omega
  | succ k =>
    -- the last block that is read would have too many entries
    have hbefore := hshort k (Nat.lt_succ_self k)
    rw [List.take_add_one, List.flatten_append, List.length_append] at hall
    cases hb : f.blocks[k]? with
    | none =>
      rw [hb, Option.toList_none, List.flatten_nil, List.length_nil] at hall
      omega
    | some b =>
      have hsize := hpayload b (List.mem_of_getElem? hb)
      have hcount := blockPayload_length_ge b
      rw [hb, Option.toList_some, List.flatten_singleton] at hall
      omega

/-! ## When the file decodes -/

section WriteFromWalk

variable (sizing : ℕ → ℕ × ℕ) (n : ℕ) (aborted : List ℕ) (filepath : String) (hwalk : KeySorted walk)

include hwalk in
/-- The empty key is not read back. -/
theorem keys_of_decodes (hpayload : ∀ b ∈ (SSTableFile.writeFromWalk sizing walk n aborted).blocks,
      (blockPayload b).length < 2 ^ 32) (hts : ∀ x ∈ walk, x.timestamp < 2 ^ 64)
    (h : Decodes walk (SSTableFile.writeFromWalk sizing walk n aborted) filepath) : ∀ x ∈ walk, x.key ≠ [] := by
  obtain ⟨es, -, ⟨fuel, hread⟩, hnewest, -⟩ := h
  have hentries := SSTableFile.entries_writeFromWalk sizing walk n aborted
  obtain ⟨k, rfl, -⟩ := readAll_eq_take (SSTableFile.writeFromWalk_wellFormed sizing walk n aborted) hpayload
    (by rw [hentries]; exact fun x hx => hts x (SSTableFile.flushEntries_subset walk x hx)) hread
  intro y hy hnil
  obtain ⟨x, hx, hkey⟩ := hnewest.every y hy
  have hwritten : x ∈ flushEntries walk := by
    obtain ⟨b, hb, hxb⟩ := List.mem_flatten.mp hx
    rw [← hentries]
    exact List.mem_flatten.mpr ⟨b, List.mem_of_mem_take hb, hxb⟩
  exact (SSTableFile.flushEntries_ascending walk hwalk).2 x hwritten (hkey.trans hnil)

variable (hkeys : ∀ x ∈ walk, x.key.length ≤ 1024) (hts : ∀ x ∈ walk, x.timestamp < 2 ^ 64)

include hwalk hts in
theorem condition_of_decodes (hsized : Sized (SSTableFile.writeFromWalk sizing walk n aborted))
    (h : Decodes walk (SSTableFile.writeFromWalk sizing walk n aborted) filepath) :
    WalkCondition walk (SSTableFile.writeFromWalk sizing walk n aborted) := by
  have hf := SSTableFile.writeFromWalk_wellFormed sizing walk n aborted
  have hentries := SSTableFile.entries_writeFromWalk sizing walk n aborted
  have hasc := (SSTableFile.flushEntries_ascending walk hwalk).1
  have hnil := keys_of_decodes sizing n aborted filepath hwalk hsized.payload hts h
  obtain ⟨es, md, ⟨fuel, hread⟩, hnewest, hmd, hsummary⟩ := h
  refine ⟨hsized, hnil, ?_, ?_⟩
  · refine entryCount_lt_of_readAll hf hsized.payload ?_ hread ?_
    · rw [hentries]
      exact fun x hx => hts x (SSTableFile.flushEntries_subset walk x hx)
    · -- every key that was written is among those that are read
      have hsub : (flushEntries walk).map KeyValuePair.key ⊆ es.map KeyValuePair.key := by
        intro key hkey
        obtain ⟨y, hy, rfl⟩ := List.mem_map.mp hkey
        obtain ⟨x, hx, hxy⟩ := hnewest.every y (SSTableFile.flushEntries_subset walk y hy)
        exact hxy ▸ List.mem_map_of_mem hx
      have hnodup : ((flushEntries walk).map KeyValuePair.key).Nodup := List.pairwise_map.mpr (hasc.imp ne_of_lt)
      have hle := List.Nodup.length_le_of_subset hnodup hsub
      rw [List.length_map, List.length_map] at hle
      exact hle
  · obtain ⟨-, -, m, hparse, rfl⟩ := readMetadata_eq_returned.mp hmd
    exact filterOffset_kept_of_read hparse hsummary.blocks

include hwalk hkeys hts in
theorem decodes_of_condition (hsizing : 64 ≤ (sizing (if 0 < n then n else 1)).1 ∧ (sizing (if 0 < n then n else 1)).2 ≤ 30)
    (hlen : (fileBytes (SSTableFile.writeFromWalk sizing walk n aborted)).length < 2 ^ 63)
    (h : WalkCondition walk (SSTableFile.writeFromWalk sizing walk n aborted)) :
    Decodes walk (SSTableFile.writeFromWalk sizing walk n aborted) filepath := by
  have hf := SSTableFile.writeFromWalk_wellFormed sizing walk n aborted
  have hentries := SSTableFile.entries_writeFromWalk sizing walk n aborted
  have hsub := SSTableFile.flushEntries_subset walk
  obtain ⟨-, hne⟩ := SSTableFile.flushEntries_ascending walk hwalk
  have hmin := SSTableFile.minKey_writeFromWalk sizing n aborted hne
  obtain ⟨hbits, hhash⟩ := ofKeys_sizing sizing (if 0 < n then n else 1) ((flushEntries walk).map KeyValuePair.key)
  have hpos : 0 < (SSTableFile.writeFromWalk sizing walk n aborted).bloom.bits := by
    show 0 < (BloomFilter.ofKeys _ _ _).bits
    omega
  have hword : (SSTableFile.writeFromWalk sizing walk n aborted).bloom.hashCount < 2 ^ 32 := by
    show (BloomFilter.ofKeys _ _ _).hashCount < 2 ^ 32
    omega
  -- all keys in the metadata are keys of entries
  have hshort : ∀ x ∈ flushEntries walk, x.key.length < 2 ^ 16 := fun x hx =>
    Nat.lt_of_le_of_lt (hkeys x (hsub x hx)) (by decide)
  have hfirst : ∀ key ∈ (SSTableFile.writeFromWalk sizing walk n aborted).firstKeys, key.length < 2 ^ 16 := by
    intro key hkey
    obtain ⟨x, hx, rfl⟩ := SSTableFile.firstKeys_attained hf hkey
    exact hshort x (hentries ▸ hx)
  have hends : ∀ o : Option KeyValuePair, (∀ x ∈ o, x ∈ flushEntries walk) → ((o.map KeyValuePair.key).getD []).length < 2 ^ 16 := by
    intro o ho
    cases o with
    | none => exact Nat.two_pow_pos 16
    | some x => exact hshort x (ho x rfl)
  have hparsed : Parsed (SSTableFile.writeFromWalk sizing walk n aborted) := by
    refine ⟨h.entryCount, ?_, ?_, h.bloom, h.abortedCount⟩
    · rw [hmin]
      exact hends _ fun x hx => List.mem_of_head? hx
    · exact hends _ fun x hx => List.mem_of_getLast? hx
  have hlimits : Limits (SSTableFile.writeFromWalk sizing walk n aborted) :=
    ⟨hf.entryCount ▸ h.entryCount, h.payload, by rw [hentries]; exact fun x hx => hts x (hsub x hx)⟩
  have hread := readAll_fileBytes hf hlimits
    (Nat.lt_succ_self (SSTableFile.writeFromWalk sizing walk n aborted).blocks.length)
  rw [hentries] at hread
  refine ⟨flushEntries walk, _, ⟨_, hread⟩, newestOf_flushEntries hwalk h.keys,
    readMetadata_of_parsed hf hlen hpos hword hparsed h.filterOffset filepath, ?_, ?_, ?_, ?_, ?_⟩
  · intro x hx
    show (SSTableFile.writeFromWalk sizing walk n aborted).minKey = x.key
    rw [hmin, Option.mem_def.mp hx]
    rfl
  · intro x hx
    show ((flushEntries walk).getLast?.map KeyValuePair.key).getD [] = x.key
    rw [Option.mem_def.mp hx]
    rfl
  · show ((blockOffsets _).map readBack).length = _
    rw [List.length_map, blockOffsets, List.length_map, List.length_range]
  · intro i b x hb hx
    have hi : (SSTableFile.writeFromWalk sizing walk n aborted).firstKeys[i]? = some x.key := by
      rw [SSTableFile.firstKeys_getElem?, hb, Option.map_some, hx]
      rfl
    show FileMetadata.firstKeyIn ((SSTableFile.writeFromWalk sizing walk n aborted).firstKeys.flatMap firstKeyBytes) i = x.key
    rw [FileMetadata.firstKeyIn_flatMap _ i hi, Nat.mod_eq_of_lt (hfirst _ (List.mem_of_getElem? hi)), List.take_length]
  · intro x hx
    show (RawBloom.ofFilter (SSTableFile.writeFromWalk sizing walk n aborted).bloom).mightContain x.key = true
    rw [RawBloom.mightContain_ofFilter hpos]
    exact BloomFilter.ofKeys_mightContain _ _ _ _ (List.mem_map_of_mem hx)

end WriteFromWalk

/-- The file of a flush decodes if no key is empty, the sizes of its parts fit their words and the offset of the filter area
is read back. Of these conditions those are necessary that are not about the blocks, the filter and the aborted timestamps
having such sizes; for so many entries the constructor of the filter takes at least 64 bits and at most 30 hash functions. -/
theorem writeFromWalk_decodes (sizing : ℕ → ℕ × ℕ) (walk : List KeyValuePair) (n : ℕ) (aborted : List ℕ)
    (filepath : String) (hsizing : ∀ n, 64 ≤ (sizing n).1 ∧ (sizing n).2 ≤ 30) (hwalk : KeySorted walk)
    (hkeys : ∀ x ∈ walk, x.key.length ≤ 1024) (hts : ∀ x ∈ walk, x.timestamp < 2 ^ 64)
    (hlen : (fileBytes (SSTableFile.writeFromWalk sizing walk n aborted)).length < 2 ^ 63) :
    (WalkCondition walk (SSTableFile.writeFromWalk sizing walk n aborted) →
        Decodes walk (SSTableFile.writeFromWalk sizing walk n aborted) filepath) ∧
      (Sized (SSTableFile.writeFromWalk sizing walk n aborted) →
        Decodes walk (SSTableFile.writeFromWalk sizing walk n aborted) filepath →
          WalkCondition walk (SSTableFile.writeFromWalk sizing walk n aborted)) :=
  ⟨decodes_of_condition sizing n aborted filepath hwalk hkeys hts (hsizing _) hlen,
    condition_of_decodes sizing n aborted filepath hwalk hts⟩

/-- A walk with two versions of a key and a tombstone. -/
def smallWalk : List KeyValuePair := [⟨[1], [7], 3, false⟩, ⟨[1], [8], 5, false⟩, ⟨[2], [], 4, true⟩]

theorem writeFromWalk_decodes_smallWalk :
    (WalkCondition smallWalk (SSTableFile.writeFromWalk (fun _ => (64, 15)) smallWalk 3 []) →
        Decodes smallWalk (SSTableFile.writeFromWalk (fun _ => (64, 15)) smallWalk 3 []) "a.sst") ∧
      (Sized (SSTableFile.writeFromWalk (fun _ => (64, 15)) smallWalk 3 []) →
        Decodes smallWalk (SSTableFile.writeFromWalk (fun _ => (64, 15)) smallWalk 3 []) "a.sst" →
          WalkCondition smallWalk (SSTableFile.writeFromWalk (fun _ => (64, 15)) smallWalk 3 [])) :=
  writeFromWalk_decodes (fun _ => (64, 15)) smallWalk 3 [] "a.sst" (fun _ => by decide)
    (by rw [KeySorted]; decide) (by decide) (by decide) (by rw [length_fileBytes]; decide)

/-- A walk with a version of the empty key. -/
def emptyKeyWalk : List KeyValuePair := [⟨[], [9], 5, false⟩, ⟨[1], [2], 3, false⟩]

theorem empty_key_lost :
    ¬ Decodes emptyKeyWalk (SSTableFile.writeFromWalk (fun _ => (64, 22)) emptyKeyWalk 2 []) "a.sst" := by
  intro h
  have hkeys := keys_of_decodes (fun _ => (64, 22)) 2 [] "a.sst" (by rw [KeySorted]; decide) (by decide) (by decide) h
  exact hkeys ⟨[], [9], 5, false⟩ List.mem_cons_self rfl

end Kvdb.SSTableBytes
