import Kvdb.SSTable.FileSteps
import Kvdb.SSTable.MetadataOfFile
import Kvdb.SSTable.ReadAll
import Kvdb.SSTable.SortedFile

/-! # `SSTable::LookupKey` on the bytes of a file

A lookup takes the metadata and the blocks out of the cache where they are there, and puts there what it has read from the
file. The block is searched by the places of the first keys, or, if the cached metadata has none of them, by a walk over
the first keys themselves, which ends one block further on; so the neighbours of the block are searched too. -/
namespace Kvdb.SSTableBytes
set_option autoImplicit false

open LittleEndian InputStream

/-! ## The cached metadata -/

namespace RawBloom

def hasBit (b : RawBloom) (n : ℕ) : Bool := (b.bytes.getD (n / 8) 0).toNat.testBit (n % 8)

/-- `MightContain`. -/
def mightContain (b : RawBloom) (key : Bytes) : Bool :=
  (List.range b.hashCount).all fun i => b.hasBit (BloomFilter.probe b.bits key i)

/-- The test the readers make: a filter with no bits rejects nothing. -/
def rejects (b : RawBloom) (key : Bytes) : Bool := decide (0 < b.bits) && !b.mightContain key

end RawBloom

/-- `CachedHeavy` (block_reader.hpp). -/
structure HeavyBytes where
  bloom : RawBloom
  blockOffsets : List ℕ
  firstKeyBuf : Bytes
  firstKeyOffsets : List ℕ
  abortedBatchTs : List ℕ
  deriving DecidableEq, Repr

/-- What the cache has for the `manifest_seq` of a file. -/
structure FileCache where
  heavy : Option HeavyBytes
  block : ℕ → Option Bytes

namespace FileCache

def putHeavy (c : FileCache) (h : HeavyBytes) : FileCache := { c with heavy := some h }

def putBlock (c : FileCache) (idx : ℕ) (b : Bytes) : FileCache :=
  { c with block := fun i => if i = idx then some b else c.block i }

/-- An eviction: the metadata is kept if `keep none` says so, and block `i` if `keep (some i)` does. -/
def evict (keep : Option ℕ → Bool) (c : FileCache) : FileCache where
  heavy := if keep none then c.heavy else none
  block i := if keep (some i) then c.block i else none

end FileCache

/-- The first keys in the buffer, by a walk over them. -/
def keysIn : ℕ → Bytes → List Bytes
  | 0, _ => []
  | fuel + 1, p => if p.isEmpty then [] else (p.drop 2).take (halfAt p 0) :: keysIn fuel (p.drop (2 + halfAt p 0))

/-- Their lengths. -/
def keyLengthsIn : ℕ → Bytes → List ℕ
  | 0, _ => []
  | fuel + 1, p => if p.isEmpty then [] else halfAt p 0 :: keyLengthsIn fuel (p.drop (2 + halfAt p 0))

/-- What `ReadMetadata` returns for cached metadata. -/
def metadataOfHeavy (filepath : String) (h : HeavyBytes) : FileMetadata where
  filepath := filepath
  entryCount := 0
  minKeyLen :=
    let shortest := minLength (keyLengthsIn h.firstKeyBuf.length h.firstKeyBuf)
    if shortest = 2 ^ 32 - 1 then 0 else shortest
  maxKeyLen := maxLength (keyLengthsIn h.firstKeyBuf.length h.firstKeyBuf)
  fileSize := 0
  minKey := []
  maxKey := []
  bloom := h.bloom
  blockOffsets := h.blockOffsets
  firstKeyBuf := h.firstKeyBuf
  firstKeyOffsets := h.firstKeyOffsets
  abortedBatchTs := h.abortedBatchTs

/-- What `ReadMetadata` puts into the cache, and what a lookup takes of metadata that it has read. -/
def FileMetadata.heavy (md : FileMetadata) : HeavyBytes :=
  ⟨md.bloom, md.blockOffsets, md.firstKeyBuf, md.firstKeyOffsets, md.abortedBatchTs⟩

/-- `ReadMetadata`. -/
def readMetadataCached (filepath : String) (data : Bytes) (cache : Option FileCache) :
    Outcome (FileMetadata × Option FileCache) :=
  match cache.bind FileCache.heavy with
  | some h => .returned (metadataOfHeavy filepath h, cache)
  | none =>
    match readMetadata filepath data with
    | .threw e => .threw e
    | .outside => .outside
    | .returned md => .returned (md, cache.map fun c => c.putHeavy md.heavy)

/-! ## `LookupKey` -/

/-- The loop of `scanBlock` from entry `i` on, for so many entries. -/
def scanLoop (aborted : List ℕ) (key : Bytes) (readTs : ℕ) : ℕ → ℕ → Block → KeyValuePair → Option Bytes
  | 0, _, _, _ => none
  | k + 1, i, blk, kv =>
    let r := blk.readAt i kv
    if r.1 then
      if r.2.1.timestamp ∈ aborted then scanLoop aborted key readTs k (i + 1) r.2.2 r.2.1
      else if r.2.1.key = key ∧ r.2.1.timestamp ≤ readTs then some (if r.2.1.isTombstone then [] else r.2.1.value)
      else scanLoop aborted key readTs k (i + 1) r.2.2 r.2.1
    else none

/-- `scanBlock`: `value_out`, if the key is found. -/
def scanBytes (aborted : List ℕ) (key : Bytes) (readTs : ℕ) (data : Bytes) : Option Bytes :=
  scanLoop aborted key readTs (Block.ofData data).count 0 (Block.ofData data) ⟨[], [], 0, false⟩

/-- The block that is read at an offset of the file; an offset from `2 ^ 63` on is negative for `seekg`. -/
def blockAt (data : Bytes) (offset : ℕ) : Bytes :=
  (readChunk ⟨data, offset, decide (2 ^ 63 ≤ offset)⟩).1

/-- `search`. -/
def searchBytes (data : Bytes) (m : HeavyBytes) (key : Bytes) (readTs : ℕ) (idx : ℕ) (cache : Option FileCache) :
    Option Bytes × Option FileCache :=
  match m.blockOffsets[idx]? with
  | none => (none, cache)
  | some offset =>
    match cache.bind fun c => c.block idx with
    | some block => (scanBytes m.abortedBatchTs key readTs block, cache)
    | none =>
      (scanBytes m.abortedBatchTs key readTs (blockAt data offset),
        cache.map fun c => c.putBlock idx (blockAt data offset))

/-- The searches in turn until one finds the key, the first of them as call `n` to the cache; `keep n` is what is left of
the cache before it. -/
def searchTurns (data : Bytes) (m : HeavyBytes) (key : Bytes) (readTs : ℕ) (keep : ℕ → Option ℕ → Bool) :
    ℕ → List ℕ → Option FileCache → Option Bytes × Option FileCache
  | _, [], cache => (none, cache)
  | n, idx :: idxs, cache =>
    let r := searchBytes data m key readTs idx (cache.map (FileCache.evict (keep n)))
    if r.1.isSome then r else searchTurns data m key readTs keep (n + 1) idxs r.2

/-- The first key at a place of the buffer. -/
def firstKeyFrom (buf : Bytes) (o : ℕ) : Bytes := (buf.drop (o + 2)).take (halfAt buf o)

/-- `target`. -/
def lookupStart (m : HeavyBytes) (key : Bytes) : ℕ :=
  if m.firstKeyOffsets.isEmpty then
    ((keysIn m.firstKeyBuf.length m.firstKeyBuf).takeWhile fun fk => !decide (key < fk)).length
  else
    Bisect.bisect (fun o => decide (key < firstKeyFrom m.firstKeyBuf o)) (fun lo hi => (lo + hi) / 2) m.firstKeyOffsets
      m.firstKeyOffsets.length 0 m.firstKeyOffsets.length - 1

/-- The blocks that are searched: the target, the one before it and the one after it. -/
def lookupTurns (m : HeavyBytes) (key : Bytes) : List ℕ :=
  let target := lookupStart m key
  target :: ((if 0 < target then [target - 1] else []) ++
    if target + 1 < m.blockOffsets.length then [target + 1] else [])

/-- `LookupKey` with the metadata at hand. -/
def lookupWith (data : Bytes) (m : HeavyBytes) (key : Bytes) (readTs : ℕ) (keep : ℕ → Option ℕ → Bool)
    (cache : Option FileCache) : Option Bytes × Option FileCache :=
  if m.firstKeyBuf.isEmpty then (none, cache)
  else if m.bloom.rejects key then (none, cache)
  else searchTurns data m key readTs keep 2 (lookupTurns m key) cache

/-- `LookupKey`: `value_out` where it returns true, and the cache then. Calls 0 and 1 to the cache ask for the metadata. -/
def lookupBytes (filepath : String) (data : Bytes) (key : Bytes) (readTs : ℕ) (keep : ℕ → Option ℕ → Bool)
    (cache : Option FileCache) : Outcome (Option Bytes × Option FileCache) :=
  let cache := cache.map (FileCache.evict (keep 0))
  match cache.bind FileCache.heavy with
  | some m => .returned (lookupWith data m key readTs keep cache)
  | none =>
    match readMetadataCached filepath data (cache.map (FileCache.evict (keep 1))) with
    | .threw e => .threw e
    | .outside => .outside
    | .returned r => .returned (lookupWith data r.1.heavy key readTs keep r.2)

/-! ## The filter -/

theorem sum_two_pow_lt (p : ℕ → Prop) [DecidablePred p] (n : ℕ) :
    ((List.range n).map fun k => if p k then 2 ^ k else 0).sum < 2 ^ n := by
  induction n with
  | zero => exact Nat.one_pos
  | succ n ih =>
    rw [List.range_succ, List.map_append, List.sum_append, List.map_singleton, List.sum_singleton, Nat.pow_succ]
    split
    · omega
    · omega

/-- The bits of a sum of different powers of two. -/
theorem testBit_sum (p : ℕ → Prop) [DecidablePred p] {n k : ℕ} (hk : k < n) :
    ((List.range n).map fun k => if p k then 2 ^ k else 0).sum.testBit k = decide (p k) := by
  induction n with
  | zero => omega
  | succ n ih =>
    have hlt := sum_two_pow_lt p n
    rw [List.range_succ, List.map_append, List.sum_append, List.map_singleton, List.sum_singleton, Nat.add_comm]
    rcases Nat.lt_or_eq_of_le (Nat.le_of_lt_succ hk) with hkn | rfl
    · split
      · rw [Nat.testBit_two_pow_add_gt hkn, ih hkn]
      · rw [Nat.zero_add, ih hkn]
    · split
      · next hp => rw [Nat.testBit_two_pow_add_eq, Nat.testBit_lt_two_pow hlt, decide_eq_true hp, Bool.not_false]
      · next hp => rw [Nat.zero_add, Nat.testBit_lt_two_pow hlt, decide_eq_false hp]

theorem bloomByte_testBit (b : BloomFilter) (j : ℕ) {k : ℕ} (hk : k < 8) :
    (bloomByte b j).toNat.testBit k = decide (8 * j + k ∈ b.setBits) := by
  have hlt := sum_two_pow_lt (fun k => 8 * j + k ∈ b.setBits) 8
  rw [bloomByte, UInt8.toNat_ofNat_of_lt' hlt, testBit_sum _ hk]

namespace RawBloom

/-- The filter of a file as it is read. -/
def ofFilter (b : BloomFilter) : RawBloom := ⟨b.bits, b.hashCount, bloomData b⟩

theorem hasBit_ofFilter (b : BloomFilter) {n : ℕ} (hn : n < b.bits) : (ofFilter b).hasBit n = decide (n ∈ b.setBits) := by
  have hbyte : (bloomData b).getD (n / 8) 0 = bloomByte b (n / 8) := by
    rw [List.getD_eq_getElem?_getD, bloomData, List.getElem?_map, List.getElem?_range (by omega)]
    rfl
  rw [hasBit, ofFilter, hbyte, bloomByte_testBit b _ (Nat.mod_lt n (by decide)), Nat.div_add_mod]

theorem mightContain_ofFilter {b : BloomFilter} (hbits : 0 < b.bits) (key : Bytes) :
    (ofFilter b).mightContain key = b.mightContain key :=
  congrArg (List.range b.hashCount).all (funext fun _ => hasBit_ofFilter b (Nat.mod_lt _ hbits))

theorem rejects_ofFilter (b : BloomFilter) (key : Bytes) : (ofFilter b).rejects key = b.rejects key := by
  rw [rejects, BloomFilter.rejects, show (ofFilter b).bits = b.bits from rfl]
  rcases Nat.eq_zero_or_pos b.bits with hzero | hpos
  · rw [hzero]
    rfl
  · rw [mightContain_ofFilter hpos]

end RawBloom

/-! ## Scanning a block -/

/-- `value_out` for an entry. -/
def valueOut (e : KeyValuePair) : Bytes := if e.isTombstone then [] else e.value

variable {key : Bytes} {readTs : ℕ} {aborted : List ℕ}

theorem scanBlock_cons (e : KeyValuePair) (es : List KeyValuePair) : scanBlock aborted key readTs (e :: es) =
    if e.timestamp ∈ aborted then scanBlock aborted key readTs es
    else if e.key = key ∧ e.timestamp ≤ readTs then some e else scanBlock aborted key readTs es := by
  rw [scanBlock, List.find?_cons, ← scanBlock]
  by_cases haborted : e.timestamp ∈ aborted
  · simp [haborted]
  · by_cases hkey : e.key = key
    · by_cases hts : e.timestamp ≤ readTs
      · simp [haborted, hkey, hts]
      · simp [haborted, hkey, hts]
    · simp [haborted, hkey]

theorem scanLoop_stored {sb : StoredBlock} (h : sb.Fits) (k i : ℕ) (hk : i + k = sb.entries.length) {j : ℕ} {blk : Block}
    (hb : CursorAt sb j blk) (kv : KeyValuePair) : scanLoop aborted key readTs k i blk kv =
      (scanBlock aborted key readTs (sb.pairs.drop i)).map valueOut := by
  induction k generalizing i j blk kv with
  | zero =>
    rw [List.drop_eq_nil_of_le (by rw [StoredBlock.pairs, List.length_map]; omega)]
    rfl
  | succ k ih =>
    have hlt : i < sb.entries.length := by omega
    obtain ⟨blk', hread, hb'⟩ := hb.readAt h (List.getElem?_eq_getElem hlt) kv
    have hdrop : sb.pairs.drop i = sb.entries[i].pair :: sb.pairs.drop (i + 1) := by
      have hlt' : i < sb.pairs.length := by rwa [StoredBlock.pairs, List.length_map]
      rw [List.drop_eq_getElem_cons hlt']
      congr 1
      exact List.getElem_map ..
    rw [scanLoop, hread, hdrop, scanBlock_cons]
    simp only [if_true, ih (i + 1) (by omega) hb']
    split
    · rfl
    · split
      · rfl
      · rfl

theorem scanBytes_stored {sb : StoredBlock} (h : sb.Fits) :
    scanBytes aborted key readTs sb.payload = (scanBlock aborted key readTs sb.pairs).map valueOut := by
  have hb := cursorAt_ofData h
  rw [scanBytes, hb.count]
  exact scanLoop_stored h sb.entries.length 0 (Nat.zero_add _) hb _

/-! ## The cache -/

/-- Metadata that equals `m`, but that the places of the first keys may be missing. -/
structure Matches (m h : HeavyBytes) : Prop where
  bloom : h.bloom = m.bloom
  blockOffsets : h.blockOffsets = m.blockOffsets
  firstKeyBuf : h.firstKeyBuf = m.firstKeyBuf
  firstKeyOffsets : h.firstKeyOffsets = m.firstKeyOffsets ∨ h.firstKeyOffsets = []
  abortedBatchTs : ∀ t, t ∈ h.abortedBatchTs ↔ t ∈ m.abortedBatchTs

/-- The cached metadata is `m`, and the cached blocks are the stored ones. -/
structure FileCache.Holds (m : HeavyBytes) (blocks : List StoredBlock) (c : FileCache) : Prop where
  heavy : ∀ h, c.heavy = some h → Matches m h
  block : ∀ i b, c.block i = some b → blocks[i]?.map StoredBlock.payload = some b

variable {m md : HeavyBytes} {blocks : List StoredBlock} {cache : Option FileCache}

theorem Matches.refl (m : HeavyBytes) : Matches m m := ⟨rfl, rfl, rfl, .inl rfl, fun _ => Iff.rfl⟩

namespace FileCache

theorem Holds.evict (h : ∀ c ∈ cache, Holds m blocks c) (keep : Option ℕ → Bool) :
    ∀ c ∈ cache.map (FileCache.evict keep), Holds m blocks c := by
  intro c hc
  obtain ⟨c₀, hc₀, rfl⟩ := Option.map_eq_some_iff.mp hc
  obtain ⟨hheavy, hblock⟩ := h c₀ hc₀
  refine ⟨fun md hmd => ?_, fun i b hb => ?_⟩
  · simp only [FileCache.evict] at hmd
    split at hmd
    · exact hheavy md hmd
    · cases hmd
  · simp only [FileCache.evict] at hb
    split at hb
    · exact hblock i b hb
    · cases hb

theorem Holds.putBlock (h : ∀ c ∈ cache, Holds m blocks c) {idx : ℕ} {b : Bytes}
    (hb : blocks[idx]?.map StoredBlock.payload = some b) :
    ∀ c ∈ cache.map fun c => c.putBlock idx b, Holds m blocks c := by
  intro c hc
  obtain ⟨c₀, hc₀, rfl⟩ := Option.map_eq_some_iff.mp hc
  refine ⟨(h c₀ hc₀).heavy, fun i b' hb' => ?_⟩
  simp only [FileCache.putBlock] at hb'
  split at hb'
  · next hi => rw [hi, hb, hb']
  · exact (h c₀ hc₀).block i b' hb'

theorem Holds.putHeavy (h : ∀ c ∈ cache, Holds m blocks c) : ∀ c ∈ cache.map fun c => c.putHeavy m, Holds m blocks c := by
  intro c hc
  obtain ⟨c₀, hc₀, rfl⟩ := Option.map_eq_some_iff.mp hc
  refine ⟨fun md hmd => ?_, (h c₀ hc₀).block⟩
  rw [← Option.some.inj hmd]
  exact Matches.refl m

end FileCache

/-! ## Searching blocks -/

open FileIterator (offset ahead_block blockOffsets_eq)

/-- What a search of block `idx` yields. -/
def foundAt (blocks : List StoredBlock) (aborted : List ℕ) (key : Bytes) (readTs : ℕ) (idx : ℕ) : Option Bytes :=
  blocks[idx]?.bind fun sb => (scanBlock aborted key readTs sb.pairs).map valueOut

section Search

variable {data rest tail : Bytes} (h : Stored data blocks rest tail) (hlen : data.length < 2 ^ 63)

include h in
theorem offset_le (q : ℕ) : offset blocks q ≤ data.length := by
  have hbytes : blocks.flatMap StoredBlock.bytes =
      (blocks.take q).flatMap StoredBlock.bytes ++ (blocks.drop q).flatMap StoredBlock.bytes := by
    rw [← List.flatMap_append, List.take_append_drop]
  rw [h.data, hbytes, offset, List.length_append, length_header, h.rest, List.length_append, List.length_append]
  omega

include h hlen

theorem blockAt_stored {q : ℕ} {sb : StoredBlock} (hq : blocks[q]? = some sb) :
    blockAt data (offset blocks q) = sb.payload := by
  have hle := offset_le h q
  rw [blockAt, decide_eq_false (by omega)]
  exact congrArg Prod.fst (readChunk_stored (ahead_block h hq) (h.fits sb (List.mem_of_getElem? hq)))

variable (hm : md.blockOffsets = (List.range blocks.length).map (offset blocks))
  (hc : ∀ c ∈ cache, FileCache.Holds m blocks c)

include hm hc

variable (key readTs) in
theorem searchBytes_stored (idx : ℕ) :
    (searchBytes data md key readTs idx cache).1 = foundAt blocks md.abortedBatchTs key readTs idx ∧
      ∀ c ∈ (searchBytes data md key readTs idx cache).2, FileCache.Holds m blocks c := by
  rw [searchBytes, foundAt, hm, List.getElem?_map]
  cases hidx : blocks[idx]? with
  | none =>
    rw [List.getElem?_eq_none (by rw [List.length_range]; exact List.getElem?_eq_none_iff.mp hidx)]
    exact ⟨rfl, hc⟩
  | some sb =>
    have hfits := h.fits sb (List.mem_of_getElem? hidx)
    rw [List.getElem?_range (List.getElem?_eq_some_iff.mp hidx).1]
    simp only [Option.map_some, Option.bind_some, blockAt_stored h hlen hidx]
    cases hcached : cache.bind fun c => c.block idx with
    | none =>
      simp only []
      exact ⟨scanBytes_stored hfits, FileCache.Holds.putBlock hc (by rw [hidx]; rfl)⟩
    | some b =>
      obtain ⟨c, hcache, hb⟩ := Option.bind_eq_some_iff.mp hcached
      have hpayload := (hc c hcache).block idx b hb
      rw [hidx, Option.map_some, Option.some_inj] at hpayload
      subst hpayload
      exact ⟨scanBytes_stored hfits, hc⟩

variable (key readTs) in
theorem searchTurns_stored (keep : ℕ → Option ℕ → Bool) (n : ℕ) (idxs : List ℕ) :
    (searchTurns data md key readTs keep n idxs cache).1 = idxs.findSome? (foundAt blocks md.abortedBatchTs key readTs) ∧
      ∀ c ∈ (searchTurns data md key readTs keep n idxs cache).2, FileCache.Holds m blocks c := by
  induction idxs generalizing n cache with
  | nil => exact ⟨rfl, hc⟩
  | cons idx idxs ih =>
    obtain ⟨hfound, hheld⟩ :=
      searchBytes_stored key readTs h hlen hm (FileCache.Holds.evict hc (keep n)) idx
    rw [searchTurns, List.findSome?_cons, ← hfound]
    cases hres : (searchBytes data md key readTs idx (cache.map (FileCache.evict (keep n)))).1 with
    | some v =>
      simp only [hres, Option.isSome_some, if_true]
      exact ⟨trivial, hheld⟩
    | none =>
      simp only [Option.isSome_none, Bool.false_eq_true, if_false]
      exact ih hheld (n + 1)

end Search

/-! ## The block that is searched first -/

section Target

variable {keys : List Bytes} (hkeys : ∀ key ∈ keys, key.length < 2 ^ 16)

include hkeys

theorem keysIn_flatMap {fuel : ℕ} (hfuel : keys.length ≤ fuel) : keysIn fuel (keys.flatMap firstKeyBytes) = keys := by
  induction keys generalizing fuel with
  | nil =>
    cases fuel with
    | zero => rfl
    | succ fuel => rfl
  | cons k ks ih =>
    obtain ⟨fuel, rfl⟩ := Nat.exists_eq_succ_of_ne_zero (Nat.ne_of_gt (Nat.zero_lt_of_lt hfuel))
    have hk := hkeys k List.mem_cons_self
    have hfront : (k :: ks).flatMap firstKeyBytes = leBytes 2 k.length ++ (k ++ ks.flatMap firstKeyBytes) := by
      rw [List.flatMap_cons, firstKeyBytes_eq hk, List.append_assoc]
    have hhalf : halfAt (leBytes 2 k.length ++ (k ++ ks.flatMap firstKeyBytes)) 0 = k.length := by
      rw [halfAt_zero, Nat.mod_eq_of_lt hk]
    rw [keysIn, hfront, hhalf, if_neg (by simp [leBytes]), ← List.drop_drop, List.drop_left' (length_leBytes 2 _), List.take_left,
      List.drop_left, ih (fun key hkey => hkeys key (List.mem_cons_of_mem _ hkey)) (Nat.le_of_succ_le_succ hfuel)]

/-- The first key at the place that is kept for it. -/
theorem firstKeyFrom_flatMap {i : ℕ} {key : Bytes} (hi : keys[i]? = some key) :
    firstKeyFrom (keys.flatMap firstKeyBytes) (firstKeysSize ((keys.map fun key => key.length % 2 ^ 16).take i)) = key := by
  obtain ⟨hlt, hget⟩ := List.getElem?_eq_some_iff.mp hi
  have hkey := hkeys key (List.mem_of_getElem? hi)
  have hsplit : keys.flatMap firstKeyBytes = (keys.take i).flatMap firstKeyBytes ++
      (leBytes 2 key.length ++ (key ++ (keys.drop (i + 1)).flatMap firstKeyBytes)) := by
    conv_lhs => rw [← List.take_append_drop i keys, List.drop_eq_getElem_cons hlt, hget]
    rw [List.flatMap_append, List.flatMap_cons, firstKeyBytes_eq hkey, List.append_assoc]
  have hhalf := @halfAt_skip ((keys.take i).flatMap firstKeyBytes)
    (leBytes 2 key.length ++ (key ++ (keys.drop (i + 1)).flatMap firstKeyBytes)) _ rfl 0
  rw [halfAt_zero, Nat.mod_eq_of_lt hkey, Nat.add_zero (List.length _)] at hhalf
  rw [← List.map_take, ← firstKeysSize_flatMap, firstKeyFrom, hsplit, hhalf, ← List.drop_drop, List.drop_left,
    List.drop_left' (length_leBytes 2 _), List.take_left]

theorem map_firstKeyFrom (hsize : (keys.flatMap firstKeyBytes).length < 2 ^ 32) :
    (keyOffsets (keys.map fun key => key.length % 2 ^ 16)).map (firstKeyFrom (keys.flatMap firstKeyBytes)) = keys := by
  refine List.ext_getElem? fun i => ?_
  rw [keyOffsets, List.map_map, List.getElem?_map, List.length_map]
  cases hi : keys[i]? with
  | none =>
    rw [List.getElem?_eq_none (by rw [List.length_range]; exact List.getElem?_eq_none_iff.mp hi)]
    rfl
  | some key =>
    have hle : firstKeysSize ((keys.map fun key => key.length % 2 ^ 16).take i) ≤ (keys.flatMap firstKeyBytes).length := by
      rw [← List.map_take, ← firstKeysSize_flatMap]
      conv_rhs => rw [← List.take_append_drop i keys, List.flatMap_append, List.length_append]
      exact Nat.le_add_right _ _
    rw [List.getElem?_range (List.getElem?_eq_some_iff.mp hi).1, Option.map_some, Function.comp_apply,
      Nat.mod_eq_of_lt (by omega), firstKeyFrom_flatMap hkeys hi]

end Target

/-- What `ReadMetadata` puts into the cache for the file. -/
def heavyOf (f : SSTableFile) : HeavyBytes where
  bloom := RawBloom.ofFilter f.bloom
  blockOffsets := blockOffsets f
  firstKeyBuf := f.firstKeys.flatMap firstKeyBytes
  firstKeyOffsets := keyOffsets (f.firstKeys.map fun key => key.length % 2 ^ 16)
  abortedBatchTs := f.abortedBatchTs

/-- An ascending file whose first keys are read back. -/
structure Searchable (f : SSTableFile) : Prop where
  wellFormed : f.WellFormed
  ascending : SSTableFile.Ascending f.entries
  rejects : ∀ x ∈ f.entries, f.bloom.rejects x.key = false
  firstKeys : ∀ key ∈ f.firstKeys, key.length < 2 ^ 16
  size : (f.firstKeys.flatMap firstKeyBytes).length < 2 ^ 32

section Lookup

variable {f : SSTableFile} (hf : Searchable f) (hm : Matches (heavyOf f) md)

include hf hm

/-- The search begins at the block of the key, or at the next one if the first keys were walked over. -/
theorem lookupStart_eq {j : ℕ} {b : List KeyValuePair} (hb : f.blocks[j]? = some b) {x : KeyValuePair} (hx : x ∈ b) :
    lookupStart md x.key = if md.firstKeyOffsets.isEmpty then j + 1 else j := by
  have hbuf : md.firstKeyBuf = f.firstKeys.flatMap firstKeyBytes := hm.firstKeyBuf
  have hsplit := Bisect.bisect_all SSTableFile.target_middle
    (SSTableFile.firstKeys_monotone hf.wellFormed hf.ascending x.key)
  have hle := @Bisect.bisect_le _ (fun fk : Bytes => decide (x.key < fk)) _ SSTableFile.target_middle f.firstKeys
    f.firstKeys.length 0 f.firstKeys.length (Nat.zero_le _)
  have hcount := SSTableFile.splits_firstKeys hf.wellFormed hf.ascending hb hx hsplit hle
  rw [lookupStart, hbuf]
  split
  · have hfuel : f.firstKeys.length ≤ (f.firstKeys.flatMap firstKeyBytes).length := by
      have hsum := @mul_sum_le_flatMap _ firstKeyBytes (fun _ => 1) 1
        (fun key => by rw [length_firstKeyBytes]; omega) f.firstKeys
      simpa using hsum
    rw [keysIn_flatMap hf.firstKeys hfuel, hsplit.length_takeWhile hle, hcount]
  · next hsome =>
    have hoffsets : md.firstKeyOffsets = keyOffsets (f.firstKeys.map fun key => key.length % 2 ^ 16) :=
      hm.firstKeyOffsets.resolve_right fun hnil => hsome (by rw [hnil]; rfl)
    have hlen : md.firstKeyOffsets.length = f.firstKeys.length := by
      rw [hoffsets, keyOffsets, List.length_map, List.length_range, List.length_map]
    have hmap := @Bisect.bisect_map _ (fun fk : Bytes => decide (x.key < fk)) (fun lo hi => (lo + hi) / 2) _
      (firstKeyFrom (f.firstKeys.flatMap firstKeyBytes)) md.firstKeyOffsets f.firstKeys.length 0 f.firstKeys.length
    rw [hlen, ← hmap, hoffsets, map_firstKeyFrom hf.firstKeys hf.size, hcount, Nat.add_sub_cancel]

theorem mem_lookupTurns {j : ℕ} {b : List KeyValuePair} (hb : f.blocks[j]? = some b) {x : KeyValuePair} (hx : x ∈ b) :
    j ∈ lookupTurns md x.key := by
  have hstart := lookupStart_eq hf hm hb hx
  rw [lookupTurns]
  split at hstart
  · rw [hstart]
    simp
  · rw [hstart]
    exact List.mem_cons_self

/-- A file whose blocks are those of `f`, with flags and checksums of its own. -/
structure StoredAs (f : SSTableFile) (data : Bytes) (blocks : List StoredBlock) : Prop where
  stored : ∃ rest tail, Stored data blocks rest tail
  pairs : blocks.map StoredBlock.pairs = f.blocks
  offsets : blockOffsets f = (List.range blocks.length).map (offset blocks)

omit hf hm in
theorem storedAs_fileBytes (hf : f.WellFormed) (hl : Limits f) :
    StoredAs f (fileBytes f) (f.blocks.map StoredBlock.ofPairs) := by
  refine ⟨⟨_, _, stored_fileBytes hf hl⟩, ?_, blockOffsets_eq f⟩
  rw [List.map_map]
  exact (List.map_congr_left fun b _ => StoredBlock.ofPairs_pairs b).trans (List.map_id _)

omit hf hm in
/-- What a block of the file is searched for. -/
theorem foundAt_eq {data : Bytes} (h : StoredAs f data blocks) (idx : ℕ) :
    foundAt blocks aborted key readTs idx = f.blocks[idx]?.bind fun b => (scanBlock aborted key readTs b).map valueOut := by
  rw [foundAt, ← h.pairs, List.getElem?_map]
  cases blocks[idx]? with
  | none => rfl
  | some sb => rfl

variable {data : Bytes} (h : StoredAs f data blocks)

include h

omit hf in
/-- What is found is a visible version of the key. -/
theorem visible_of_found {idxs : List ℕ} {v : Bytes}
    (hv : idxs.findSome? (foundAt blocks md.abortedBatchTs key readTs) = some v) :
    ∃ x ∈ f.entries, x.key = key ∧ x.timestamp ≤ readTs ∧ x.timestamp ∉ f.abortedBatchTs ∧ v = valueOut x := by
  obtain ⟨idx, -, hidx⟩ := List.exists_of_findSome?_eq_some hv
  rw [foundAt_eq h] at hidx
  obtain ⟨b, hb, hscan⟩ := Option.bind_eq_some_iff.mp hidx
  obtain ⟨x, hx, rfl⟩ := Option.map_eq_some_iff.mp hscan
  obtain ⟨hxb, hkey, hts⟩ := scanBlock_eq_some hx
  exact ⟨x, List.mem_flatten.mpr ⟨b, List.mem_of_getElem? hb, hxb⟩, hkey, hts,
    fun hmem => SSTableFile.scanBlock_not_aborted hx ((hm.abortedBatchTs _).mpr hmem), rfl⟩

/-- The block of a visible version is among those that are searched. -/
theorem found_of_visible {x : KeyValuePair} (hx : x ∈ f.entries) (hts : x.timestamp ≤ readTs)
    (habort : x.timestamp ∉ f.abortedBatchTs) :
    (lookupTurns md x.key).findSome? (foundAt blocks md.abortedBatchTs x.key readTs) = some (valueOut x) := by
  obtain ⟨b, hb, hxb⟩ := List.mem_flatten.mp hx
  obtain ⟨j, hj⟩ := List.getElem?_of_mem hb
  have hscan := @SSTableFile.scanBlock_isSome md.abortedBatchTs _ _ _ hxb hts
    fun hmem => habort ((hm.abortedBatchTs _).mp hmem)
  have hsome : ((lookupTurns md x.key).findSome? (foundAt blocks md.abortedBatchTs x.key readTs)).isSome = true := by
    rw [List.findSome?_isSome_iff]
    refine ⟨j, mem_lookupTurns hf hm hj hxb, ?_⟩
    rw [foundAt_eq h, hj, Option.bind_some, Option.isSome_map]
    exact hscan
  obtain ⟨v, hv⟩ := Option.isSome_iff_exists.mp hsome
  obtain ⟨y, hy, hkey, -, -, rfl⟩ := visible_of_found hm h hv
  rw [hv, hf.ascending.eq_of_key hy hx hkey]

omit h in
/-- A key of the file gets past the first keys and the filter. -/
theorem passes_of_mem {x : KeyValuePair} (hx : x ∈ f.entries) :
    md.firstKeyBuf.isEmpty = false ∧ md.bloom.rejects x.key = false := by
  refine ⟨?_, ?_⟩
  · obtain ⟨b, hb, -⟩ := List.mem_flatten.mp hx
    rw [hm.firstKeyBuf, List.isEmpty_eq_false_iff]
    intro hnil
    have hfirst := List.flatMap_eq_nil_iff.mp hnil _ (List.mem_map_of_mem hb)
    exact absurd (congrArg List.length hfirst) (by rw [length_firstKeyBytes, List.length_nil]; omega)
  · rw [hm.bloom]
    exact (RawBloom.rejects_ofFilter f.bloom x.key).trans (hf.rejects x hx)

variable (key readTs) in
/-- A lookup finds the visible version of the key. -/
theorem lookupWith_stored (hlen : data.length < 2 ^ 63) (hc : ∀ c ∈ cache, FileCache.Holds (heavyOf f) blocks c)
    (keep : ℕ → Option ℕ → Bool) :
    (∀ v, (lookupWith data md key readTs keep cache).1 = some v ↔
      ∃ x ∈ f.entries, x.key = key ∧ x.timestamp ≤ readTs ∧ x.timestamp ∉ f.abortedBatchTs ∧ v = valueOut x) ∧
      ∀ c ∈ (lookupWith data md key readTs keep cache).2, FileCache.Holds (heavyOf f) blocks c := by
  obtain ⟨rest, tail, hstored⟩ := h.stored
  have hoffsets : md.blockOffsets = (List.range blocks.length).map (offset blocks) := hm.blockOffsets.trans h.offsets
  obtain ⟨hturns, hheld⟩ := searchTurns_stored key readTs hstored hlen hoffsets hc keep 2
    (lookupTurns md key)
  rw [lookupWith]
  split
  · next hbuf =>
    refine ⟨fun v => ⟨fun hv => (by cases hv), ?_⟩, hc⟩
    rintro ⟨x, hx, -⟩
    exact absurd hbuf (by rw [(passes_of_mem hf hm hx).1]; exact Bool.false_ne_true)
  · split
    · next hbloom =>
      refine ⟨fun v => ⟨fun hv => (by cases hv), ?_⟩, hc⟩
      rintro ⟨x, hx, rfl, -⟩
      exact absurd hbloom (by rw [(passes_of_mem hf hm hx).2]; exact Bool.false_ne_true)
    · rw [hturns]
      refine ⟨fun v => ⟨fun hv => visible_of_found hm h hv, ?_⟩, hheld⟩
      rintro ⟨x, hx, rfl, hts, habort, rfl⟩
      exact found_of_visible hf hm h hx hts habort

end Lookup

/-! ## A written file -/

/-- The cached metadata is what `ReadMetadata` returns for the file, and the cached blocks are its blocks. -/
structure FileCache.Consistent (f : SSTableFile) (c : FileCache) : Prop where
  heavy : ∀ h, c.heavy = some h →
    ∃ filepath md, readMetadata filepath (fileBytes f) = .returned md ∧ Matches md.heavy h
  block : ∀ i b, c.block i = some b → f.blocks[i]?.map blockPayload = some b

section File

variable {f : SSTableFile}

theorem heavy_metadataOf (filepath : String) : (metadataOf filepath (fileBytes f) (fieldsOf f)).heavy = heavyOf f := rfl

theorem FileCache.consistent_iff {c : FileCache} (hread : ∀ filepath,
    readMetadata filepath (fileBytes f) = .returned (metadataOf filepath (fileBytes f) (fieldsOf f))) :
    c.Consistent f ↔ c.Holds (heavyOf f) (f.blocks.map StoredBlock.ofPairs) := by
  have hpayload : ∀ i : ℕ, (f.blocks.map StoredBlock.ofPairs)[i]?.map StoredBlock.payload = f.blocks[i]?.map blockPayload := by
    intro i
    rw [List.getElem?_map, Option.map_map]
    exact congrFun (congrArg Option.map (funext StoredBlock.ofPairs_payload)) _
  refine ⟨fun h => ⟨fun m hm => ?_, fun i b hb => (hpayload i).trans (h.block i b hb)⟩,
    fun h => ⟨fun m hm => ⟨"", _, hread "", h.heavy m hm⟩, fun i b hb => (hpayload i).symm.trans (h.block i b hb)⟩⟩
  obtain ⟨filepath, md, hmd, hmatches⟩ := h.heavy m hm
  rw [hread, Outcome.returned.injEq] at hmd
  subst hmd
  exact hmatches

variable (key readTs) in
/-- The metadata comes from the cache or from the file. -/
theorem lookupBytes_stored (hf : Searchable f) {data : Bytes} (h : StoredAs f data blocks) (hlen : data.length < 2 ^ 63)
    (filepath : String) {md : FileMetadata} (hread : readMetadata filepath data = .returned md) (hmd : md.heavy = heavyOf f)
    (keep : ℕ → Option ℕ → Bool) (hc : ∀ c ∈ cache, FileCache.Holds (heavyOf f) blocks c) :
    ∃ found cache', lookupBytes filepath data key readTs keep cache = .returned (found, cache') ∧
      (∀ v, found = some v ↔
        ∃ x ∈ f.entries, x.key = key ∧ x.timestamp ≤ readTs ∧ x.timestamp ∉ f.abortedBatchTs ∧ v = valueOut x) ∧
      ∀ c ∈ cache', FileCache.Holds (heavyOf f) blocks c := by
  have hc₀ := FileCache.Holds.evict hc (keep 0)
  have hc₁ := FileCache.Holds.evict hc₀ (keep 1)
  rw [lookupBytes]
  cases hheavy : (cache.map (FileCache.evict (keep 0))).bind FileCache.heavy with
  | some m =>
    obtain ⟨c, hcache, hm⟩ := Option.bind_eq_some_iff.mp hheavy
    obtain ⟨hfound, hheld⟩ :=
      lookupWith_stored key readTs hf ((hc₀ c hcache).heavy m hm) h hlen hc₀ keep
    exact ⟨_, _, rfl, hfound, hheld⟩
  | none =>
    simp only [readMetadataCached]
    cases hheavy' : ((cache.map (FileCache.evict (keep 0))).map (FileCache.evict (keep 1))).bind FileCache.heavy with
    | some m =>
      obtain ⟨c, hcache, hm⟩ := Option.bind_eq_some_iff.mp hheavy'
      obtain ⟨hfound, hheld⟩ :=
        lookupWith_stored key readTs hf ((hc₁ c hcache).heavy m hm) h hlen hc₁ keep
      exact ⟨_, _, rfl, hfound, hheld⟩
    | none =>
      simp only [hread, hmd]
      obtain ⟨hfound, hheld⟩ := lookupWith_stored key readTs hf (Matches.refl (heavyOf f)) h hlen
        (FileCache.Holds.putHeavy hc₁) keep
      exact ⟨_, _, rfl, hfound, hheld⟩

/-- The sizes of a file below `2 ^ 31` bytes are ones that `ReadMetadata` copes with. -/
theorem condition_of_length (hf : f.WellFormed) (hlen : (fileBytes f).length < 2 ^ 31)
    (hmin : f.minKey.length < 2 ^ 16) (hmax : f.maxKey.length < 2 ^ 16) (hkeys : ∀ key ∈ f.firstKeys, key.length < 2 ^ 16)
    (hbits : f.bloom.bits ≤ max 64 (10 * f.entryCount)) (haborted : ∀ t ∈ f.abortedBatchTs, t < 2 ^ 31) :
    MetadataCondition f := by
  have hentries := entries_length_le f
  rw [← hf.entryCount] at hentries
  have hlength := length_fileBytes f
  have hcount : 8 * f.abortedBatchTs.length ≤ (filterArea f).length := by
    have hsum := @mul_sum_le_flatMap _ (leBytes 8) (fun _ => 1) 8
      (fun t => by rw [length_leBytes]) f.abortedBatchTs
    simp only [List.map_const', List.sum_replicate_nat, Nat.mul_one] at hsum
    rw [filterArea]
    simp only [List.length_append]
    omega
  refine ⟨by omega, hmin, hmax, hkeys, by omega, by omega, fun t ht => .inl ?_, .inl ?_, fun o ho => .inl ?_⟩
  · have hlt := haborted t ht
    omega
  · omega
  · have hle := blockOffset_le f o ho
    omega

theorem limits_of_length (hlen : (fileBytes f).length < 2 ^ 31) (hts : ∀ e ∈ f.entries, e.timestamp < 2 ^ 64) :
    Limits f := by
  have hentries := entries_length_le f
  refine ⟨by omega, fun b hb => ?_, hts⟩
  have hblock : (blockBytes b).length ≤ (f.blocks.flatMap blockBytes).length := by
    rw [List.flatMap_def]
    exact (List.sublist_flatten_of_mem (List.mem_map_of_mem hb)).length_le
  have hlength := length_fileBytes f
  rw [filterOffset] at hlength
  rw [blockBytes, List.length_append, List.length_cons, List.length_append] at hblock
  omega

end File

/-- `LookupKey` in a file of `Write` finds the version of the key that is visible and not aborted, whatever of the file is
cached and whatever is evicted meanwhile, and leaves the cache consistent. For so many entries the constructor of the filter
takes between 64 bits and ten for each, and at most 30 hash functions. -/
theorem lookupBytes_write (sizing : ℕ → ℕ × ℕ) (es : List KeyValuePair) (aborted : List ℕ) (filepath : String) (key : Bytes)
    (readTs : ℕ) (keep : ℕ → Option ℕ → Bool) (cache : Option FileCache)
    (hsizing : ∀ n, 64 ≤ (sizing n).1 ∧ (sizing n).1 ≤ max 64 (10 * n) ∧ (sizing n).2 ≤ 30)
    (hasc : SSTableFile.Ascending es) (hkeys : ∀ e ∈ es, e.key.length < 2 ^ 16) (hts : ∀ e ∈ es, e.timestamp < 2 ^ 64)
    (hlen : (fileBytes (SSTableFile.write sizing es aborted)).length < 2 ^ 31) (haborted : ∀ t ∈ aborted, t < 2 ^ 31)
    (hcache : ∀ c ∈ cache, c.Consistent (SSTableFile.write sizing es aborted)) :
    ∃ found cache', lookupBytes filepath (fileBytes (SSTableFile.write sizing es aborted)) key readTs keep cache =
        .returned (found, cache') ∧
      (∀ v, found = some v ↔ ∃ e ∈ es, e.key = key ∧ e.timestamp ≤ readTs ∧ e.timestamp ∉ aborted ∧ v = valueOut e) ∧
      ∀ c ∈ cache', c.Consistent (SSTableFile.write sizing es aborted) := by
  have hentries := SSTableFile.entries_write sizing es aborted
  have hf := SSTableFile.write_wellFormed sizing es aborted
  obtain ⟨hbits, hhash⟩ := ofKeys_sizing sizing (if es.isEmpty then 1 else es.length) (es.map KeyValuePair.key)
  obtain ⟨hmore, hless, hthirty⟩ := hsizing (if es.isEmpty then 1 else es.length)
  -- every key in the metadata is the one of an entry
  have hshort : ∀ k, (∃ e ∈ es, e.key = k) ∨ k = [] → k.length < 2 ^ 16 := by
    rintro k (⟨e, he, rfl⟩ | rfl)
    · exact hkeys e he
    · exact Nat.two_pow_pos 16
  have hfirstKeys : ∀ k ∈ (SSTableFile.write sizing es aborted).firstKeys, k.length < 2 ^ 16 := fun k hk => by
    obtain ⟨x, hx, rfl⟩ := SSTableFile.firstKeys_attained hf hk
    exact hshort x.key (.inl ⟨x, hentries ▸ hx, rfl⟩)
  have hends : (∃ e ∈ es, e.key = (es.head?.map KeyValuePair.key).getD []) ∧
      (∃ e ∈ es, e.key = (es.getLast?.map KeyValuePair.key).getD []) ∨ es = [] := by
    rcases eq_or_ne es [] with hnil | hne
    · exact .inr hnil
    · exact .inl ⟨SSTableFile.head_attained hne, SSTableFile.getLast_attained hne⟩
  have hcondition : MetadataCondition (SSTableFile.write sizing es aborted) := by
    refine condition_of_length hf hlen (hshort _ ?_) (hshort _ ?_) hfirstKeys ?_ haborted
    · exact hends.imp And.left fun hnil => by rw [hnil]; rfl
    · exact hends.imp And.right fun hnil => by rw [hnil]; rfl
    · show (BloomFilter.ofKeys sizing (if es.isEmpty then 1 else es.length) _).bits ≤ max 64 (10 * es.length)
      rw [hbits]
      cases es with
      | nil => exact hless
      | cons e es => exact hless
  have hread : ∀ filepath, readMetadata filepath (fileBytes (SSTableFile.write sizing es aborted)) = _ := fun filepath =>
    readMetadata_of_condition hf (by omega) (by show 0 < (BloomFilter.ofKeys _ _ _).bits; omega)
      (by show (BloomFilter.ofKeys _ _ _).hashCount < 2 ^ 32; omega) hcondition
      (fun t ht => Nat.lt_trans (haborted t ht) (by decide)) filepath
  have hbuf : ((SSTableFile.write sizing es aborted).firstKeys.flatMap firstKeyBytes).length < 2 ^ 32 := by
    have hlength := length_fileBytes (SSTableFile.write sizing es aborted)
    rw [filterArea] at hlength
    simp only [List.length_append] at hlength
    omega
  have hsearchable : Searchable (SSTableFile.write sizing es aborted) :=
    ⟨hf, hentries.symm ▸ hasc, fun x hx => BloomFilter.ofKeys_rejects _ _ _ _ (List.mem_map_of_mem (hentries ▸ hx)),
      hfirstKeys, hbuf⟩
  have hstored := storedAs_fileBytes hf (limits_of_length hlen (hentries.symm ▸ hts))
  obtain ⟨found, cache', hlookup, hfound, hheld⟩ := lookupBytes_stored key readTs hsearchable hstored
    (by omega) filepath (hread filepath) (heavy_metadataOf filepath) keep
    fun c hc => (FileCache.consistent_iff hread).mp (hcache c hc)
  rw [hentries] at hfound
  exact ⟨found, cache', hlookup, hfound, fun c hc => (FileCache.consistent_iff hread).mpr (hheld c hc)⟩

/-- Two entries, the second one a tombstone. -/
def twoEntries : List KeyValuePair := [⟨[1], [2], 3, false⟩, ⟨[5], [], 4, true⟩]

/-- A cache with the block of their file. -/
def blockCached : FileCache := ⟨none, fun i => if i = 0 then some (blockPayload twoEntries) else none⟩

theorem lookupBytes_twoEntries :
    ∃ found cache', lookupBytes "a.sst"
        (fileBytes (SSTableFile.write (fun n => (max 64 (10 * n), 22)) twoEntries [7])) [5] 9 (fun _ _ => true)
        (some blockCached) = .returned (found, cache') ∧
      (∀ v, found = some v ↔ ∃ e ∈ twoEntries, e.key = [5] ∧ e.timestamp ≤ 9 ∧ e.timestamp ∉ [7] ∧ v = valueOut e) ∧
      ∀ c ∈ cache', c.Consistent (SSTableFile.write (fun n => (max 64 (10 * n), 22)) twoEntries [7]) := by
  refine lookupBytes_write (fun n => (max 64 (10 * n), 22)) twoEntries [7] "a.sst" [5] 9 (fun _ _ => true)
    (some blockCached) (fun n => ⟨by omega, by omega, Nat.le_add_right 22 8⟩)
    (by rw [SSTableFile.Ascending]; decide) (by decide) (by decide) (by rw [length_fileBytes]; decide) (by decide) ?_
  intro c hc
  rw [← Option.some.inj hc]
  refine ⟨fun h hh => (by cases hh), fun i b hb => ?_⟩
  simp only [blockCached] at hb
  split at hb
  · next hi =>
    rw [hi, ← hb]
    rfl
  · cases hb

end Kvdb.SSTableBytes
