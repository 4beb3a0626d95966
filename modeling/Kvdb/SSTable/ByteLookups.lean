import Kvdb.SSTable.Writers
import Kvdb.SSTable.Agreement

/-! # Reading files of bytes through the shared cache

The engine's results are about files that are kept as their decoded blocks. Here calls to `SSTableCache` and `LookupKey`
are followed in both, with the same files on the disk, in any order and with any evictions. -/
namespace Kvdb.SSTableBytes
set_option autoImplicit false

open LittleEndian
open FileCache (Holds)

/-- `SSTableCache`: what it has for each `manifest_seq`. -/
def ByteCache : Type := ℕ → FileCache

namespace ByteCache

def empty : ByteCache := fun _ => ⟨none, fun _ => none⟩

def set (c : ByteCache) (seq : ℕ) (fc : FileCache) : ByteCache := fun s => if s = seq then fc else c s

end ByteCache

/-- What the engine does with the cache: a flush puts the blocks of its file, `ReadMetadata` and `LookupKey` read a file,
entries are evicted, and those of a file that is gone are dropped. `keep` is as for `lookupBytes`. -/
inductive CacheCall where
  | writeFromWalk (seq : ℕ)
  | readMetadata (seq : ℕ)
  | lookupKey (seq : ℕ) (key : Bytes) (readTs : ℕ) (keep : ℕ → Option ℕ → Bool)
  | evict (keep : ℕ → Option ℕ → Bool)
  | invalidate (seq : ℕ)

namespace CacheCall

/-- A call over the files as they are on the disk; `puts` are the blocks that `WriteFromWalk` puts. -/
def bytes (path : ℕ → String) (data : ℕ → Bytes) (puts : ℕ → List (ℕ × Bytes)) :
    CacheCall → ByteCache → Outcome (List (Option Bytes) × ByteCache)
  | .writeFromWalk seq, c =>
    .returned ([], c.set seq ((puts seq).foldl (fun fc p => fc.putBlock p.1 p.2) (c seq)))
  | .readMetadata seq, c =>
    match readMetadataCached (path seq) (data seq) (some (c seq)) with
    | .threw e => .threw e
    | .outside => .outside
    | .returned r => .returned ([], c.set seq (r.2.getD (c seq)))
  | .lookupKey seq key readTs keep, c =>
    match lookupBytes (path seq) (data seq) key readTs keep (some (c seq)) with
    | .threw e => .threw e
    | .outside => .outside
    | .returned r => .returned ([r.1], c.set seq (r.2.getD (c seq)))
  | .evict keep, c => .returned ([], fun s => (c s).evict (keep s))
  | .invalidate seq, c => .returned ([], c.set seq ⟨none, fun _ => none⟩)

/-- The same call over the files of the engine's results. -/
def model (files : ℕ → SSTableFile) : CacheCall → SSTableCache → Option (List (Option KeyValuePair) × SSTableCache)
  | .writeFromWalk seq, c => some ([], c.putBlocks seq 0 (files seq).blocks)
  | .readMetadata seq, c => (Kvdb.readMetadata (some (files seq)) seq (some c) seq).map fun r => ([], r.2.getD c)
  | .lookupKey seq key readTs _, c =>
    (Kvdb.lookupKey (some (files seq)) key readTs (some c) seq).map fun r => ([r.1], r.2.getD c)
  | .evict keep, c => some ([], c.evict (fun s => keep s none) fun s i => keep s (some i))
  | .invalidate seq, c => some ([], c.invalidate seq)

end CacheCall

/-- The answers of the lookups of a run, if none of its calls throws or reads outside a buffer. -/
def runBytes (path : ℕ → String) (data : ℕ → Bytes) (puts : ℕ → List (ℕ × Bytes)) :
    List CacheCall → ByteCache → Option (List (Option Bytes))
  | [], _ => some []
  | call :: calls, c =>
    match call.bytes path data puts c with
    | .returned r => (runBytes path data puts calls r.2).map (r.1 ++ ·)
    | _ => none

def runModel (files : ℕ → SSTableFile) : List CacheCall → SSTableCache → Option (List (Option KeyValuePair))
  | [], _ => some []
  | call :: calls, c => do
    let r ← call.model files c
    let answers ← runModel files calls r.2
    return r.1 ++ answers

/-! ## One file -/

/-- A file of less than `2 ^ 31` bytes with short keys, whose aborted timestamps are read back. For so many entries the
constructor of the filter takes between 64 bits and ten for each, and at most 30 hash functions. -/
structure Readable (f : SSTableFile) : Prop where
  wellFormed : f.WellFormed
  size : (fileBytes f).length < 2 ^ 31
  minKey : f.minKey.length < 2 ^ 16
  maxKey : f.maxKey.length < 2 ^ 16
  firstKeys : ∀ key ∈ f.firstKeys, key.length < 2 ^ 16
  bits : 0 < f.bloom.bits
  bitsMost : f.bloom.bits ≤ max 64 (10 * f.entryCount)
  hashCount : f.bloom.hashCount < 2 ^ 32
  aborted : ∀ t ∈ f.abortedBatchTs, t < 2 ^ 31
  timestamps : ∀ e ∈ f.entries, e.timestamp < 2 ^ 64

variable {f : SSTableFile} {key : Bytes} {readTs : ℕ}

theorem Readable.readMetadata (h : Readable f) (filepath : String) :
    readMetadata filepath (fileBytes f) = .returned (metadataOf filepath (fileBytes f) (fieldsOf f)) :=
  readMetadata_of_condition h.wellFormed (Nat.lt_trans h.size (by decide)) h.bits h.hashCount
    (condition_of_length h.wellFormed h.size h.minKey h.maxKey h.firstKeys h.bitsMost h.aborted)
    (fun t ht => Nat.lt_trans (h.aborted t ht) (by decide)) filepath

theorem Readable.storedAs (h : Readable f) : StoredAs f (fileBytes f) (f.blocks.map StoredBlock.ofPairs) :=
  storedAs_fileBytes h.wellFormed (limits_of_length h.size h.timestamps)

/-- The first keys fit the words that their places are kept in. -/
theorem Readable.keysSize (h : Readable f) : (f.firstKeys.flatMap firstKeyBytes).length < 2 ^ 32 := by
  have hlength := length_fileBytes f
  have hsize := h.size
  rw [filterArea] at hlength
  simp only [List.length_append] at hlength
  omega

/-- The bisection over the places of the first keys is that over the keys. -/
theorem lookupStart_heavyOf (h : Readable f) (hne : f.firstKeys ≠ []) (key : Bytes) :
    lookupStart (heavyOf f) key = lookupTarget f.firstKeys key := by
  have hlen : (keyOffsets (f.firstKeys.map fun key => key.length % 2 ^ 16)).length = f.firstKeys.length := by
    rw [keyOffsets, List.length_map, List.length_range, List.length_map]
  have hsome : (heavyOf f).firstKeyOffsets.isEmpty = false := by
    rw [List.isEmpty_eq_false_iff, ← List.length_pos_iff, heavyOf, hlen]
    exact List.length_pos_iff.mpr hne
  have hmap := @Bisect.bisect_map _ (fun fk : Bytes => decide (key < fk)) (fun lo hi => (lo + hi) / 2) _
    (firstKeyFrom (f.firstKeys.flatMap firstKeyBytes)) (keyOffsets (f.firstKeys.map fun key => key.length % 2 ^ 16))
    f.firstKeys.length 0 f.firstKeys.length
  rw [map_firstKeyFrom h.firstKeys h.keysSize] at hmap
  rw [lookupStart, if_neg (by rw [hsome]; exact Bool.false_ne_true), lookupTarget, hmap]
  simp only [heavyOf, hlen]
  rfl

theorem lookupTurns_heavyOf (h : Readable f) (hne : f.firstKeys ≠ []) (key : Bytes) :
    lookupTurns (heavyOf f) key = lookupBlocks f.firstKeys key := by
  have hlen : (heavyOf f).blockOffsets.length = f.firstKeys.length := by
    simp only [heavyOf, blockOffsets, SSTableFile.firstKeys, List.length_map, List.length_range]
  simp only [lookupTurns, lookupBlocks, lookupStart_heavyOf h hne, hlen]

/-- Without a cache the blocks are searched in turn. -/
theorem searchBlocks_eq (seq : ℕ) (idxs : List ℕ) : (searchBlocks (some f) f.heavy key readTs seq idxs none).1 =
    idxs.findSome? fun idx => f.blocks[idx]?.bind (scanBlock f.abortedBatchTs key readTs) := by
  induction idxs with
  | nil => rfl
  | cons idx idxs ih =>
    have hone : searchBlock (some f) f.heavy key readTs seq none idx =
        (f.blocks[idx]?.bind (scanBlock f.abortedBatchTs key readTs), none) := by
      have hlen : f.heavy.firstKeys.length = f.blocks.length := List.length_map _
      rw [searchBlock, hlen, fileBlock, Option.bind_some]
      by_cases hidx : f.blocks.length ≤ idx
      · rw [if_pos hidx, List.getElem?_eq_none hidx]
        rfl
      · rw [if_neg hidx, List.getElem?_eq_getElem (Nat.lt_of_not_le hidx)]
        rfl
    rw [searchBlocks, hone, List.findSome?_cons]
    cases f.blocks[idx]?.bind (scanBlock f.abortedBatchTs key readTs) with
    | none => exact ih
    | some e => rfl

/-- What is cached is what `ReadMetadata` returns for the file and what its blocks are. -/
structure Exact (f : SSTableFile) (c : FileCache) : Prop where
  heavy : ∀ m, c.heavy = some m → m = heavyOf f
  block : ∀ i b, c.block i = some b → f.blocks[i]?.map blockPayload = some b

namespace Exact

variable {c : FileCache}

theorem empty (f : SSTableFile) : Exact f ⟨none, fun _ => none⟩ :=
  ⟨fun _ h => absurd h (Option.some_ne_none _).symm, fun _ _ h => absurd h (Option.some_ne_none _).symm⟩

theorem evict (h : Exact f c) (keep : Option ℕ → Bool) : Exact f (c.evict keep) := by
  refine ⟨fun m hm => ?_, fun i b hb => ?_⟩
  · simp only [FileCache.evict] at hm
    split at hm
    · exact h.heavy m hm
    · cases hm
  · simp only [FileCache.evict] at hb
    split at hb
    · exact h.block i b hb
    · cases hb

theorem putHeavy (h : Exact f c) : Exact f (c.putHeavy (heavyOf f)) :=
  ⟨fun _ hm => (Option.some.inj hm).symm, h.block⟩

theorem putBlock (h : Exact f c) {idx : ℕ} {b : Bytes} (hb : f.blocks[idx]?.map blockPayload = some b) :
    Exact f (c.putBlock idx b) := by
  refine ⟨h.heavy, fun i b' hb' => ?_⟩
  simp only [FileCache.putBlock] at hb'
  split at hb'
  · next hi => rw [hi, hb, hb']
  · exact h.block i b' hb'

end Exact

theorem blockAt_fileBytes (h : Readable f) {i : ℕ} {b : List KeyValuePair} (hb : f.blocks[i]? = some b) :
    (blockOffsets f)[i]? = some (blockOffset f i) ∧ blockAt (fileBytes f) (blockOffset f i) = blockPayload b := by
  obtain ⟨rest, tail, hstored⟩ := h.storedAs.stored
  have hlt := (List.getElem?_eq_some_iff.mp hb).1
  have hoffset : (blockOffsets f)[i]? = some (blockOffset f i) := by
    rw [blockOffsets, List.getElem?_map, List.getElem?_range hlt]
    rfl
  refine ⟨hoffset, ?_⟩
  have hplace := hoffset
  rw [h.storedAs.offsets, List.getElem?_map, List.getElem?_range (by rwa [List.length_map]), Option.map_some,
    Option.some_inj] at hplace
  rw [← hplace, blockAt_stored hstored (Nat.lt_trans h.size (by decide)) (by rw [List.getElem?_map, hb]; rfl)]
  exact StoredBlock.ofPairs_payload b

variable {cache : Option FileCache}

/-- A block is searched as the model's, wherever it comes from. -/
theorem searchBytes_exact (h : Readable f) (key : Bytes) (readTs idx : ℕ) (hc : ∀ c ∈ cache, Exact f c) :
    (searchBytes (fileBytes f) (heavyOf f) key readTs idx cache).1 =
        (f.blocks[idx]?.bind (scanBlock f.abortedBatchTs key readTs)).map valueOut ∧
      ∀ c ∈ (searchBytes (fileBytes f) (heavyOf f) key readTs idx cache).2, Exact f c := by
  have hlimits := limits_of_length h.size h.timestamps
  rw [searchBytes]
  cases hb : f.blocks[idx]? with
  | none =>
    have hnone : (heavyOf f).blockOffsets[idx]? = none := by
      rw [List.getElem?_eq_none_iff] at hb ⊢
      rwa [heavyOf, blockOffsets, List.length_map, List.length_range]
    rw [hnone]
    exact ⟨rfl, hc⟩
  | some b =>
    have hmem := List.mem_of_getElem? hb
    have hscan : scanBytes f.abortedBatchTs key readTs (blockPayload b) =
        (scanBlock f.abortedBatchTs key readTs b).map valueOut := by
      have hfits := StoredBlock.fits_ofPairs (hlimits.size b hmem) fun x hx =>
        hlimits.timestamp x (List.mem_flatten.mpr ⟨b, hmem, hx⟩)
      rw [← StoredBlock.ofPairs_payload, scanBytes_stored hfits, StoredBlock.ofPairs_pairs]
    obtain ⟨hoffset, hread⟩ := blockAt_fileBytes h hb
    have hsome : (heavyOf f).blockOffsets[idx]? = some (blockOffset f idx) := hoffset
    rw [hsome, Option.bind_some]
    cases hcached : cache.bind fun c => c.block idx with
    | none =>
      simp only [hread]
      refine ⟨hscan, fun c hmap => ?_⟩
      obtain ⟨c₀, hc₀, rfl⟩ := Option.map_eq_some_iff.mp hmap
      exact (hc c₀ hc₀).putBlock (by rw [hb]; rfl)
    | some payload =>
      obtain ⟨c₀, hc₀, hblock⟩ := Option.bind_eq_some_iff.mp hcached
      have hpayload := (hc c₀ hc₀).block idx payload hblock
      rw [hb, Option.map_some, Option.some_inj] at hpayload
      subst hpayload
      exact ⟨hscan, hc⟩

theorem evict_exact (hc : ∀ c ∈ cache, Exact f c) (keep : Option ℕ → Bool) :
    ∀ c ∈ cache.map (FileCache.evict keep), Exact f c := by
  intro c hmap
  obtain ⟨c₀, hc₀, rfl⟩ := Option.map_eq_some_iff.mp hmap
  exact (hc c₀ hc₀).evict keep

theorem searchTurns_exact (h : Readable f) (key : Bytes) (readTs seq : ℕ) (keep : ℕ → Option ℕ → Bool) (n : ℕ)
    (idxs : List ℕ) (hc : ∀ c ∈ cache, Exact f c) :
    (searchTurns (fileBytes f) (heavyOf f) key readTs keep n idxs cache).1 =
        (searchBlocks (some f) f.heavy key readTs seq idxs none).1.map valueOut ∧
      ∀ c ∈ (searchTurns (fileBytes f) (heavyOf f) key readTs keep n idxs cache).2, Exact f c := by
  rw [searchBlocks_eq]
  induction idxs generalizing n cache with
  | nil => exact ⟨rfl, hc⟩
  | cons idx idxs ih =>
    obtain ⟨hfound, hexact⟩ := searchBytes_exact h key readTs idx (evict_exact hc (keep n))
    rw [searchTurns, List.findSome?_cons]
    cases hscan : f.blocks[idx]?.bind (scanBlock f.abortedBatchTs key readTs) with
    | some e =>
      rw [hscan] at hfound
      simp only [hfound, Option.map_some, Option.isSome_some, if_true]
      exact ⟨trivial, hexact⟩
    | none =>
      rw [hscan] at hfound
      simp only [hfound, Option.map_none, Option.isSome_none, Bool.false_eq_true, if_false]
      exact ih (n + 1) hexact

theorem lookupWith_exact (h : Readable f) (key : Bytes) (readTs seq : ℕ) (keep : ℕ → Option ℕ → Bool)
    (hc : ∀ c ∈ cache, Exact f c) :
    (lookupWith (fileBytes f) (heavyOf f) key readTs keep cache).1 =
        (lookupIn (some f) f.heavy key readTs seq none).1.map valueOut ∧
      ∀ c ∈ (lookupWith (fileBytes f) (heavyOf f) key readTs keep cache).2, Exact f c := by
  have hempty : (heavyOf f).firstKeyBuf.isEmpty = f.heavy.firstKeys.isEmpty := by
    have hkeys : f.heavy.firstKeys = f.firstKeys := rfl
    rw [hkeys, heavyOf]
    cases hfirst : f.firstKeys with
    | nil => rfl
    | cons k ks =>
      rw [List.flatMap_cons, firstKeyBytes]
      rfl
  have hrejects : (heavyOf f).bloom.rejects key = f.heavy.bloom.rejects key := RawBloom.rejects_ofFilter f.bloom key
  rw [lookupWith, lookupIn, hempty, hrejects]
  split
  · exact ⟨rfl, hc⟩
  · next hne =>
    split
    · exact ⟨rfl, hc⟩
    · have hfirst : f.firstKeys ≠ [] := fun hnil => hne (by rw [SSTableFile.heavy, hnil]; rfl)
      rw [lookupTurns_heavyOf h hfirst]
      exact searchTurns_exact h key readTs seq keep 2 _ hc

theorem readMetadataCached_exact (h : Readable f) (filepath : String) (hc : ∀ c ∈ cache, Exact f c) :
    ∃ md cache', readMetadataCached filepath (fileBytes f) cache = .returned (md, cache') ∧ md.heavy = heavyOf f ∧
      ∀ c ∈ cache', Exact f c := by
  rw [readMetadataCached]
  cases hheavy : cache.bind FileCache.heavy with
  | some m =>
    obtain ⟨c, hcache, hm⟩ := Option.bind_eq_some_iff.mp hheavy
    exact ⟨_, _, rfl, (hc c hcache).heavy m hm, hc⟩
  | none =>
    simp only [h.readMetadata filepath]
    refine ⟨_, _, rfl, heavy_metadataOf filepath, fun c hmap => ?_⟩
    obtain ⟨c₀, hc₀, rfl⟩ := Option.map_eq_some_iff.mp hmap
    rw [heavy_metadataOf filepath]
    exact (hc c₀ hc₀).putHeavy

/-- A lookup in the bytes returns the value of what the model's finds, whatever of the file is cached in either. -/
theorem lookupBytes_exact (h : Readable f) (filepath : String) (key : Bytes) (readTs seq : ℕ) (keep : ℕ → Option ℕ → Bool)
    (hc : ∀ c ∈ cache, Exact f c) : ∃ cache', lookupBytes filepath (fileBytes f) key readTs keep cache =
        .returned ((lookupIn (some f) f.heavy key readTs seq none).1.map valueOut, cache') ∧ ∀ c ∈ cache', Exact f c := by
  have hc₀ := evict_exact hc (keep 0)
  rw [lookupBytes]
  cases hheavy : (cache.map (FileCache.evict (keep 0))).bind FileCache.heavy with
  | some m =>
    obtain ⟨c, hcache, hm⟩ := Option.bind_eq_some_iff.mp hheavy
    obtain ⟨hfound, hexact⟩ := lookupWith_exact h key readTs seq keep hc₀
    refine ⟨_, ?_, hexact⟩
    rw [← hfound, (hc₀ c hcache).heavy m hm]
  | none =>
    obtain ⟨md, cache', hread, hmd, hc₁⟩ := readMetadataCached_exact h filepath (evict_exact hc₀ (keep 1))
    obtain ⟨hfound, hexact⟩ := lookupWith_exact h key readTs seq keep hc₁
    simp only [hread, hmd]
    exact ⟨_, by rw [← hfound], hexact⟩

/-! ## Runs -/

section Runs

variable {files : ℕ → SSTableFile} {puts : ℕ → List (ℕ × Bytes)}

/-- The blocks of the file, as `WriteFromWalk` puts them. -/
def PutsBlocks (files : ℕ → SSTableFile) (puts : ℕ → List (ℕ × Bytes)) : Prop :=
  ∀ seq, puts seq = (files seq).blocks.zipIdx.map fun p => (p.2 % 2 ^ 32, blockPayload p.1)

/-- Both caches hold what comes from the files. -/
structure Alike (files : ℕ → SSTableFile) (c : ByteCache) (m : SSTableCache) : Prop where
  exact : ∀ seq, Exact (files seq) (c seq)
  agrees : ∀ seq, m.Agrees seq (files seq)

theorem Exact.foldl_putBlock {fc : FileCache} (ps : List (ℕ × Bytes)) (h : Exact f fc)
    (hps : ∀ p ∈ ps, f.blocks[p.1]?.map blockPayload = some p.2) :
    Exact f (ps.foldl (fun fc p => fc.putBlock p.1 p.2) fc) := by
  induction ps generalizing fc with
  | nil => exact h
  | cons p ps ih =>
    exact ih (h.putBlock (hps p List.mem_cons_self)) fun q hq => hps q (List.mem_cons_of_mem p hq)

/-- Every block that a flush puts is the block of its file at that index. -/
theorem mem_puts (h : Readable f) {p : ℕ × Bytes}
    (hp : p ∈ f.blocks.zipIdx.map fun p => (p.2 % 2 ^ 32, blockPayload p.1)) :
    f.blocks[p.1]?.map blockPayload = some p.2 := by
  obtain ⟨⟨b, i⟩, hb, rfl⟩ := List.mem_map.mp hp
  have hget := List.mem_zipIdx_iff_getElem?.mp hb
  have hlt := (List.getElem?_eq_some_iff.mp hget).1
  have hcount := (limits_of_length h.size h.timestamps).count
  have hle := blocks_length_le h.wellFormed
  simp only at hget hlt ⊢
  rw [Nat.mod_eq_of_lt (by omega), hget]
  rfl

theorem exact_getD {fc : FileCache} (h : Exact f fc) (hc : ∀ c ∈ cache, Exact f c) : Exact f (cache.getD fc) := by
  cases cache with
  | none => exact h
  | some c => exact hc c rfl

theorem readMetadata_agrees {m : SSTableCache} {seq : ℕ} (h : m.Agrees seq f) :
    ∃ md m', Kvdb.readMetadata (some f) seq (some m) seq = some (md, some m') ∧ m'.Agrees seq f ∧
      SSTableCache.SameBut seq m m' := by
  rw [Kvdb.readMetadata, Option.bind_some]
  cases m.heavy seq with
  | some heavy => exact ⟨_, m, rfl, h, SSTableCache.SameBut.refl seq m⟩
  | none => exact ⟨_, _, rfl, h.putHeavy, SSTableCache.putHeavy_sameBut m seq f.heavy⟩

variable (hfiles : ∀ seq, Readable (files seq)) {c : ByteCache} {m : SSTableCache} (hcm : Alike files c m)

include hcm in
theorem Alike.set {seq : ℕ} {fc : FileCache} {m' : SSTableCache} (hfc : Exact (files seq) fc)
    (hm : m'.Agrees seq (files seq)) (hsame : SSTableCache.SameBut seq m m') : Alike files (c.set seq fc) m' := by
  refine ⟨fun s => ?_, fun s => ?_⟩
  · by_cases hs : s = seq
    · rw [ByteCache.set, if_pos hs, hs]
      exact hfc
    · rw [ByteCache.set, if_neg hs]
      exact hcm.exact s
  · by_cases hs : s = seq
    · rw [hs]
      exact hm
    · exact hsame.agrees hs (hcm.agrees s)

include hfiles hcm

/-- One call: both answer, and alike. -/
theorem CacheCall.alike (path : ℕ → String) (hputs : PutsBlocks files puts) (call : CacheCall) :
    ∃ answers c' m', call.model files m = some (answers, m') ∧
      call.bytes path (fun seq => fileBytes (files seq)) puts c = .returned (answers.map (Option.map valueOut), c') ∧
      Alike files c' m' := by
  have hcached : ∀ seq, ∀ fc ∈ some (c seq), Exact (files seq) fc := fun seq fc hfc =>
    Option.mem_some_iff.mp hfc ▸ hcm.exact seq
  cases call with
  | writeFromWalk seq =>
    refine ⟨[], _, _, rfl, rfl, hcm.set ?_ ((hcm.agrees seq).putBlocks 0 _ rfl) (SSTableCache.putBlocks_sameBut ..)⟩
    refine (hcm.exact seq).foldl_putBlock (puts seq) fun p hp => ?_
    rw [hputs seq] at hp
    exact mem_puts (hfiles seq) hp
  | readMetadata seq =>
    obtain ⟨md, cache', hread, -, hexact⟩ := readMetadataCached_exact (hfiles seq) (path seq) (hcached seq)
    obtain ⟨md', m', hmodel, hagrees, hsame⟩ := readMetadata_agrees (hcm.agrees seq)
    refine ⟨[], _, m', ?_, ?_, hcm.set (exact_getD (hcm.exact seq) hexact) hagrees hsame⟩
    · rw [CacheCall.model, hmodel]
      rfl
    · simp only [CacheCall.bytes, hread, List.map_nil]
  | lookupKey seq key readTs keep =>
    obtain ⟨cache', hbytes, hexact⟩ := lookupBytes_exact (hfiles seq) (path seq) key readTs seq keep (hcached seq)
    obtain ⟨m', hmodel, hagrees, hsame⟩ := lookupKey_agrees key readTs (hcm.agrees seq)
    refine ⟨[(lookupIn (some (files seq)) (files seq).heavy key readTs seq none).1], _, m', ?_, ?_,
      hcm.set (exact_getD (hcm.exact seq) hexact) hagrees hsame⟩
    · rw [CacheCall.model, hmodel]
      rfl
    · simp only [CacheCall.bytes, hbytes, List.map_cons, List.map_nil]
  | evict keep =>
    exact ⟨[], _, _, rfl, rfl, fun seq => (hcm.exact seq).evict (keep seq), fun seq => (hcm.agrees seq).evict _ _⟩
  | invalidate seq =>
    refine ⟨[], _, _, rfl, rfl, hcm.set (Exact.empty _) ((hcm.agrees seq).invalidate seq) ?_⟩
    exact ⟨fun s hs => if_neg hs, fun s hs i => if_neg hs⟩

theorem runBytes_alike (path : ℕ → String) (hputs : PutsBlocks files puts) (calls : List CacheCall) :
    ∃ answers, runModel files calls m = some answers ∧
      runBytes path (fun seq => fileBytes (files seq)) puts calls c = some (answers.map (Option.map valueOut)) := by
  induction calls generalizing c m with
  | nil => exact ⟨[], rfl, rfl⟩
  | cons call calls ih =>
    obtain ⟨answers, c', m', hmodel, hbytes, hcm'⟩ := call.alike hfiles hcm path hputs
    obtain ⟨more, hmore, hmore'⟩ := ih hcm'
    refine ⟨answers ++ more, ?_, ?_⟩
    · simp only [runModel, hmodel, hmore, Option.bind_eq_bind, Option.bind_some]
      rfl
    · simp only [runBytes, hbytes, hmore', Option.map_some, List.map_append]

end Runs

/-- Every run over the bytes of the files and a cache of bytes answers as the run over the decoded files: no call throws or
reads outside of its buffer, and each lookup returns the value of the version that the model finds, an empty one for a
tombstone, in whatever order files are written, read, evicted and dropped. -/
theorem runBytes_refines (path : ℕ → String) (files : ℕ → SSTableFile) (puts : ℕ → List (ℕ × Bytes))
    (hfiles : ∀ seq, Readable (files seq)) (hputs : PutsBlocks files puts) (calls : List CacheCall) :
    ∃ answers, runModel files calls SSTableCache.empty = some answers ∧
      runBytes path (fun seq => fileBytes (files seq)) puts calls ByteCache.empty =
        some (answers.map (Option.map valueOut)) := by
  refine runBytes_alike hfiles ⟨fun seq => Exact.empty _, fun seq => ?_⟩ path hputs calls
  exact ⟨fun _ h => absurd h (Option.some_ne_none _).symm, fun _ _ h => absurd h (Option.some_ne_none _).symm⟩

/-- Two versions of one key, and a tombstone. -/
def flushedWalk : List KeyValuePair := [⟨[1], [2], 3, false⟩, ⟨[1], [5], 4, false⟩, ⟨[2], [], 5, true⟩]

def flushedFile : SSTableFile := SSTableFile.writeFromWalk (fun _ => (64, 1)) flushedWalk 3 []

theorem flushedFile_readable : Readable flushedFile :=
  ⟨SSTableFile.writeFromWalk_wellFormed .., by decide +kernel, by decide +kernel, by decide +kernel, by decide +kernel,
    by decide +kernel, by decide +kernel, by decide +kernel, by decide +kernel, by decide +kernel⟩

theorem flushedFile_puts : (Writers.writeFromWalk (fun _ => (64, 1)) flushedWalk 3 none).2 =
    flushedFile.blocks.zipIdx.map fun p => (p.2 % 2 ^ 32, blockPayload p.1) := by
  decide +kernel

/-- Reads of it with all evictions and with none. -/
def flushedCalls : List CacheCall :=
  [.writeFromWalk 1, .lookupKey 1 [1] 9 fun _ _ => true, .invalidate 1, .lookupKey 1 [2] 9 fun _ _ => false]

theorem runBytes_refines_flushed : ∃ answers,
    runModel (fun _ => flushedFile) flushedCalls SSTableCache.empty = some answers ∧
      runBytes (fun _ => "") (fun _ => fileBytes flushedFile)
        (fun _ => (Writers.writeFromWalk (fun _ => (64, 1)) flushedWalk 3 none).2) flushedCalls ByteCache.empty =
          some (answers.map (Option.map valueOut)) :=
  runBytes_refines _ (fun _ => flushedFile) _ (fun _ => flushedFile_readable) (fun _ => flushedFile_puts) flushedCalls

end Kvdb.SSTableBytes
