import Kvdb.SSTable.AbortedBlocks

/-! # Reading a file while some of its blocks are cached

A block that comes from the cache does not move the file stream. The stream therefore stands at the block whose number
is the number of blocks that were not cached so far, and a block that is not cached is read right only if the file
has the same block at the two places. Which blocks are cached is decided by the cache at first and by what it evicts
before the call that reads the block. -/
namespace Kvdb
set_option autoImplicit false

namespace SSTableFile

/-- The files that `Write` and `WriteFromWalk` produce. -/
def Written (f : SSTableFile) : Prop :=
  (∃ sizing es aborted, f = write sizing es aborted) ∨ ∃ sizing walk n aborted, f = writeFromWalk sizing walk n aborted

/-- The entries are counted and packed into blocks as `BlockBuilder` does it. -/
structure Packed (f : SSTableFile) : Prop where
  wellFormed : f.WellFormed
  blocks : f.blocks = packBlocks f.entries

section Packed

variable {f : SSTableFile} (hf : f.Packed)

include hf

theorem Packed.fits : ∀ b ∈ f.blocks, 2 ≤ b.length → 4 + Pack.total wireSize b ≤ Config.sstableBlockSize := by
  rw [hf.blocks]
  exact Pack.pack_fits f.entries

theorem Packed.full : f.blocks.IsChain (Pack.Full wireSize Config.sstableBlockSize 4) := by
  rw [hf.blocks]
  exact Pack.pack_full f.entries

end Packed

theorem packed_of_blocks {f : SSTableFile} (hf : f.WellFormed) {es : List KeyValuePair} (h : f.blocks = packBlocks es) :
    f.Packed := by
  have hentries : f.entries = es := by rw [entries, h, packBlocks, Pack.pack_flatten]
  exact ⟨hf, by rw [hentries, h]⟩

theorem Written.packed {f : SSTableFile} (h : f.Written) : f.Packed := by
  rcases h with ⟨sizing, es, aborted, rfl⟩ | ⟨sizing, walk, n, aborted, rfl⟩
  · exact packed_of_blocks (write_wellFormed _ _ _) rfl
  · exact packed_of_blocks (writeFromWalk_wellFormed _ _ _ _) rfl

end SSTableFile

namespace SSTableIterator

/-- How an iterator uses the cache: the `manifest_seq` of its file, whether it puts there what it reads, and which
blocks `keep n` leaves in the cache before call `n`. The constructor is call 0, the calls of `Next` follow. -/
structure Access where
  seq : ℕ
  populate : Bool
  keep : ℕ → ℕ → ℕ → Bool

/-- The cache at call `n`. -/
def Access.evict (a : Access) (n : ℕ) (cache : SSTableCache) : SSTableCache := cache.evict (fun _ => true) (a.keep n)

/-- What `ReadNextBlock` puts into the cache: a block that it has read from the file. -/
def put (a : Access) (blocks : List (List KeyValuePair)) (cache : SSTableCache) (it : SSTableIterator) :
    Option (ℕ × List KeyValuePair) :=
  if it.totalEntries ≤ it.readEntries then none
  else
    match cachedBlocks cache a.seq it.curBlock with
    | some _ => none
    | none => if a.populate && decide (a.seq ≠ 0) then some (it.curBlock, blocks.getD it.filePos []) else none

/-- What `Next` puts into the cache. -/
def nextPut (a : Access) (blocks : List (List KeyValuePair)) (cache : SSTableCache) (it : SSTableIterator) :
    Option (ℕ × List KeyValuePair) :=
  let it' := skipAborted [] it (it.pos + 1)
  if it.block.length ≤ it'.pos then put a blocks cache it' else none

def fill (a : Access) (cache : SSTableCache) : Option (ℕ × List KeyValuePair) → SSTableCache
  | none => cache
  | some (i, b) => cache.putBlock a.seq i b

/-- What a consumer sees from call `n` on, and what is put into the cache meanwhile. -/
def reads (a : Access) (blocks : List (List KeyValuePair)) :
    ℕ → ℕ → SSTableIterator → SSTableCache → List KeyValuePair × List (ℕ × List KeyValuePair)
  | 0, _, _, _ => ([], [])
  | fuel + 1, n, it, cache =>
    if it.valid then
      let cache' := a.evict n cache
      let filled := nextPut a blocks cache' it
      let r := reads a blocks fuel (n + 1) (next blocks (cachedBlocks cache' a.seq) [] it) (fill a cache' filled)
      (it.current :: r.1, filled.toList ++ r.2)
    else ([], [])

/-- `ReadNextBlock` as call `n`, and what follows. -/
def load (a : Access) (blocks : List (List KeyValuePair)) (fuel n : ℕ) (it : SSTableIterator) (cache : SSTableCache) :
    List KeyValuePair × List (ℕ × List KeyValuePair) :=
  let cache' := a.evict n cache
  let filled := put a blocks cache' it
  let r := reads a blocks fuel (n + 1) (readNextBlock blocks (cachedBlocks cache' a.seq) [] it) (fill a cache' filled)
  (r.1, filled.toList ++ r.2)

/-- A file is opened and read to its end. -/
def readFile (a : Access) (f : SSTableFile) (cache : SSTableCache) : List KeyValuePair × List (ℕ × List KeyValuePair) :=
  load a f.blocks (2 * f.entryCount + 1) 0 ⟨[], 0, f.entryCount, 0, ⟨[], [], 0, false⟩, 0, 0⟩ cache

/-- The entries of the file are yielded, and every block that is put into the cache is the block of that number. -/
def Exact (a : Access) (f : SSTableFile) (cache : SSTableCache) : Prop :=
  (readFile a f cache).1 = f.entries ∧ ∀ p ∈ (readFile a f cache).2, f.blocks[p.1]? = some p.2

/-! ## Which blocks are read from the file -/

section Condition

variable (a : Access) (f : SSTableFile) (cache : SSTableCache)

/-- The cached block `i` at call `n`, if only evictions change the cache. -/
def present : ℕ → ℕ → Option (List KeyValuePair)
  | 0, i => if a.keep 0 a.seq i then cachedBlocks cache a.seq i else none
  | n + 1, i => if a.keep (n + 1) a.seq i then present n i else none

/-- Block `i` is cached at the call that reads it, which comes after those for the entries before it. -/
def hit (i : ℕ) : Bool := (present a cache (f.blocks.take i).flatten.length i).isSome

/-- The number of blocks before block `i` that are read from the file. -/
def missed : ℕ → ℕ
  | 0 => 0
  | i + 1 => if hit a f cache i then missed i else missed i + 1

/-- A block that is not cached when it is read stands also where the file stream stands. -/
def InStep : Prop := ∀ i < f.blocks.length, hit a f cache i = false → f.blocks[missed a f cache i]? = f.blocks[i]?

instance decidableInStep : Decidable (InStep a f cache) :=
  inferInstanceAs (Decidable (∀ i < f.blocks.length, hit a f cache i = false →
    f.blocks[missed a f cache i]? = f.blocks[i]?))

theorem missed_le (i : ℕ) : missed a f cache i ≤ i := by
  induction i with
  | zero => exact Nat.le_refl 0
  | succ i ih =>
    unfold missed
    split
    · exact Nat.le_succ_of_le ih
    · exact Nat.succ_le_succ ih

end Condition

variable {a : Access} {f : SSTableFile} {cache₀ cache : SSTableCache} {it : SSTableIterator} {n c p read : ℕ}
  {b : List KeyValuePair}

/-! ## Reading one block -/

/-- Of the blocks from `c` on the cache holds at call `n` what the evictions have left. -/
def Kept (a : Access) (cache₀ : SSTableCache) (n c : ℕ) (cache : SSTableCache) : Prop :=
  ∀ i, c ≤ i → cachedBlocks (a.evict n cache) a.seq i = present a cache₀ n i

theorem cachedBlocks_evict (cache : SSTableCache) (n i : ℕ) :
    cachedBlocks (a.evict n cache) a.seq i = if a.keep n a.seq i then cachedBlocks cache a.seq i else none := by
  unfold cachedBlocks Access.evict SSTableCache.evict
  by_cases hseq : a.seq = 0
  · simp [hseq]
  · simp [hseq]

theorem kept_zero (a : Access) (cache₀ : SSTableCache) (c : ℕ) : Kept a cache₀ 0 c cache₀ :=
  fun i _ => cachedBlocks_evict cache₀ 0 i

/-- A block that is put under a smaller number leaves the later ones as they are. -/
theorem Kept.succ (h : Kept a cache₀ n c cache) {c' : ℕ} (hc : c ≤ c') {filled : Option (ℕ × List KeyValuePair)}
    (hfilled : ∀ q ∈ filled, q.1 < c') : Kept a cache₀ (n + 1) c' (fill a (a.evict n cache) filled) := by
  intro i hi
  have hsame : cachedBlocks (fill a (a.evict n cache) filled) a.seq i = present a cache₀ n i := by
    rw [← h i (hc.trans hi)]
    cases filled with
    | none => rfl
    | some q =>
      have hne : i ≠ q.1 := by
        have := hfilled q rfl
        omega
      simp [cachedBlocks, fill, SSTableCache.putBlock, hne]
  rw [cachedBlocks_evict, hsame, present]

/-- The iterator has `ReadNextBlock` for block `c` in front of it, as call `n`; the file stream stands at block `p`. -/
structure Loading (f : SSTableFile) (a : Access) (cache₀ : SSTableCache) (n c p read : ℕ) (it : SSTableIterator)
    (cache : SSTableCache) : Prop where
  total : it.totalEntries = f.entryCount
  readEntries : it.readEntries = read
  curBlock : it.curBlock = c
  filePos : it.filePos = p
  kept : Kept a cache₀ n c cache

theorem next_within (cached : ℕ → Option (List KeyValuePair)) {e : KeyValuePair}
    (h : it.block[it.pos + 1]? = some e) :
    next f.blocks cached [] it = { it with pos := it.pos + 1, current := e } ∧
      ∀ cache, nextPut a f.blocks cache it = none := by
  have hlt := (List.getElem?_eq_some_iff.mp h).1
  unfold next nextPut
  simp only [skipAborted_nil it _ h]
  rw [if_neg (by omega)]
  exact ⟨rfl, fun _ => if_neg (by omega)⟩

theorem next_end (cached : ℕ → Option (List KeyValuePair)) (h : it.block.length ≤ it.pos + 1) :
    ∃ current, next f.blocks cached [] it =
        readNextBlock f.blocks cached [] { it with pos := it.pos + 1, current := current } ∧
      ∀ cache, nextPut a f.blocks cache it = put a f.blocks cache { it with pos := it.pos + 1, current := current } := by
  obtain ⟨current, hskip⟩ := skipAborted_nil_end it (it.pos + 1) h
  refine ⟨current, ?_⟩
  unfold next nextPut
  simp only [hskip]
  exact ⟨if_pos h, fun _ => if_pos h⟩

theorem valid_of_pos {e : KeyValuePair} (h : it.block[it.pos]? = some e) : it.valid = true := by
  have hlt := (List.getElem?_eq_some_iff.mp h).1
  rw [valid, decide_eq_true hlt, Bool.true_or]

/-- The rest of a block is yielded, then the next block is read. -/
theorem reads_block (k : ℕ) (it : SSTableIterator) (hpos : it.block[it.pos]? = some it.current) (hk : it.pos + k + 1 = it.block.length)
    (h : Loading f a cache₀ n c p read it cache) :
    ∃ it' cache', Loading f a cache₀ (n + k) c p read it' cache' ∧ ∀ fuel,
      reads a f.blocks (k + 1 + fuel) n it cache =
        (it.block.drop it.pos ++ (load a f.blocks fuel (n + k) it' cache').1, (load a f.blocks fuel (n + k) it' cache').2) := by
  have hdrop : it.block.drop it.pos = it.current :: it.block.drop (it.pos + 1) := by
    obtain ⟨hlt, hget⟩ := List.getElem?_eq_some_iff.mp hpos
    rw [List.drop_eq_getElem_cons hlt, hget]
  induction k generalizing n it cache with
  | zero =>
    obtain ⟨current, hnext, hput⟩ := next_end (f := f) (a := a) (cachedBlocks (a.evict n cache) a.seq)
      (show it.block.length ≤ it.pos + 1 by omega)
    refine ⟨{ it with pos := it.pos + 1, current := current }, cache,
      ⟨h.total, h.readEntries, h.curBlock, h.filePos, h.kept⟩, ?_⟩
    intro fuel
    rw [show 0 + 1 + fuel = fuel + 1 by omega, reads, if_pos (valid_of_pos hpos), hdrop,
      List.drop_eq_nil_of_le (by omega)]
    simp only [hnext, hput, load, Nat.add_zero, List.singleton_append]
  | succ k ih =>
    have hlt : it.pos + 1 < it.block.length := by omega
    have hget : it.block[it.pos + 1]? = some it.block[it.pos + 1] := List.getElem?_eq_getElem hlt
    obtain ⟨hnext, hput⟩ := next_within (f := f) (a := a) (cachedBlocks (a.evict n cache) a.seq) hget
    have hstep : Loading f a cache₀ (n + 1) c p read { it with pos := it.pos + 1, current := it.block[it.pos + 1] }
        (fill a (a.evict n cache) none) :=
      ⟨h.total, h.readEntries, h.curBlock, h.filePos, h.kept.succ (Nat.le_refl c) fun _ hq => (by cases hq)⟩
    obtain ⟨it', cache', hload, hreads⟩ := ih { it with pos := it.pos + 1, current := it.block[it.pos + 1] } hget
      (by show it.pos + 1 + k + 1 = it.block.length; omega) hstep (List.drop_eq_getElem_cons hlt)
    rw [show n + 1 + k = n + (k + 1) by omega] at hload hreads
    refine ⟨it', cache', hload, ?_⟩
    intro fuel
    have hreads := hreads fuel
    rw [show k + 1 + 1 + fuel = k + 1 + fuel + 1 by omega, reads, if_pos (valid_of_pos hpos), hdrop]
    simp only [hnext, hput, hreads, Option.toList_none, List.nil_append, List.cons_append]

/-- With too little fuel for the rest of the block all of it is used. -/
theorem reads_short (fuel : ℕ) (hpos : fuel = 0 ∨ it.block[it.pos]? = some it.current)
    (hfuel : it.pos + fuel ≤ it.block.length) : (reads a f.blocks fuel n it cache).1.length = fuel := by
  induction fuel generalizing n it cache with
  | zero => rfl
  | succ fuel ih =>
    have hpos : it.block[it.pos]? = some it.current := hpos.resolve_left (Nat.succ_ne_zero fuel)
    rw [reads, if_pos (valid_of_pos hpos)]
    simp only [List.length_cons]
    congr 1
    cases fuel with
    | zero => rfl
    | succ fuel =>
      have hlt : it.pos + 1 < it.block.length := by omega
      have hget : it.block[it.pos + 1]? = some it.block[it.pos + 1] := List.getElem?_eq_getElem hlt
      obtain ⟨hnext, -⟩ := next_within (f := f) (a := a) (cachedBlocks (a.evict n cache) a.seq) hget
      rw [hnext]
      refine ih (.inr hget) ?_
      show it.pos + 1 + (fuel + 1) ≤ it.block.length
      omega

/-- What `ReadNextBlock` takes for block `c`, where the stream stands then, and what is put into the cache. -/
inductive Fills (a : Access) (f : SSTableFile) (cache₀ : SSTableCache) (n c p : ℕ) :
    List KeyValuePair → ℕ → List (ℕ × List KeyValuePair) → Prop
  | cached {b : List KeyValuePair} (h : present a cache₀ n c = some b) : Fills a f cache₀ n c p b p []
  | file {b : List KeyValuePair} (h : present a cache₀ n c = none) (hb : f.blocks[p]? = some b) :
      Fills a f cache₀ n c p b (p + 1) (if a.populate && decide (a.seq ≠ 0) then [(c, b)] else [])

/-- `ReadNextBlock` as long as not all entries are counted. -/
theorem Loading.fills (h : Loading f a cache₀ n c p read it cache) (hread : read < f.entryCount) {p' : ℕ}
    {puts : List (ℕ × List KeyValuePair)} (hfills : Fills a f cache₀ n c p b p' puts) :
    put a f.blocks (a.evict n cache) it = puts.head? ∧ puts.length ≤ 1 ∧ (∀ q ∈ puts, q.1 = c) ∧
      ∃ it', readNextBlock f.blocks (cachedBlocks (a.evict n cache) a.seq) [] it = skipAborted [] it' 0 ∧
        it'.block = b ∧ it'.totalEntries = f.entryCount ∧ it'.readEntries = read + b.length ∧
        it'.curBlock = c + 1 ∧ it'.filePos = p' := by
  have hkept := h.kept c (Nat.le_refl c)
  have hopen : ¬ it.totalEntries ≤ it.readEntries := by
    rw [h.total, h.readEntries]
    omega
  unfold put SSTableIterator.readNextBlock
  rw [if_neg hopen, if_neg hopen, h.curBlock, hkept]
  cases hfills with
  | cached hb =>
    rw [hb]
    exact ⟨rfl, Nat.zero_le 1, fun _ hq => (by cases hq), _, rfl, rfl, h.total, by rw [h.readEntries], rfl, h.filePos⟩
  | file hnone hb =>
    have hget : f.blocks.getD it.filePos [] = b := by
      rw [h.filePos, List.getD_eq_getElem?_getD, hb]
      rfl
    rw [hnone]
    simp only [hget]
    refine ⟨?_, ?_, ?_, _, rfl, rfl, h.total, by rw [h.readEntries], rfl, by rw [h.filePos]⟩
    · split
      · rfl
      · rfl
    · split
      · exact Nat.le_refl 1
      · exact Nat.zero_le 1
    · intro q hq
      split at hq
      · rw [List.mem_singleton.mp hq]
      · cases hq

/-- The block is yielded, and the next one is in front. -/
theorem Loading.load (h : Loading f a cache₀ n c p read it cache) (hread : read < f.entryCount) (hb : b ≠ [])
    {p' : ℕ} {puts : List (ℕ × List KeyValuePair)} (hfills : Fills a f cache₀ n c p b p' puts) :
    (∃ it' cache', Loading f a cache₀ (n + b.length) (c + 1) p' (read + b.length) it' cache' ∧ ∀ fuel,
      load a f.blocks (b.length + fuel) n it cache =
        (b ++ (load a f.blocks fuel (n + b.length) it' cache').1,
          puts ++ (load a f.blocks fuel (n + b.length) it' cache').2)) ∧
      ∀ fuel ≤ b.length, (load a f.blocks fuel n it cache).1.length = fuel := by
  obtain ⟨hput, hone, hindex, it', hnext, hblock, htotal, hreadEntries, hcur, hfile⟩ := h.fills hread hfills
  obtain ⟨e, es, rfl⟩ := List.exists_cons_of_ne_nil hb
  have hputs : puts.head?.toList = puts := by
    cases puts with
    | nil => rfl
    | cons q qs =>
      have hnil : qs = [] := List.length_eq_zero_iff.mp (by simpa using hone)
      rw [hnil]
      rfl
  have hskip : skipAborted [] it' 0 = { it' with pos := 0, current := e } :=
    skipAborted_nil it' 0 (by rw [hblock]; rfl)
  have hloading : Loading f a cache₀ (n + 1) (c + 1) p' (read + (e :: es).length) { it' with pos := 0, current := e }
      (fill a (a.evict n cache) puts.head?) := by
    refine ⟨htotal, hreadEntries, hcur, hfile, h.kept.succ (Nat.le_succ c) ?_⟩
    intro q hq
    rw [hindex q (List.mem_of_head? hq)]
    exact Nat.lt_succ_self c
  have hfirst : it'.block[0]? = some e := by
    rw [hblock]
    rfl
  refine ⟨?_, ?_⟩
  · obtain ⟨it'', cache'', hload, hreads⟩ := reads_block es.length { it' with pos := 0, current := e }
      hfirst (by show 0 + es.length + 1 = it'.block.length; rw [hblock, List.length_cons, Nat.zero_add]) hloading
    rw [show n + 1 + es.length = n + (e :: es).length by rw [List.length_cons]; omega] at hload hreads
    refine ⟨it'', cache'', hload, ?_⟩
    intro fuel
    rw [SSTableIterator.load]
    simp only [hnext, hskip, hput, hputs]
    rw [show (e :: es).length + fuel = es.length + 1 + fuel from rfl, hreads fuel]
    simp only [hblock, List.drop_zero]
  · intro fuel hfuel
    rw [SSTableIterator.load]
    simp only [hnext, hskip, hput]
    refine reads_short fuel (.inr hfirst) ?_
    show 0 + fuel ≤ it'.block.length
    rw [hblock]
    omega

theorem reads_of_not_valid (fuel : ℕ) (h : it.valid = false) : reads a f.blocks fuel n it cache = ([], []) := by
  cases fuel with
  | zero => rfl
  | succ fuel => rw [reads, if_neg (by simp [h])]

/-- When all entries are counted nothing more is read. -/
theorem Loading.ended (h : Loading f a cache₀ n c p read it cache) (hread : f.entryCount ≤ read) (fuel : ℕ) :
    SSTableIterator.load a f.blocks fuel n it cache = ([], []) := by
  have hdone : it.totalEntries ≤ it.readEntries := by
    rw [h.total, h.readEntries]
    exact hread
  have hput : put a f.blocks (a.evict n cache) it = none := if_pos hdone
  have hnext : readNextBlock f.blocks (cachedBlocks (a.evict n cache) a.seq) [] it = { it with pos := 0, block := [] } :=
    if_pos hdone
  rw [SSTableIterator.load]
  simp only [hput, hnext]
  rw [reads_of_not_valid fuel (by simp [valid])]
  rfl

/-! ## In step -/

/-- The cached blocks of the file are its own. -/
def Consistent (seq : ℕ) (f : SSTableFile) (cache : SSTableCache) : Prop :=
  ∀ i b, cache.blocks seq i = some b → f.blocks[i]? = some b

theorem cached_of_present {i : ℕ} (h : present a cache₀ n i = some b) : cache₀.blocks a.seq i = some b := by
  induction n with
  | zero =>
    unfold present cachedBlocks at h
    split at h
    · split at h
      · cases h
      · exact h
    · cases h
  | succ n ih =>
    unfold present at h
    split at h
    · exact ih h
    · cases h

theorem present_eq (hc : Consistent a.seq f cache₀) {i : ℕ} (h : present a cache₀ n i = some b) :
    f.blocks[i]? = some b :=
  hc i b (cached_of_present h)

/-- The entries before block `i`. -/
def before (f : SSTableFile) (i : ℕ) : ℕ := (f.blocks.take i).flatten.length

theorem before_succ (h : f.blocks[c]? = some b) : before f (c + 1) = before f c + b.length := by
  rw [before, List.take_add_one, h, List.flatten_append, List.length_append]
  simp [before]

theorem before_add (hf : f.WellFormed) (c : ℕ) : before f c + (f.blocks.drop c).flatten.length = f.entryCount := by
  rw [before, ← List.length_append, ← List.flatten_append, List.take_append_drop, hf.entryCount]
  rfl

theorem drop_eq_cons (h : f.blocks[c]? = some b) : f.blocks.drop c = b :: f.blocks.drop (c + 1) := by
  obtain ⟨hlt, hget⟩ := List.getElem?_eq_some_iff.mp h
  rw [List.drop_eq_getElem_cons hlt, hget]

theorem before_lt (hf : f.WellFormed) (h : f.blocks[c]? = some b) : before f c < f.entryCount := by
  have hlen := before_add hf c
  have hb := List.length_pos_iff.mpr (hf.blocks b (List.mem_of_getElem? h))
  rw [drop_eq_cons h, List.flatten_cons, List.length_append] at hlen
  omega

/-- A block that is cached, or stands where the stream stands, is taken for itself. -/
theorem fills_in_step (hc : Consistent a.seq f cache₀) (hb : f.blocks[c]? = some b)
    (hin : hit a f cache₀ c = false → f.blocks[missed a f cache₀ c]? = f.blocks[c]?) :
    ∃ puts, Fills a f cache₀ (before f c) c (missed a f cache₀ c) b (missed a f cache₀ (c + 1)) puts ∧
      ∀ q ∈ puts, f.blocks[q.1]? = some q.2 := by
  rw [show missed a f cache₀ (c + 1) =
    if hit a f cache₀ c then missed a f cache₀ c else missed a f cache₀ c + 1 from rfl]
  cases hpresent : present a cache₀ (before f c) c with
  | some b' =>
    have hhit : hit a f cache₀ c = true := by
      rw [hit, ← before, hpresent]
      rfl
    have hbb : b' = b := Option.some.inj ((present_eq hc hpresent).symm.trans hb)
    rw [hbb] at hpresent
    rw [if_pos hhit]
    exact ⟨[], .cached hpresent, fun _ hq => (by cases hq)⟩
  | none =>
    have hmiss : hit a f cache₀ c = false := by
      rw [hit, ← before, hpresent]
      rfl
    rw [if_neg (by simp [hmiss])]
    refine ⟨_, .file hpresent ((hin hmiss).trans hb), ?_⟩
    intro q hq
    split at hq
    · rw [List.mem_singleton.mp hq]
      exact hb
    · cases hq

/-- From block `c` on everything is yielded and put in its place. -/
theorem Loading.in_step (hf : f.WellFormed) (hc : Consistent a.seq f cache₀) (hin : InStep a f cache₀) (k : ℕ)
    (hk : c + k = f.blocks.length)
    (h : Loading f a cache₀ (before f c) c (missed a f cache₀ c) (before f c) it cache) {fuel : ℕ}
    (hfuel : (f.blocks.drop c).flatten.length ≤ fuel) :
    (SSTableIterator.load a f.blocks fuel (before f c) it cache).1 = (f.blocks.drop c).flatten ∧
      ∀ q ∈ (SSTableIterator.load a f.blocks fuel (before f c) it cache).2, f.blocks[q.1]? = some q.2 := by
  induction k generalizing c it cache fuel with
  | zero =>
    have hdrop : f.blocks.drop c = [] := List.drop_eq_nil_of_le (by omega)
    have hall := before_add hf c
    rw [hdrop, List.flatten_nil, List.length_nil] at hall
    rw [h.ended (by omega) fuel, hdrop]
    exact ⟨rfl, fun _ hq => (by cases hq)⟩
  | succ k ih =>
    have hlt : c < f.blocks.length := by omega
    have hb : f.blocks[c]? = some f.blocks[c] := List.getElem?_eq_getElem hlt
    have hne := hf.blocks f.blocks[c] (List.getElem_mem hlt)
    obtain ⟨puts, hfills, hputs⟩ := fills_in_step hc hb (hin c hlt)
    obtain ⟨⟨it', cache', hnext, hload⟩, -⟩ := h.load (before_lt hf hb) hne hfills
    rw [← before_succ hb] at hnext hload
    rw [drop_eq_cons hb, List.flatten_cons, List.length_append] at hfuel
    obtain ⟨rest, rfl⟩ := Nat.exists_eq_add_of_le (Nat.le_of_add_right_le hfuel)
    obtain ⟨hyields, hrest⟩ := ih (by omega) hnext (Nat.le_of_add_le_add_left hfuel)
    rw [hload, drop_eq_cons hb, List.flatten_cons, hyields]
    refine ⟨rfl, ?_⟩
    intro q hq
    rcases List.mem_append.mp hq with hq | hq
    · exact hputs q hq
    · exact hrest q hq

/-! ## Out of step -/

/-- A block that is read in the place of another one is not longer: what follows it did not fit into it. -/
theorem prefix_of_append (hf : f.Packed) {m : ℕ} {g : List KeyValuePair} (hg : f.blocks[m]? = some g)
    (hb : f.blocks[c]? = some b) {rest : List KeyValuePair}
    (heq : g ++ rest = b ++ (f.blocks.drop (c + 1)).flatten) : ∃ missing, b = g ++ missing := by
  rcases List.append_eq_append_iff.mp heq with ⟨missing, hmissing, -⟩ | ⟨more, hmore, hrest⟩
  · exact ⟨missing, hmissing⟩
  · cases more with
    | nil => exact ⟨[], by rw [hmore, List.append_nil, List.append_nil]⟩
    | cons z zs =>
      -- the block after `b` begins with `z`, which stands in `g` behind all of `b`
      have hlt : c + 1 < f.blocks.length := by
        by_contra hge
        rw [List.drop_eq_nil_of_le (Nat.le_of_not_lt hge), List.flatten_nil] at hrest
        cases hrest
      have hnext : f.blocks[c + 1]? = some f.blocks[c + 1] := List.getElem?_eq_getElem hlt
      obtain ⟨y, ys, hy⟩ := List.exists_cons_of_ne_nil (hf.wellFormed.blocks _ (List.getElem_mem hlt))
      rw [drop_eq_cons hnext, hy, List.flatten_cons] at hrest
      have hyz : y = z := (List.cons.inj hrest).1
      have hgetb := (List.getElem?_eq_some_iff.mp hb).2
      have hover := List.isChain_iff_getElem.mp hf.full c hlt y (by rw [hy]; rfl)
      have hne := List.length_pos_iff.mpr (hf.wellFormed.blocks b (List.mem_of_getElem? hb))
      have hfit := hf.fits g (List.mem_of_getElem? hg) (by
        rw [hmore, List.length_append, List.length_cons]
        omega)
      rw [hgetb, hyz] at hover
      rw [hmore] at hfit
      rw [Pack.total_append, Pack.total_cons] at hfit
      omega

/-- A block that is read from the file is not what comes next if it begins with another entry. -/
theorem Loading.miss_ne (h : Loading f a cache₀ n c p read it cache) (hread : read < f.entryCount)
    (hpresent : present a cache₀ n c = none) {x y : KeyValuePair} {xs ys : List KeyValuePair}
    (hp : f.blocks[p]? = some (x :: xs)) (hxy : x ≠ y) {fuel : ℕ} (hfuel : (y :: ys).length < fuel) :
    (SSTableIterator.load a f.blocks fuel n it cache).1 ≠ y :: ys := by
  intro heq
  obtain ⟨⟨it', cache', -, hload⟩, hshort⟩ := h.load hread (List.cons_ne_nil x xs) (.file hpresent hp)
  rcases Nat.le_total fuel (x :: xs).length with hle | hle
  · have hlen := hshort fuel hle
    rw [heq] at hlen
    omega
  · obtain ⟨rest, rfl⟩ := Nat.exists_eq_add_of_le hle
    rw [hload, List.cons_append, List.cons.injEq] at heq
    exact hxy heq.1

/-- Behind a block that is too short the missing entries are not made up: the stream stands before an entry that is not
one of them, and the cached blocks only move them on. -/
theorem Loading.not_behind (hf : f.WellFormed) (hc : Consistent a.seq f cache₀) {x : KeyValuePair}
    {xs missing : List KeyValuePair} (hp : f.blocks[p]? = some (x :: xs)) (hx : x ∉ missing) (hne : missing ≠ []) (k : ℕ)
    (hk : f.blocks.length ≤ c + k) (h : Loading f a cache₀ n c p read it cache)
    (hread : read + (missing ++ (f.blocks.drop c).flatten).length = f.entryCount) {fuel : ℕ}
    (hfuel : (missing ++ (f.blocks.drop c).flatten).length < fuel) :
    (SSTableIterator.load a f.blocks fuel n it cache).1 ≠ missing ++ (f.blocks.drop c).flatten := by
  induction k generalizing n c read it cache fuel missing with
  | zero =>
    obtain ⟨y, ys, rfl⟩ := List.exists_cons_of_ne_nil hne
    rw [List.cons_append, List.length_cons] at hread
    refine h.miss_ne (by omega) ?_ hp (fun heq => hx (heq ▸ List.mem_cons_self)) hfuel
    cases hpresent : present a cache₀ n c with
    | none => rfl
    | some b =>
      have hlt := (List.getElem?_eq_some_iff.mp (present_eq hc hpresent)).1
      omega
  | succ k ih =>
    obtain ⟨y, ys, rfl⟩ := List.exists_cons_of_ne_nil hne
    have hopen : read < f.entryCount := by
      rw [List.cons_append, List.length_cons] at hread
      omega
    cases hpresent : present a cache₀ n c with
    | none => exact h.miss_ne hopen hpresent hp (fun heq => hx (heq ▸ List.mem_cons_self)) hfuel
    | some b =>
      intro heq
      have hb := present_eq hc hpresent
      obtain ⟨⟨it', cache', hnext, hload⟩, hshort⟩ :=
        h.load hopen (hf.blocks b (List.mem_of_getElem? hb)) (.cached hpresent)
      rw [drop_eq_cons hb, List.flatten_cons, List.length_append, List.length_append] at hread hfuel
      obtain ⟨rest, rfl⟩ := Nat.exists_eq_add_of_le (show b.length ≤ fuel by omega)
      rw [hload, drop_eq_cons hb, List.flatten_cons, ← List.append_assoc] at heq
      -- the entries behind `b` are the missing ones in another order
      obtain ⟨moved, hmoved⟩ : ∃ moved, y :: ys ++ b = b ++ moved := by
        rcases List.append_eq_append_iff.mp heq with ⟨moved, hmoved, -⟩ | ⟨more, hmore, -⟩
        · exact ⟨moved, hmoved⟩
        · have hlen := congrArg List.length hmore
          rw [List.length_append, List.length_append, List.length_cons] at hlen
          omega
      have hperm : (y :: ys).Perm moved := by
        have happend : (b ++ y :: ys).Perm (b ++ moved) := by
          rw [← hmoved]
          exact List.perm_append_comm
        exact (List.perm_append_left_iff b).mp happend
      rw [hmoved, List.append_assoc, List.append_cancel_left_eq] at heq
      have hlen := hperm.length_eq
      refine ih (fun hmem => hx (hperm.mem_iff.mpr hmem)) ?_ (by omega) hnext ?_ ?_ heq
      · rintro rfl
        simp at hlen
      · rw [List.length_append]
        omega
      · rw [List.length_append]
        omega

/-- A block that was read in the place of another one must be the same. -/
theorem Loading.same_block (hf : f.Packed) (hc : Consistent a.seq f cache₀)
    (h : Loading f a cache₀ (before f c) c (missed a f cache₀ c) (before f c) it cache) {g : List KeyValuePair}
    (hb : f.blocks[c]? = some b) (hmiss : present a cache₀ (before f c) c = none)
    (hg : f.blocks[missed a f cache₀ c]? = some g) {fuel : ℕ} (hfuel : (f.blocks.drop c).flatten.length < fuel)
    (hyields : (SSTableIterator.load a f.blocks fuel (before f c) it cache).1 = (f.blocks.drop c).flatten) : g = b := by
  have hgne := hf.wellFormed.blocks g (List.mem_of_getElem? hg)
  obtain ⟨⟨it', cache', hnext, hload⟩, hshort⟩ := h.load (before_lt hf.wellFormed hb) hgne (.file hmiss hg)
  rcases Nat.le_total fuel g.length with hle | hle
  · have hlen := hshort fuel hle
    rw [hyields] at hlen
    omega
  · obtain ⟨rest, rfl⟩ := Nat.exists_eq_add_of_le hle
    rw [hload, drop_eq_cons hb, List.flatten_cons] at hyields
    obtain ⟨missing, rfl⟩ := prefix_of_append hf hg hb hyields
    cases missing with
    | nil => rw [List.append_nil]
    | cons y ys =>
      exfalso
      have hlt := (List.getElem?_eq_some_iff.mp hb).1
      have hmc : missed a f cache₀ c < c := by
        refine Nat.lt_of_le_of_ne (missed_le a f cache₀ c) fun heq => ?_
        rw [heq, hb, Option.some_inj] at hg
        have hlen := congrArg List.length hg
        rw [List.length_append, List.length_cons] at hlen
        omega
      -- the block after `g` begins with an entry for which `g` had no room
      have hlt' : missed a f cache₀ c + 1 < f.blocks.length := by omega
      have hp : f.blocks[missed a f cache₀ c + 1]? = some f.blocks[missed a f cache₀ c + 1] :=
        List.getElem?_eq_getElem hlt'
      obtain ⟨x, xs, hxs⟩ := List.exists_cons_of_ne_nil (hf.wellFormed.blocks _ (List.getElem_mem hlt'))
      rw [hxs] at hp
      have hfull := List.isChain_iff_getElem.mp hf.full (missed a f cache₀ c) hlt' x (by rw [hxs]; rfl)
      rw [(List.getElem?_eq_some_iff.mp hg).2] at hfull
      have hfit := hf.fits (g ++ y :: ys) (List.mem_of_getElem? hb) (by
        have := List.length_pos_iff.mpr hgne
        rw [List.length_append, List.length_cons]
        omega)
      have hx : x ∉ y :: ys := by
        intro hmem
        have hle := Pack.cost_le_total SSTableFile.wireSize hmem
        rw [Pack.total_append] at hfit
        omega
      have htotal := before_add hf.wellFormed c
      rw [drop_eq_cons hb, List.flatten_cons] at hfuel htotal
      simp only [List.length_append] at hfuel htotal
      rw [List.append_assoc, List.append_cancel_left_eq] at hyields
      refine hnext.not_behind hf.wellFormed hc hp hx (List.cons_ne_nil y ys) f.blocks.length (by omega) ?_ ?_ hyields
      · rw [List.length_append]
        omega
      · rw [List.length_append]
        omega

/-- Without cached blocks the stream stands at the block that is read. -/
theorem inStep_of_cold (h : ∀ i, cache.blocks a.seq i = none) : InStep a f cache := by
  have hmiss : ∀ i, hit a f cache i = false := by
    intro i
    cases hpresent : present a cache (before f i) i with
    | none => rw [hit, ← before, hpresent, Option.isSome_none]
    | some b =>
      have hcached := cached_of_present hpresent
      rw [h] at hcached
      cases hcached
  have hmissed : ∀ i, missed a f cache i = i := by
    intro i
    induction i with
    | zero => rfl
    | succ i ih => rw [missed, if_neg (by simp [hmiss]), ih]
  intro i _ _
  rw [hmissed]

/-- What is yielded from block `c` on tells that the blocks from there on are in step. -/
theorem Loading.inStep (hf : f.Packed) (hc : Consistent a.seq f cache₀) (k : ℕ) (hk : c + k = f.blocks.length)
    (h : Loading f a cache₀ (before f c) c (missed a f cache₀ c) (before f c) it cache) {fuel : ℕ}
    (hfuel : (f.blocks.drop c).flatten.length < fuel)
    (hyields : (SSTableIterator.load a f.blocks fuel (before f c) it cache).1 = (f.blocks.drop c).flatten) :
    ∀ i < f.blocks.length, c ≤ i → hit a f cache₀ i = false → f.blocks[missed a f cache₀ i]? = f.blocks[i]? := by
  induction k generalizing c it cache fuel with
  | zero =>
    intro i hi hci
    omega
  | succ k ih =>
    have hlt : c < f.blocks.length := by omega
    have hb : f.blocks[c]? = some f.blocks[c] := List.getElem?_eq_getElem hlt
    have hat : hit a f cache₀ c = false → f.blocks[missed a f cache₀ c]? = f.blocks[c]? := by
      intro hmiss
      have hpresent : present a cache₀ (before f c) c = none := Option.not_isSome_iff_eq_none.mp (by
        rw [hit, ← before] at hmiss
        simp [hmiss])
      have hm : missed a f cache₀ c < f.blocks.length := Nat.lt_of_le_of_lt (missed_le a f cache₀ c) hlt
      have hg : f.blocks[missed a f cache₀ c]? = some f.blocks[missed a f cache₀ c] := List.getElem?_eq_getElem hm
      rw [hg, hb, h.same_block hf hc hb hpresent hg hfuel hyields]
    intro i hi hci hmiss
    rcases Nat.lt_or_eq_of_le hci with hlt' | rfl
    · obtain ⟨puts, hfills, -⟩ := fills_in_step hc hb hat
      obtain ⟨⟨it', cache', hnext, hload⟩, -⟩ :=
        h.load (before_lt hf.wellFormed hb) (hf.wellFormed.blocks _ (List.getElem_mem hlt)) hfills
      rw [← before_succ hb] at hnext hload
      rw [drop_eq_cons hb, List.flatten_cons, List.length_append] at hfuel
      obtain ⟨rest, rfl⟩ := Nat.exists_eq_add_of_le (show f.blocks[c].length ≤ fuel by omega)
      rw [hload, drop_eq_cons hb, List.flatten_cons, List.append_cancel_left_eq] at hyields
      exact ih (by omega) hnext (by omega) hyields i hi hlt' hmiss
    · exact hat hmiss

/-- A written file is read exactly, whatever of its own blocks is cached and whatever is evicted meanwhile, if and only
if each block that is not cached when it is read stands where the file stream stands. -/
theorem readFile_exact_iff (a : Access) (f : SSTableFile) (hf : f.Written) (cache : SSTableCache)
    (hc : Consistent a.seq f cache) : Exact a f cache ↔ InStep a f cache := by
  have hpacked := hf.packed
  have hstart : Loading f a cache (before f 0) 0 (missed a f cache 0) (before f 0)
      ⟨[], 0, f.entryCount, 0, ⟨[], [], 0, false⟩, 0, 0⟩ cache :=
    ⟨rfl, rfl, rfl, rfl, kept_zero a cache 0⟩
  have hcount : (f.blocks.drop 0).flatten.length = f.entryCount := hpacked.wellFormed.entryCount.symm
  refine ⟨fun hexact i hi => ?_, fun hin => ?_⟩
  · exact hstart.inStep hpacked hc f.blocks.length (Nat.zero_add _) (by rw [hcount]; omega) hexact.1 i hi (Nat.zero_le i)
  · exact hstart.in_step hpacked.wellFormed hc hin f.blocks.length (Nat.zero_add _) (by rw [hcount]; omega)

/-- Nothing is evicted, and what is read is put into the cache under the number 1. -/
def keepAll : Access := ⟨1, true, fun _ _ _ => true⟩

/-- The cache with the first of two blocks. -/
def firstCached : SSTableCache := SSTableCache.empty.putBlock 1 0 [fullEntry]

theorem twoBlocks_written : twoBlocks.Written := .inl ⟨_, _, _, rfl⟩

theorem readFile_twoBlocks : Exact keepAll twoBlocks SSTableCache.empty := by
  refine (readFile_exact_iff keepAll twoBlocks twoBlocks_written SSTableCache.empty fun _ _ h => by cases h).mpr ?_
  exact inStep_of_cold fun _ => rfl

/-- With the first block cached it is yielded twice, and put into the cache as the second one. -/
theorem readFile_first_cached :
    Consistent 1 twoBlocks firstCached ∧
      readFile keepAll twoBlocks firstCached = ([fullEntry, fullEntry], [(1, [fullEntry])]) ∧
      twoBlocks.entries = [fullEntry, smallEntry] := by
  have hfirst : twoBlocks.blocks[0]? = some [fullEntry] := by
    rw [twoBlocks_blocks]
    rfl
  refine ⟨?_, ?_, by rw [SSTableFile.entries, twoBlocks_blocks]; rfl⟩
  · intro i b hb
    simp only [firstCached, SSTableCache.putBlock, SSTableCache.empty] at hb
    split at hb
    · next hi =>
      rw [hi.2, hfirst, hb]
    · cases hb
  · have hstart : Loading twoBlocks keepAll firstCached 0 0 0 0
        ⟨[], 0, twoBlocks.entryCount, 0, ⟨[], [], 0, false⟩, 0, 0⟩ firstCached :=
      ⟨rfl, rfl, rfl, rfl, kept_zero keepAll firstCached 0⟩
    obtain ⟨⟨it₁, cache₁, h₁, hload₁⟩, -⟩ :=
      hstart.load Nat.zero_lt_two (List.cons_ne_nil fullEntry []) (.cached (by rfl))
    obtain ⟨⟨it₂, cache₂, h₂, hload₂⟩, -⟩ :=
      h₁.load Nat.one_lt_two (List.cons_ne_nil fullEntry []) (.file (by rfl) hfirst)
    rw [readFile, show 2 * twoBlocks.entryCount + 1 = 1 + (1 + 3) from rfl]
    simp only [List.length_singleton] at hload₁ hload₂ h₂
    rw [hload₁, hload₂, h₂.ended (by rfl)]
    rfl

end SSTableIterator

end Kvdb
