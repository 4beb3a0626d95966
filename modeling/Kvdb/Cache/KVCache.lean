import Kvdb.Base.Types

/-! # The key-value cache (`kv_cache.hpp`)

A shard is an open-addressing table of buckets over an array of entries, with the LRU list kept as
the entry indices from head to tail. `Erase` and an eviction reset a bucket to empty and leave no
mark, so a later probe stops there. The hash function is the standard library's and is a parameter;
the bucket search compares its low 32 bits, the shard is chosen by all of it. -/
namespace Kvdb
set_option autoImplicit false

namespace KVCache

/-- `Entry`, without the intrusive LRU links. -/
structure Entry where
  key : Bytes
  value : Bytes
  timestamp : ℕ
  deriving DecidableEq, Repr

/-- `Bucket`; `idx = none` is `kEmpty`. -/
structure Bucket where
  hash : ℕ
  idx : Option ℕ
  deriving DecidableEq, Repr

structure Shard where
  buckets : List Bucket
  entries : List Entry
  lru : List ℕ
  entryCount : ℕ
  maxEntries : ℕ
  maxBytes : ℕ
  currentBytes : ℕ
  deriving DecidableEq, Repr

namespace Shard

/-- The doubling loop of `Init`: the first power of two that is at least `n`, up to `2 ^ fuel`. -/
def bucketCount (n : ℕ) : ℕ → ℕ → ℕ
  | 0, bc => bc
  | fuel + 1, bc => if bc < n then bucketCount n fuel (bc * 2) else bc

/-- `Init`. -/
def init (perE perB : ℕ) : Shard where
  buckets := List.replicate (bucketCount (perE * 2) (perE * 2) 1) ⟨0, none⟩
  entries := List.replicate perE ⟨[], [], 0⟩
  lru := []
  entryCount := 0
  maxEntries := perE
  maxBytes := perB
  currentBytes := 0

/-- Does the bucket hold the key? -/
def holds (s : Shard) (b : Bucket) (key : Bytes) : Bool :=
  match b.idx with
  | none => false
  | some i => match s.entries[i]? with
    | some e => decide (e.key = key)
    | none => false

/-- The probe of `FindSlot` from bucket `i`, over at most `fuel` buckets. -/
def findSlotFrom (s : Shard) (key : Bytes) (hash : ℕ) : ℕ → ℕ → Option ℕ
  | 0, _ => none
  | fuel + 1, i =>
    match s.buckets[i]? with
    | none => none
    | some b =>
      if b.idx.isNone then none
      else if decide (b.hash = hash) && s.holds b key then some i
      else findSlotFrom s key hash fuel ((i + 1) % s.buckets.length)

def findSlot (s : Shard) (key : Bytes) (hash : ℕ) : Option ℕ :=
  findSlotFrom s key hash s.buckets.length (hash % s.buckets.length)

/-- The first empty bucket of a probe. -/
def freeSlotFrom (buckets : List Bucket) : ℕ → ℕ → ℕ
  | 0, i => i
  | fuel + 1, i =>
    match buckets[i]? with
    | some b => if b.idx.isNone then i else freeSlotFrom buckets fuel ((i + 1) % buckets.length)
    | none => i

def setBucket (buckets : List Bucket) (hash idx : ℕ) : List Bucket :=
  buckets.set (freeSlotFrom buckets buckets.length (hash % buckets.length)) ⟨hash, some idx⟩

/-- Enter an occupied bucket again. -/
def reenter (buckets : List Bucket) (b : Bucket) : List Bucket :=
  match b.idx with
  | none => buckets
  | some i => setBucket buckets b.hash i

/-- `Rehash`: twice the buckets, the occupied ones entered again in order. -/
def rehash (s : Shard) : Shard :=
  { s with
    buckets := s.buckets.foldl reenter (List.replicate (max (s.buckets.length * 2) 8) ⟨0, none⟩) }

def valueAt (s : Shard) (i : ℕ) : Bytes := ((s.entries[i]?).map Entry.value).getD []
def keyAt (s : Shard) (i : ℕ) : Bytes := ((s.entries[i]?).map Entry.key).getD []

/-- `LruRemove` then `LruPushFront`. -/
def touch (s : Shard) (i : ℕ) : Shard := { s with lru := i :: s.lru.erase i }

/-- The entry index in bucket `slot`. -/
def idxAt (s : Shard) (slot : ℕ) : ℕ := ((s.buckets[slot]?).bind Bucket.idx).getD 0

/-- `buckets[slot].idx = kEmpty`. -/
def clearBucket (s : Shard) (slot : ℕ) : Shard :=
  { s with buckets := s.buckets.modify slot fun b => { b with idx := none } }

variable (hash : Bytes → ℕ)

/-- `static_cast<uint32_t>(std::hash)`. -/
def hash32 (key : Bytes) : ℕ := hash key % 2 ^ 32

/-- `Get_nolock`. -/
def get (s : Shard) (key : Bytes) (readTs : ℕ) : Option Bytes × Shard :=
  match s.findSlot key (hash32 hash key) with
  | none => (none, s)
  | some slot =>
    match s.entries[s.idxAt slot]? with
    | none => (none, s)
    | some e => if readTs < e.timestamp then (none, s) else (some e.value, s.touch (s.idxAt slot))

/-- `Evict_nolock`: the freed entry index, if any. -/
def evict (s : Shard) : Option ℕ × Shard :=
  match s.lru.getLast? with
  | none => (none, s)
  | some tail =>
    match s.findSlot (s.keyAt tail) (hash32 hash (s.keyAt tail)) with
    | none => (none, { s with lru := s.lru.erase tail })
    | some slot =>
      (some (s.idxAt slot),
        { s.clearBucket slot with
          lru := s.lru.erase tail
          currentBytes := s.currentBytes - (s.valueAt tail).length })

/-- The part of `Put_nolock` that enters a new key at entry index `idx`. -/
def place (s : Shard) (idx : ℕ) (key value : Bytes) (ts : ℕ) : Shard :=
  { s with
    entries := s.entries.set idx ⟨key, value, ts⟩
    buckets := setBucket s.buckets (hash32 hash key) idx
    lru := idx :: s.lru
    entryCount := s.entryCount + 1
    currentBytes := s.currentBytes + value.length }

def rehashIfCrowded (s : Shard) : Shard :=
  if s.buckets.length ≤ s.entryCount * 2 then s.rehash else s

/-- `Put_nolock`: the eviction loop runs at most once. -/
def put (s : Shard) (key value : Bytes) (ts : ℕ) : Shard :=
  match s.findSlot key (hash32 hash key) with
  | some slot =>
    { s.touch (s.idxAt slot) with
      entries := s.entries.set (s.idxAt slot) ⟨s.keyAt (s.idxAt slot), value, ts⟩
      currentBytes := s.currentBytes - (s.valueAt (s.idxAt slot)).length + value.length }
  | none =>
    if s.maxEntries ≤ s.entryCount ∨ s.maxBytes < s.currentBytes + value.length then
      match s.evict hash with
      | (none, s') => s'
      | (some idx, s') =>
        ({ s' with entryCount := s'.entryCount - 1 }.rehashIfCrowded).place hash idx key value ts
    else s.rehashIfCrowded.place hash s.entryCount key value ts

/-- `Erase_nolock`. -/
def erase (s : Shard) (key : Bytes) : Shard :=
  match s.findSlot key (hash32 hash key) with
  | none => s
  | some slot =>
    { s.clearBucket slot with
      lru := s.lru.erase (s.idxAt slot)
      currentBytes := s.currentBytes - (s.valueAt (s.idxAt slot)).length }

end Shard

end KVCache

/-- `KVCache`. -/
structure KVCache where
  hash : Bytes → ℕ
  shards : List KVCache.Shard

namespace KVCache

def new (hash : Bytes → ℕ) (maxEntries maxBytes numShards : ℕ) : KVCache where
  hash := hash
  shards := List.replicate numShards
    (Shard.init (max 1 (maxEntries / numShards)) (max 1 (maxBytes / numShards)))

def shardFor (c : KVCache) (key : Bytes) : ℕ := c.hash key % c.shards.length

def get (c : KVCache) (key : Bytes) (readTs : ℕ) : Option Bytes × KVCache :=
  match c.shards[c.shardFor key]? with
  | none => (none, c)
  | some s => ((s.get c.hash key readTs).1,
      { c with shards := c.shards.set (c.shardFor key) (s.get c.hash key readTs).2 })

/-- `Put`: a value over half a page is not cached, and what the key had cached stays. -/
def put (c : KVCache) (key value : Bytes) (ts : ℕ) : KVCache :=
  if Config.pageSize / 2 < value.length then c
  else { c with shards := c.shards.modify (c.shardFor key) fun s => s.put c.hash key value ts }

def erase (c : KVCache) (key : Bytes) : KVCache :=
  { c with shards := c.shards.modify (c.shardFor key) fun s => s.erase c.hash key }

end KVCache

end Kvdb
