import Kvdb.Base.Types
import Kvdb.Lib.Pack

/-! # SSTable files (`sstable.cpp`, `bloom.hpp`)

A file is kept as what its readers decode: the data blocks with their entries, the key range, the
bloom filter and the aborted timestamps of the metadata area. `write` is `SSTable::Write` (used by
compaction), `writeFromWalk` is `SSTable::WriteFromWalk` (used by a flush), which keeps one version
of each key. A file path is the number `n` of `data_dir/sstable_<n>.sst`. -/
namespace Kvdb
set_option autoImplicit false

/-- `BloomFilter`; `setBits` are the positions of the set bits. -/
structure BloomFilter where
  bits : ℕ
  hashCount : ℕ
  setBits : List ℕ
  deriving DecidableEq, Repr

namespace BloomFilter

def hash1 (key : Bytes) : UInt32 :=
  key.foldl (fun h c => (h ^^^ c.toUInt32) * 16777619) 2166136261

def hash2 (key : Bytes) : UInt32 :=
  key.foldl (fun h c => c.toUInt32 + (h <<< 6) + (h <<< 16) - h) 0

/-- The bit of probe `i`. -/
def probe (bits : ℕ) (key : Bytes) (i : ℕ) : ℕ := ((hash1 key).toNat + i * (hash2 key).toNat) % bits

def add (b : BloomFilter) (key : Bytes) : BloomFilter :=
  { b with setBits := (List.range b.hashCount).map (probe b.bits key) ++ b.setBits }

def mightContain (b : BloomFilter) (key : Bytes) : Bool :=
  (List.range b.hashCount).all fun i => decide (probe b.bits key i ∈ b.setBits)

/-- The test the readers make: a filter with no bits rejects nothing. -/
def rejects (b : BloomFilter) (key : Bytes) : Bool := decide (0 < b.bits) && !b.mightContain key

/-- The filter of a file with the given keys. The constructor computes the number of bits and of
hash functions from the entry count in floating point; `sizing` stands for that computation. -/
def ofKeys (sizing : ℕ → ℕ × ℕ) (n : ℕ) (keys : List Bytes) : BloomFilter :=
  keys.foldl add ⟨(sizing n).1, (sizing n).2, []⟩

end BloomFilter

/-- The content of an SSTable file. -/
structure SSTableFile where
  entryCount : ℕ
  minKey : Bytes
  maxKey : Bytes
  bloom : BloomFilter
  abortedBatchTs : List ℕ
  blocks : List (List KeyValuePair)
  deriving DecidableEq, Repr

namespace SSTableFile

/-- `WireSize`: the encoded size of an entry in a block. -/
def wireSize (e : KeyValuePair) : ℕ := 4 + e.key.length + 4 + e.value.length + 8 + 1

/-- The blocks `BlockBuilder` closes, in file order. -/
def packBlocks (es : List KeyValuePair) : List (List KeyValuePair) :=
  Pack.pack wireSize Config.sstableBlockSize 4 es

/-- All entries, in file order. -/
def entries (f : SSTableFile) : List KeyValuePair := f.blocks.flatten

/-- The first key of each block. -/
def firstKeys (f : SSTableFile) : List Bytes :=
  f.blocks.map fun b => (b.head?.map KeyValuePair.key).getD []

/-- `SSTable::Write`. -/
def write (sizing : ℕ → ℕ × ℕ) (es : List KeyValuePair) (aborted : List ℕ) : SSTableFile where
  entryCount := es.length
  minKey := (es.head?.map KeyValuePair.key).getD []
  maxKey := (es.getLast?.map KeyValuePair.key).getD []
  bloom := BloomFilter.ofKeys sizing (if es.isEmpty then 1 else es.length) (es.map KeyValuePair.key)
  abortedBatchTs := aborted
  blocks := packBlocks es

/-- The loop of `WriteFromWalk` and its `flushBest`: `best` is the newest version seen of the
current key, and it is written only when `hasBest`. The loop starts with the empty key as the
current one and nothing to write, so versions of the empty key at the front are passed over. -/
def selectNewest : KeyValuePair → Bool → List KeyValuePair → List KeyValuePair
  | best, hasBest, [] => if hasBest then [best] else []
  | best, hasBest, e :: es =>
    if e.key ≠ best.key then
      if hasBest then best :: selectNewest e true es else selectNewest e true es
    else if best.timestamp < e.timestamp then selectNewest e hasBest es
    else selectNewest best hasBest es

/-- The entries a flush writes for the walk. -/
def flushEntries (walk : List KeyValuePair) : List KeyValuePair :=
  selectNewest ⟨[], [], 0, false⟩ false walk

/-- `SSTable::WriteFromWalk`; `entryCount` is the memtable's, which sizes the bloom filter. -/
def writeFromWalk (sizing : ℕ → ℕ × ℕ) (walk : List KeyValuePair) (entryCount : ℕ)
    (aborted : List ℕ) : SSTableFile where
  entryCount := (flushEntries walk).length
  minKey := (((flushEntries walk).map KeyValuePair.key).find? fun k => !k.isEmpty).getD []
  maxKey := ((flushEntries walk).getLast?.map KeyValuePair.key).getD []
  bloom := BloomFilter.ofKeys sizing (if 0 < entryCount then entryCount else 1)
    ((flushEntries walk).map KeyValuePair.key)
  abortedBatchTs := aborted
  blocks := packBlocks (flushEntries walk)

end SSTableFile

/-- `SSTable::Metadata`: the catalogue's record of one file. -/
structure Metadata where
  filepath : ℕ
  manifestSeq : ℕ := 0
  entryCount : ℕ := 0
  sourceTableId : ℕ := 0
  level : ℕ := 0
  minKey : Bytes := []
  maxKey : Bytes := []
  bloom : BloomFilter := ⟨0, 0, []⟩
  firstKeys : List Bytes := []
  abortedBatchTs : List ℕ := []
  deriving DecidableEq, Repr

end Kvdb
