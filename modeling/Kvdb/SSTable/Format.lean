import Kvdb.SSTable.Iterate
import Kvdb.Log.Crc32
import Kvdb.Lib.LittleEndian

/-! # SSTable files byte by byte (`sstable.cpp`)

`Write` and `WriteFromWalk` write a header, the data blocks, the filter area with the block index, its checksum and a
footer. A block carries its checksum, the compression byte and the length of its payload in front of it. The compression
is `kCompressionNone`, which leaves a payload as it is.

A reader takes only the lowest bit of the flag byte of an entry and leaves the checksum of a block aside, so that many
files read alike; `StoredBlock` is a block with these bytes as they are in the file. -/
namespace Kvdb
set_option autoImplicit false

namespace Config

def sstableMagic : ℕ := 0x4B535354
def sstableFooterMagic : ℕ := 0x4B454E44
def sstableVersion : ℕ := 6
def compressionNone : UInt8 := 0
def compressionSnappy : UInt8 := 1

end Config

namespace SSTableBytes

open LittleEndian Crc32

/-! ## Blocks -/

/-- An entry in the payload of a block. -/
def entryBytes (e : KeyValuePair) : Bytes :=
  leBytes 4 e.key.length ++ (e.key ++ (leBytes 4 e.value.length ++ (e.value ++
    (leBytes 8 e.timestamp ++ [if e.isTombstone then 1 else 0]))))

def blockPayload (b : List KeyValuePair) : Bytes := leBytes 4 b.length ++ b.flatMap entryBytes

/-- What `WriteBlock` and `FreezeBlock` make of a block. -/
def blockBytes (b : List KeyValuePair) : Bytes :=
  leBytes 4 (crc32 (blockPayload b)) ++ (Config.compressionNone ::
    (leBytes 4 (blockPayload b).length ++ blockPayload b))

/-! ## The filter area -/

/-- Byte `j` of the bits of the filter. -/
def bloomByte (b : BloomFilter) (j : ℕ) : UInt8 :=
  UInt8.ofNat ((List.range 8).map fun k => if 8 * j + k ∈ b.setBits then 2 ^ k else 0).sum

/-- `Data()` of the filter. -/
def bloomData (b : BloomFilter) : Bytes := (List.range ((b.bits + 7) / 8)).map (bloomByte b)

/-- A first key in the block index: its length is kept in two bytes, and so many bytes of it. -/
def firstKeyBytes (key : Bytes) : Bytes := leBytes 2 key.length ++ key.take (key.length % 2 ^ 16)

/-- The bytes before block `i`. -/
def blockOffset (f : SSTableFile) (i : ℕ) : ℕ := 24 + ((f.blocks.take i).flatMap blockBytes).length

def blockOffsets (f : SSTableFile) : List ℕ := (List.range f.blocks.length).map (blockOffset f)

/-- `filter_off`: the bytes before the filter area. -/
def filterOffset (f : SSTableFile) : ℕ := 24 + (f.blocks.flatMap blockBytes).length

/-- The bytes that `MetaCRC` covers. -/
def filterArea (f : SSTableFile) : Bytes :=
  f.minKey ++ (f.maxKey ++ (leBytes 4 f.bloom.bits ++ (leBytes 4 f.bloom.hashCount ++
    (leBytes 4 (bloomData f.bloom).length ++ (bloomData f.bloom ++
      (leBytes 4 f.abortedBatchTs.length ++ (f.abortedBatchTs.flatMap (leBytes 8) ++
        (leBytes 4 f.blocks.length ++ ((blockOffsets f).flatMap (leBytes 8) ++
          f.firstKeys.flatMap firstKeyBytes)))))))))

/-! ## The file -/

/-- The header up to the entry count, with the eight bytes that follow it. -/
def header (n : ℕ) (rest : Bytes) : Bytes :=
  leBytes 4 Config.sstableMagic ++ (leBytes 4 Config.sstableVersion ++ (leBytes 4 Config.sstableBlockSize ++
    (leBytes 4 n ++ rest)))

/-- The compression byte, three zeros and the lengths of the smallest and the largest key. -/
def keyLengths (f : SSTableFile) : Bytes :=
  Config.compressionNone :: 0 :: 0 :: 0 :: (leBytes 2 f.minKey.length ++ leBytes 2 f.maxKey.length)

/-- The checksum of the filter area, its offset and the footer magic. -/
def footer (f : SSTableFile) : Bytes :=
  leBytes 4 (crc32 (filterArea f)) ++ (leBytes 8 (filterOffset f) ++ leBytes 4 Config.sstableFooterMagic)

/-- The file that is written for the content `f`. -/
def fileBytes (f : SSTableFile) : Bytes :=
  header f.entryCount (keyLengths f) ++ (f.blocks.flatMap blockBytes ++ (filterArea f ++ footer f))

theorem length_keyLengths (f : SSTableFile) : (keyLengths f).length = 8 := by
  simp [keyLengths]

theorem length_header (n : ℕ) (rest : Bytes) : (header n rest).length = 16 + rest.length := by
  simp only [header, List.length_append, length_leBytes]
  omega

theorem firstKeyBytes_eq {key : Bytes} (h : key.length < 2 ^ 16) : firstKeyBytes key = leBytes 2 key.length ++ key := by
  rw [firstKeyBytes, Nat.mod_eq_of_lt h, List.take_length]

/-! ## Blocks as they are stored -/

/-- An entry with its flag byte. -/
structure StoredEntry where
  key : Bytes
  value : Bytes
  timestamp : ℕ
  flag : UInt8
  deriving DecidableEq, Repr

namespace StoredEntry

/-- What comes behind the key. -/
def valueBytes (e : StoredEntry) : Bytes := leBytes 4 e.value.length ++ (e.value ++ (leBytes 8 e.timestamp ++ [e.flag]))

def bytes (e : StoredEntry) : Bytes := leBytes 4 e.key.length ++ (e.key ++ e.valueBytes)

/-- What a reader takes it for. -/
def pair (e : StoredEntry) : KeyValuePair := ⟨e.key, e.value, e.timestamp, decide (e.flag.toNat % 2 = 1)⟩

def ofPair (e : KeyValuePair) : StoredEntry := ⟨e.key, e.value, e.timestamp, if e.isTombstone then 1 else 0⟩

theorem ofPair_bytes (e : KeyValuePair) : (ofPair e).bytes = entryBytes e := rfl

theorem ofPair_pair (e : KeyValuePair) : (ofPair e).pair = e := by
  cases e with
  | mk key value timestamp isTombstone =>
    cases isTombstone with
    | false => rfl
    | true => rfl

theorem length_bytes (e : StoredEntry) : e.bytes.length = 4 + e.key.length + 4 + e.value.length + 8 + 1 := by
  simp only [bytes, valueBytes, List.length_append, length_leBytes, List.length_singleton]
  omega

end StoredEntry

/-- A block with its checksum bytes. -/
structure StoredBlock where
  crc : Bytes
  entries : List StoredEntry
  deriving DecidableEq, Repr

namespace StoredBlock

def payload (b : StoredBlock) : Bytes := leBytes 4 b.entries.length ++ b.entries.flatMap StoredEntry.bytes

def bytes (b : StoredBlock) : Bytes :=
  b.crc ++ (Config.compressionNone :: (leBytes 4 b.payload.length ++ b.payload))

def pairs (b : StoredBlock) : List KeyValuePair := b.entries.map StoredEntry.pair

def ofPairs (b : List KeyValuePair) : StoredBlock := ⟨leBytes 4 (crc32 (blockPayload b)), b.map StoredEntry.ofPair⟩

theorem ofPairs_payload (b : List KeyValuePair) : (ofPairs b).payload = blockPayload b := by
  simp only [payload, ofPairs, List.length_map, blockPayload, List.flatMap_map, StoredEntry.ofPair_bytes]

theorem ofPairs_bytes (b : List KeyValuePair) : (ofPairs b).bytes = blockBytes b := by
  rw [bytes, ofPairs_payload]
  rfl

theorem ofPairs_pairs (b : List KeyValuePair) : (ofPairs b).pairs = b := by
  simp only [pairs, ofPairs, List.map_map]
  exact (List.map_congr_left fun e _ => StoredEntry.ofPair_pair e).trans (List.map_id b)

/-- The counts and lengths fit their words. -/
structure Fits (b : StoredBlock) : Prop where
  crc : b.crc.length = 4
  count : b.entries.length < 2 ^ 32
  size : b.payload.length < 2 ^ 32
  timestamp : ∀ e ∈ b.entries, e.timestamp < 2 ^ 64

theorem length_bytes {b : StoredBlock} (h : b.Fits) : b.bytes.length = 9 + b.payload.length := by
  simp only [bytes, List.length_append, List.length_cons, length_leBytes, h.crc]
  omega

/-- What `Block` needs to step over the entries: the length words are the lengths, and a value length does not wrap
around with the nine bytes behind the value. -/
def Steps (b : StoredBlock) : Prop :=
  ∀ e ∈ b.entries, e.key.length < 2 ^ 32 ∧ e.value.length + 9 < 2 ^ 32 ∧ e.timestamp < 2 ^ 64

theorem Fits.steps {b : StoredBlock} (h : b.Fits) : b.Steps := fun e he => by
  have hsub : e.bytes.length ≤ (b.entries.flatMap StoredEntry.bytes).length := by
    rw [List.flatMap_def]
    exact (List.sublist_flatten_of_mem (List.mem_map_of_mem he)).length_le
  have hsize := h.size
  rw [payload, List.length_append] at hsize
  rw [StoredEntry.length_bytes] at hsub
  refine ⟨by omega, by omega, h.timestamp e he⟩

theorem Fits.entry {b : StoredBlock} (h : b.Fits) {e : StoredEntry} (he : e ∈ b.entries) :
    e.key.length < 2 ^ 32 ∧ e.value.length < 2 ^ 32 ∧ e.timestamp < 2 ^ 64 := by
  obtain ⟨hk, hv, hts⟩ := h.steps e he
  exact ⟨hk, by omega, hts⟩

end StoredBlock

/-- A file whose header counts the entries of the blocks that follow it; what comes behind the blocks is `tail`. -/
structure Stored (data : Bytes) (blocks : List StoredBlock) (rest tail : Bytes) : Prop where
  data : data = header (blocks.flatMap StoredBlock.pairs).length rest ++ (blocks.flatMap StoredBlock.bytes ++ tail)
  rest : rest.length = 8
  count : (blocks.flatMap StoredBlock.pairs).length < 2 ^ 32
  fits : ∀ b ∈ blocks, b.Fits
  nonempty : ∀ b ∈ blocks, b.entries ≠ []

/-- What holds of the bytes of each part holds of all. -/
theorem mul_sum_le_flatMap {α : Type} {g : α → Bytes} {size : α → ℕ} {k : ℕ} (h : ∀ a, k * size a ≤ (g a).length)
    (xs : List α) : k * (xs.map size).sum ≤ (xs.flatMap g).length := by
  induction xs with
  | nil => exact Nat.le_refl 0
  | cons x xs ih =>
    have hx := h x
    rw [List.map_cons, List.sum_cons, List.flatMap_cons, List.length_append, Nat.mul_add]
    omega

theorem blockPayload_length_ge (b : List KeyValuePair) : 17 * b.length ≤ (blockPayload b).length := by
  have hentry : ∀ e : KeyValuePair, 17 * 1 ≤ (entryBytes e).length := by
    intro e
    rw [← StoredEntry.ofPair_bytes, StoredEntry.length_bytes]
    omega
  have hsum := mul_sum_le_flatMap hentry b
  simp only [List.map_const', List.sum_replicate_nat, Nat.mul_one] at hsum
  rw [blockPayload, List.length_append]
  omega

/-- The sizes that the format can hold: what is written to four bytes is below `2 ^ 32`, and timestamps are words of
eight bytes. -/
structure Limits (f : SSTableFile) : Prop where
  count : f.entries.length < 2 ^ 32
  size : ∀ b ∈ f.blocks, (blockPayload b).length < 2 ^ 32
  timestamp : ∀ e ∈ f.entries, e.timestamp < 2 ^ 64

theorem blocks_length_le {f : SSTableFile} (hf : f.WellFormed) : f.blocks.length ≤ f.entries.length := by
  rw [SSTableFile.entries, List.length_flatten]
  have hle := List.length_le_sum_of_one_le (f.blocks.map List.length) fun n hn => by
    obtain ⟨b, hb, rfl⟩ := List.mem_map.mp hn
    exact List.length_pos_iff.mpr (hf.blocks b hb)
  rwa [List.length_map] at hle

theorem ofPairs_flatMap (f : SSTableFile) :
    (f.blocks.map StoredBlock.ofPairs).flatMap StoredBlock.pairs = f.entries := by
  rw [List.flatMap_map, SSTableFile.entries, List.flatMap_def]
  congr 1
  exact (List.map_congr_left fun b _ => StoredBlock.ofPairs_pairs b).trans (List.map_id _)

theorem StoredBlock.fits_ofPairs {b : List KeyValuePair} (hsize : (blockPayload b).length < 2 ^ 32)
    (hts : ∀ e ∈ b, e.timestamp < 2 ^ 64) : (StoredBlock.ofPairs b).Fits := by
  have hcount := blockPayload_length_ge b
  refine ⟨length_leBytes 4 _, ?_, ?_, ?_⟩
  · rw [StoredBlock.ofPairs, List.length_map]
    omega
  · rwa [StoredBlock.ofPairs_payload]
  · intro e he
    obtain ⟨x, hx, rfl⟩ := List.mem_map.mp he
    exact hts x hx

theorem stored_fileBytes {f : SSTableFile} (hf : f.WellFormed) (h : Limits f) :
    Stored (fileBytes f) (f.blocks.map StoredBlock.ofPairs) (keyLengths f) (filterArea f ++ footer f) := by
  have hpairs := ofPairs_flatMap f
  have hbytes : (f.blocks.map StoredBlock.ofPairs).flatMap StoredBlock.bytes = f.blocks.flatMap blockBytes := by
    rw [List.flatMap_map]
    simp only [StoredBlock.ofPairs_bytes]
  refine ⟨?_, length_keyLengths f, by rw [hpairs]; exact h.count, ?_, ?_⟩
  · rw [hpairs, hbytes, ← hf.entryCount]
    rfl
  · intro b hb
    obtain ⟨es, hes, rfl⟩ := List.mem_map.mp hb
    exact StoredBlock.fits_ofPairs (h.size es hes) fun x hx => h.timestamp x (List.mem_flatten.mpr ⟨es, hes, hx⟩)
  · intro b hb
    obtain ⟨es, hes, rfl⟩ := List.mem_map.mp hb
    rw [StoredBlock.ofPairs, ne_eq, List.map_eq_nil_iff]
    exact hf.blocks es hes

end SSTableBytes

end Kvdb
