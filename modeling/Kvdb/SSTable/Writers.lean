import Kvdb.SSTable.BloomBytes

/-! # The writers of SSTable files (`SSTable::Write`, `SSTable::WriteFromWalk`)

Both pack serialized entries into a `BlockBuilder` and close it when an entry would take it over the size of a block.
`Write` puts a block into the file when it is closed; `WriteFromWalk` keeps the closed blocks until the walk has ended and
then also gives them to the block cache. The filter area is read back from the file for its checksum. -/
namespace Kvdb.SSTableBytes.Writers
set_option autoImplicit false

open LittleEndian Crc32

/-! ## Blocks -/

/-- `SerializedEntry`, with the bytes that its pointers lead to; the lengths have 32 bits. -/
structure SerializedEntry where
  keyLen : ℕ
  keyData : Bytes
  valueLen : ℕ
  valueData : Bytes
  timestamp : ℕ
  isTombstone : Bool

namespace SerializedEntry

def ofPair (kv : KeyValuePair) : SerializedEntry where
  keyLen := kv.key.length % 2 ^ 32
  keyData := kv.key
  valueLen := kv.value.length % 2 ^ 32
  valueData := kv.value
  timestamp := kv.timestamp
  isTombstone := kv.isTombstone

/-- `WireSize`, a sum of 32 bits. -/
def wireSize (e : SerializedEntry) : ℕ := (4 + e.keyLen + 4 + e.valueLen + 8 + 1) % 2 ^ 32

def key (e : SerializedEntry) : Bytes := e.keyData.take e.keyLen

def bytes (e : SerializedEntry) : Bytes :=
  leBytes 4 e.keyLen ++ (e.key ++ (leBytes 4 e.valueLen ++ (e.valueData.take e.valueLen ++
    (leBytes 8 e.timestamp ++ [if e.isTombstone then 1 else 0]))))

end SerializedEntry

structure BlockBuilder where
  entries : List SerializedEntry
  dataSize : ℕ
  count : ℕ

namespace BlockBuilder

/-- A new one, and what `Reset` leaves. -/
def reset : BlockBuilder := ⟨[], 0, 0⟩

def tryAppend (b : BlockBuilder) (e : SerializedEntry) (allowEmpty : Bool) : Bool × BlockBuilder :=
  let ns := b.dataSize + e.wireSize
  if !allowEmpty && decide (0 < b.count) && decide (Config.sstableBlockSize < 4 + ns) then (false, b)
  else (true, ⟨b.entries ++ [e], ns, (b.count + 1) % 2 ^ 32⟩)

/-- The payload of the block. -/
def payload (b : BlockBuilder) : Bytes := leBytes 4 b.count ++ b.entries.flatMap SerializedEntry.bytes

/-- The bytes that `WriteBlock` writes and `FreezeBlock` returns. -/
def block (b : BlockBuilder) : Bytes :=
  leBytes 4 (crc32 b.payload) ++ (Config.compressionNone :: (leBytes 4 b.payload.length ++ b.payload))

/-- What they add to the filter. -/
def addKeys (b : BlockBuilder) (bloom : RawBloom) : RawBloom := (b.entries.map SerializedEntry.key).foldl RawBloom.add bloom

end BlockBuilder

/-! ## What both writers put around the blocks -/

def headerBytes (entryCount : ℕ) (minKey maxKey : Bytes) : Bytes :=
  leBytes 4 Config.sstableMagic ++ (leBytes 4 Config.sstableVersion ++ (leBytes 4 Config.sstableBlockSize ++
    (leBytes 4 entryCount ++ (Config.compressionNone :: 0 :: 0 :: 0 ::
      (leBytes 2 minKey.length ++ leBytes 2 maxKey.length)))))

/-- The aborted timestamps in the order of the set; none are written for a null pointer. -/
def abortedBytes : Option (List ℕ) → Bytes
  | some aborted => leBytes 4 aborted.length ++ aborted.flatMap (leBytes 8)
  | none => leBytes 4 0

/-- The end of the file: the filter area, its checksum as it is read back from `filter_off` on, and the footer. -/
def finish (file minKey maxKey : Bytes) (bloom : RawBloom) (aborted : Option (List ℕ)) (offsets : List ℕ)
    (firstKeys : List Bytes) : Bytes :=
  let filterOff := file.length
  let area := minKey ++ (maxKey ++ (bloom.fileBytes ++ (abortedBytes aborted ++ (leBytes 4 offsets.length ++
    (offsets.flatMap (leBytes 8) ++ firstKeys.flatMap firstKeyBytes)))))
  let written := file ++ area
  let metaBuf := (written.drop filterOff).take (written.length - filterOff)
  written ++ (leBytes 4 (crc32 metaBuf) ++ (leBytes 8 filterOff ++ leBytes 4 Config.sstableFooterMagic))

/-! ## `Write` -/

structure Writing where
  file : Bytes
  bloom : RawBloom
  offsets : List ℕ
  firstKeys : List Bytes
  builder : BlockBuilder

namespace Writing

def writeBlock (w : Writing) : Writing :=
  { w with
    file := w.file ++ w.builder.block
    bloom := w.builder.addKeys w.bloom
    offsets := w.offsets ++ [w.file.length] }

/-- The body of the loop over the entries. An empty block takes any entry, so that the inner loop is left after its
second try at the latest. -/
def append (w : Writing) (kv : KeyValuePair) : Writing :=
  let se := SerializedEntry.ofPair kv
  let allow := w.builder.count == 0
  let w := if allow then { w with firstKeys := w.firstKeys ++ [kv.key] } else w
  match w.builder.tryAppend se allow with
  | (true, b) => { w with builder := b }
  | (false, _) =>
    let w := w.writeBlock
    { w with firstKeys := w.firstKeys ++ [kv.key], builder := (BlockBuilder.reset.tryAppend se true).2 }

end Writing

/-- `SSTable::Write`: the bytes of the file. `sizing` is what the filter computes from the count of entries. -/
def write (sizing : ℕ → ℕ × ℕ) (entries : List KeyValuePair) (aborted : Option (List ℕ)) : Bytes :=
  let size := sizing (if entries.isEmpty then 1 else entries.length)
  let minKey := (entries.head?.map KeyValuePair.key).getD []
  let maxKey := (entries.getLast?.map KeyValuePair.key).getD []
  let w := entries.foldl Writing.append
    ⟨headerBytes entries.length minKey maxKey, RawBloom.make size.1 size.2, [], [], .reset⟩
  let w := if 0 < w.builder.count then w.writeBlock else w
  finish w.file minKey maxKey w.bloom aborted w.offsets w.firstKeys

/-! ## `WriteFromWalk` -/

structure BlockData where
  data : Bytes
  firstKey : Bytes
  uncompressed : Bytes

structure Flushing where
  bloom : RawBloom
  builder : BlockBuilder
  blocks : List BlockData
  minKey : Bytes
  maxKey : Bytes
  blockFirstKey : Bytes
  written : ℕ
  /-- `prev_key` with `best_val`, `best_ts` and `best_tomb`. -/
  best : KeyValuePair
  hasBest : Bool

namespace Flushing

def freezeBlock (w : Flushing) : Flushing :=
  { w with
    blocks := w.blocks ++ [⟨w.builder.block, w.blockFirstKey, w.builder.payload⟩]
    bloom := w.builder.addKeys w.bloom }

/-- `flushBest`. -/
def flushBest (w : Flushing) : Flushing :=
  if !w.hasBest then w
  else
    let se := SerializedEntry.ofPair w.best
    let w := if w.builder.count == 0 then { w with blockFirstKey := w.best.key } else w
    let w := match w.builder.tryAppend se (w.builder.count == 0) with
      | (true, b) => { w with builder := b }
      | (false, _) =>
        { w.freezeBlock with blockFirstKey := w.best.key, builder := (BlockBuilder.reset.tryAppend se true).2 }
    { w with
      minKey := if w.minKey.isEmpty then w.best.key else w.minKey
      maxKey := w.best.key
      written := w.written + 1
      hasBest := false }

/-- The body of the loop over the walk. -/
def visit (w : Flushing) (e : KeyValuePair) : Flushing :=
  if e.key ≠ w.best.key then { w.flushBest with best := e, hasBest := true }
  else if w.best.timestamp < e.timestamp then { w with best := e }
  else w

end Flushing

/-- `SSTable::WriteFromWalk`: the bytes of the file, and the blocks that are put into the cache. -/
def writeFromWalk (sizing : ℕ → ℕ × ℕ) (walk : List KeyValuePair) (entryCount : ℕ) (aborted : Option (List ℕ)) :
    Bytes × List (ℕ × Bytes) :=
  let size := sizing (if 0 < entryCount then entryCount else 1)
  let w := walk.foldl Flushing.visit
    ⟨RawBloom.make size.1 size.2, .reset, [], [], [], [], 0, ⟨[], [], 0, false⟩, false⟩
  let w := w.flushBest
  let w := if 0 < w.builder.count then w.freezeBlock else w
  let head := headerBytes w.written w.minKey w.maxKey
  let placed := w.blocks.foldl (fun s bd => (s.1 ++ bd.data, s.2 ++ [s.1.length])) (head, ([] : List ℕ))
  (finish placed.1 w.minKey w.maxKey w.bloom aborted placed.2 (w.blocks.map BlockData.firstKey),
    (w.blocks.zipIdx.filter fun p => !p.1.uncompressed.isEmpty).map fun p => (p.2 % 2 ^ 32, p.1.uncompressed))

/-! ## The entries and the builder -/

/-- The size of the entry fits the 32 bits that it is computed in. -/
def WireFits (e : KeyValuePair) : Prop := SSTableFile.wireSize e < 2 ^ 32

instance (e : KeyValuePair) : Decidable (WireFits e) := inferInstanceAs (Decidable (_ < _))

namespace SerializedEntry

variable {e : KeyValuePair}

theorem wireSize_ofPair (h : WireFits e) : (ofPair e).wireSize = SSTableFile.wireSize e := by
  simp only [WireFits, SSTableFile.wireSize] at h
  have hkey : e.key.length % 2 ^ 32 = e.key.length := Nat.mod_eq_of_lt (by omega)
  have hvalue : e.value.length % 2 ^ 32 = e.value.length := Nat.mod_eq_of_lt (by omega)
  simp only [wireSize, ofPair, SSTableFile.wireSize, hkey, hvalue]
  exact Nat.mod_eq_of_lt h

theorem key_ofPair (h : WireFits e) : (ofPair e).key = e.key := by
  simp only [WireFits, SSTableFile.wireSize] at h
  rw [key, ofPair, Nat.mod_eq_of_lt (by omega), List.take_length]

theorem bytes_ofPair (h : WireFits e) : (ofPair e).bytes = entryBytes e := by
  rw [bytes, key_ofPair h]
  simp only [WireFits, SSTableFile.wireSize] at h
  have hkey : e.key.length % 2 ^ 32 = e.key.length := Nat.mod_eq_of_lt (by omega)
  have hvalue : e.value.length % 2 ^ 32 = e.value.length := Nat.mod_eq_of_lt (by omega)
  simp only [ofPair, hkey, hvalue, List.take_length, entryBytes]

end SerializedEntry

namespace BlockBuilder

/-- The builder with the open block `cur`. -/
def building (cur : List KeyValuePair) : BlockBuilder :=
  ⟨cur.map SerializedEntry.ofPair, Pack.total SSTableFile.wireSize cur, cur.length⟩

variable {cur : List KeyValuePair}

theorem payload_building (h : ∀ e ∈ cur, WireFits e) : (building cur).payload = blockPayload cur := by
  have hbytes : cur.flatMap (fun e => (SerializedEntry.ofPair e).bytes) = cur.flatMap entryBytes :=
    List.flatMap_congr fun e he => SerializedEntry.bytes_ofPair (h e he)
  rw [payload, building, List.flatMap_map, hbytes]
  rfl

theorem block_building (h : ∀ e ∈ cur, WireFits e) : (building cur).block = blockBytes cur := by
  rw [block, payload_building h]
  rfl

theorem addKeys_building (h : ∀ e ∈ cur, WireFits e) (bloom : RawBloom) :
    (building cur).addKeys bloom = (cur.map KeyValuePair.key).foldl RawBloom.add bloom := by
  have hkeys : cur.map (SerializedEntry.key ∘ SerializedEntry.ofPair) = cur.map KeyValuePair.key :=
    List.map_congr_left fun e he => SerializedEntry.key_ofPair (h e he)
  rw [addKeys, building, List.map_map, hkeys]

theorem count_building : ((building cur).count == 0) = cur.isEmpty := by
  cases cur <;> rfl

/-- The open block is closed just when the packing closes the group. -/
theorem tryAppend_building {e : KeyValuePair} (he : WireFits e) :
    (building cur).tryAppend (.ofPair e) cur.isEmpty =
      if cur ≠ [] ∧ Config.sstableBlockSize < 4 + (Pack.total SSTableFile.wireSize cur + SSTableFile.wireSize e)
        then (false, building cur) else (true, building (cur ++ [e])) := by
  have hlimit : Config.sstableBlockSize = 4096 := rfl
  have hlen : 17 * cur.length ≤ Pack.total SSTableFile.wireSize cur := by
    induction cur with
    | nil => exact Nat.le_refl _
    | cons x cur ih =>
      rw [Pack.total_cons, List.length_cons, SSTableFile.wireSize]
      omega
  rw [tryAppend, SerializedEntry.wireSize_ofPair he]
  have hcond : (!cur.isEmpty && decide (0 < (building cur).count) &&
      decide (Config.sstableBlockSize < 4 + ((building cur).dataSize + SSTableFile.wireSize e))) =
      decide (cur ≠ [] ∧ Config.sstableBlockSize < 4 + (Pack.total SSTableFile.wireSize cur + SSTableFile.wireSize e)) := by
    cases cur <;> simp [building]
  rw [hcond]
  by_cases h : cur ≠ [] ∧ Config.sstableBlockSize < 4 + (Pack.total SSTableFile.wireSize cur + SSTableFile.wireSize e)
  · rw [if_pos (decide_eq_true h), if_pos h]
  · rw [if_neg (by simpa using h), if_neg h]
    have hcount : (cur.length + 1) % 2 ^ 32 = cur.length + 1 := by
      refine Nat.mod_eq_of_lt ?_
      rw [not_and_or, not_not] at h
      rcases h with rfl | h
      · decide
      · omega
    simp only [building, List.map_append, List.map_cons, List.map_nil, Pack.total_append, List.length_append,
      List.length_singleton, hcount]
    rfl

theorem tryAppend_reset {e : KeyValuePair} (he : WireFits e) : (reset.tryAppend (.ofPair e) true).2 = building [e] := by
  have h := @tryAppend_building [] e he
  rw [if_neg (by simp)] at h
  exact congrArg Prod.snd h

end BlockBuilder

/-! ## Where the blocks stand -/

/-- The offsets of blocks that begin at `start`. -/
def places (start : ℕ) (blocks : List (List KeyValuePair)) : List ℕ :=
  (List.range blocks.length).map fun i => start + ((blocks.take i).flatMap blockBytes).length

theorem places_append (start : ℕ) (blocks : List (List KeyValuePair)) (b : List KeyValuePair) :
    places start (blocks ++ [b]) = places start blocks ++ [start + (blocks.flatMap blockBytes).length] := by
  rw [places, List.length_append, List.length_singleton, List.range_succ, List.map_append, List.map_singleton,
    List.take_left]
  refine congrArg (· ++ _) (List.map_congr_left fun i hi => ?_)
  rw [List.take_append_of_le_length (List.mem_range.mp hi).le]

/-- The first key of a block. -/
def firstKey (b : List KeyValuePair) : Bytes := (b.head?.map KeyValuePair.key).getD []

/-- The checksum is that of what has been written behind the blocks. -/
theorem finish_area {file minKey maxKey area : Bytes} {bloom : RawBloom} {aborted : Option (List ℕ)} {offsets : List ℕ}
    {firstKeys : List Bytes} (harea : minKey ++ (maxKey ++ (bloom.fileBytes ++ (abortedBytes aborted ++
      (leBytes 4 offsets.length ++ (offsets.flatMap (leBytes 8) ++ firstKeys.flatMap firstKeyBytes))))) = area) :
    finish file minKey maxKey bloom aborted offsets firstKeys =
      file ++ (area ++ (leBytes 4 (crc32 area) ++ (leBytes 8 file.length ++ leBytes 4 Config.sstableFooterMagic))) := by
  have hread : ((file ++ area).drop file.length).take ((file ++ area).length - file.length) = area := by
    rw [List.drop_left, List.length_append, Nat.add_sub_cancel_left, List.take_length]
  simp only [finish, harea, hread]
  rw [List.append_assoc]

/-- What both writers make of the blocks of a file is the file. -/
theorem finish_eq {f : SSTableFile} {minKey maxKey : Bytes} {aborted : Option (List ℕ)} (hmin : f.minKey = minKey)
    (hmax : f.maxKey = maxKey) (habs : f.abortedBatchTs = aborted.getD []) {n : ℕ} (hn : f.entryCount = n) :
    finish (headerBytes n minKey maxKey ++ f.blocks.flatMap blockBytes) minKey maxKey (.ofFilter f.bloom) aborted
      (places (headerBytes n minKey maxKey).length f.blocks) (f.blocks.map firstKey) = fileBytes f := by
  subst hmin hmax hn
  have hhead : headerBytes f.entryCount f.minKey f.maxKey = header f.entryCount (keyLengths f) := rfl
  have hlen : (header f.entryCount (keyLengths f)).length = 24 := by rw [length_header, length_keyLengths]
  have hplaces : places 24 f.blocks = blockOffsets f := rfl
  have habytes : abortedBytes aborted = leBytes 4 f.abortedBatchTs.length ++ f.abortedBatchTs.flatMap (leBytes 8) := by
    rw [habs]
    cases aborted <;> rfl
  have harea : f.minKey ++ (f.maxKey ++ ((RawBloom.ofFilter f.bloom).fileBytes ++ (abortedBytes aborted ++
      (leBytes 4 (blockOffsets f).length ++ ((blockOffsets f).flatMap (leBytes 8) ++
        (f.blocks.map firstKey).flatMap firstKeyBytes))))) = filterArea f := by
    rw [habytes, blockOffsets, List.length_map, List.length_range]
    simp only [filterArea, RawBloom.fileBytes, RawBloom.ofFilter, List.append_assoc]
    rfl
  have hoff : (header f.entryCount (keyLengths f) ++ f.blocks.flatMap blockBytes).length = filterOffset f := by
    rw [List.length_append, hlen, filterOffset]
  rw [hhead, hlen, hplaces, finish_area harea, hoff, fileBytes, footer, List.append_assoc]

/-! ## The blocks so far -/

/-- The closed blocks of the entries so far, and the open one. -/
def packed (es : List KeyValuePair) : List (List KeyValuePair) × List KeyValuePair :=
  es.foldl (Pack.push SSTableFile.wireSize Config.sstableBlockSize 4) ([], [])

theorem firstKey_append {cur : List KeyValuePair} (hne : cur ≠ []) (e : KeyValuePair) : firstKey (cur ++ [e]) = firstKey cur := by
  rw [firstKey, List.head?_append_of_ne_nil _ hne]
  rfl

section Packed

variable {es : List KeyValuePair} {e : KeyValuePair}

theorem packed_append (es : List KeyValuePair) (e : KeyValuePair) :
    packed (es ++ [e]) = Pack.push SSTableFile.wireSize Config.sstableBlockSize 4 (packed es) e := by
  rw [packed, List.foldl_append]
  rfl

theorem close_packed (es : List KeyValuePair) : Pack.close (packed es) = SSTableFile.packBlocks es := Pack.close_push ..

theorem fits_packed (h : ∀ e ∈ es, WireFits e) : ∀ e ∈ (packed es).2, WireFits e := by
  have hflat : (Pack.close (packed es)).flatten = es := Pack.flatten_push ..
  intro e he
  refine h e (hflat ▸ ?_)
  rw [Pack.close, if_neg (by rintro hnil; rw [List.isEmpty_iff.mp hnil] at he; cases he)]
  exact List.mem_flatten.mpr ⟨_, List.mem_append_right _ (List.mem_singleton_self _), he⟩

/-- What becomes of the blocks with one more entry, for an entry that the builder takes and for one that it does not. -/
theorem packed_cases (es : List KeyValuePair) (he : WireFits e) :
    (∃ taken, (BlockBuilder.building (packed es).2).tryAppend (.ofPair e) (packed es).2.isEmpty =
        (true, taken) ∧ taken = .building ((packed es).2 ++ [e]) ∧
      packed (es ++ [e]) = ((packed es).1, (packed es).2 ++ [e])) ∨
    (∃ refused, (BlockBuilder.building (packed es).2).tryAppend (.ofPair e) (packed es).2.isEmpty = (false, refused)) ∧
      (packed es).2 ≠ [] ∧ packed (es ++ [e]) = ((packed es).1 ++ [(packed es).2], [e]) := by
  rw [packed_append, Pack.push, BlockBuilder.tryAppend_building he]
  split
  · next h => exact .inr ⟨⟨_, rfl⟩, h.1, rfl⟩
  · exact .inl ⟨_, rfl, rfl, rfl⟩

/-- An entry is the first of its block when it has been refused or has found the builder empty. -/
theorem firstKeys_taken (h : packed (es ++ [e]) = ((packed es).1, (packed es).2 ++ [e])) :
    (SSTableFile.packBlocks (es ++ [e])).map firstKey = (SSTableFile.packBlocks es).map firstKey ++
      if (packed es).2.isEmpty then [e.key] else [] := by
  rw [← close_packed, ← close_packed, h, Pack.close, Pack.close]
  by_cases hcur : (packed es).2 = []
  · rw [hcur]
    simp only [List.nil_append, List.isEmpty_cons, Bool.false_eq_true, if_false, List.isEmpty_nil, if_true, List.map_append]
    rfl
  · have hempty : (packed es).2.isEmpty = false := List.isEmpty_eq_false_iff.mpr hcur
    have hempty' : ((packed es).2 ++ [e]).isEmpty = false := by simp
    simp only [hempty, hempty', Bool.false_eq_true, if_false, List.map_append, List.map_singleton, firstKey_append hcur,
      List.append_nil]

theorem firstKeys_refused (hne : (packed es).2 ≠ []) (h : packed (es ++ [e]) = ((packed es).1 ++ [(packed es).2], [e])) :
    (SSTableFile.packBlocks (es ++ [e])).map firstKey = (SSTableFile.packBlocks es).map firstKey ++ [e.key] := by
  rw [← close_packed, ← close_packed, h, Pack.close, Pack.close, List.isEmpty_eq_false_iff.mpr hne]
  simp only [List.isEmpty_cons, Bool.false_eq_true, if_false, List.map_append]
  rfl

end Packed

/-! ## What `Write` writes -/

namespace Writing

theorem append_taken {w : Writing} {kv : KeyValuePair} {b : BlockBuilder}
    (h : w.builder.tryAppend (.ofPair kv) (w.builder.count == 0) = (true, b)) :
    w.append kv = { w with firstKeys := w.firstKeys ++ (if w.builder.count == 0 then [kv.key] else []), builder := b } := by
  rw [append]
  by_cases hcount : w.builder.count == 0
  · simp only [hcount, if_true] at h ⊢
    simp only [h]
  · rw [Bool.not_eq_true] at hcount
    simp only [hcount, Bool.false_eq_true, if_false, List.append_nil] at h ⊢
    simp only [h]

theorem append_refused {w : Writing} {kv : KeyValuePair} {b : BlockBuilder}
    (h : w.builder.tryAppend (.ofPair kv) (w.builder.count == 0) = (false, b)) (hcount : (w.builder.count == 0) = false) :
    w.append kv = { w.writeBlock with
      firstKeys := w.firstKeys ++ [kv.key]
      builder := (BlockBuilder.reset.tryAppend (.ofPair kv) true).2 } := by
  rw [append]
  simp only [hcount, Bool.false_eq_true, if_false] at h ⊢
  simp only [h]
  rfl

section Run

variable (head : Bytes) (bloom : RawBloom)

/-- Behind the closed blocks `bs`, with the first keys `keys`. -/
def behind (bs : List (List KeyValuePair)) (keys : List Bytes) (builder : BlockBuilder) : Writing where
  file := head ++ bs.flatMap blockBytes
  bloom := (bs.flatten.map KeyValuePair.key).foldl RawBloom.add bloom
  offsets := places head.length bs
  firstKeys := keys
  builder := builder

/-- When the loop has been through `es`. -/
def through (es : List KeyValuePair) : Writing :=
  behind head bloom (packed es).1 ((SSTableFile.packBlocks es).map firstKey) (.building (packed es).2)

variable {head bloom}

theorem through_nil : through head bloom [] = ⟨head, bloom, [], [], .reset⟩ :=
  congrArg (Writing.mk · bloom [] [] .reset) (List.append_nil head)

theorem writeBlock_behind {bs : List (List KeyValuePair)} {keys : List Bytes} {cur : List KeyValuePair}
    (h : ∀ e ∈ cur, WireFits e) : (behind head bloom bs keys (.building cur)).writeBlock =
      behind head bloom (bs ++ [cur]) keys (.building cur) := by
  have hfile : head ++ bs.flatMap blockBytes ++ blockBytes cur = head ++ (bs ++ [cur]).flatMap blockBytes := by
    rw [List.flatMap_append, List.flatMap_singleton, List.append_assoc]
  have hkeys : (cur.map KeyValuePair.key).foldl RawBloom.add ((bs.flatten.map KeyValuePair.key).foldl RawBloom.add bloom) =
      ((bs ++ [cur]).flatten.map KeyValuePair.key).foldl RawBloom.add bloom := by
    rw [List.flatten_append, List.map_append, List.foldl_append, List.flatten_singleton]
  simp only [writeBlock, behind, BlockBuilder.block_building h, BlockBuilder.addKeys_building h, places_append, hfile, hkeys,
    List.length_append]

theorem append_through {es : List KeyValuePair} {e : KeyValuePair} (h : ∀ x ∈ es, WireFits x) (he : WireFits e) :
    (through head bloom es).append e = through head bloom (es ++ [e]) := by
  have hcur := fits_packed h
  rcases packed_cases es he with ⟨_, htry, rfl, hpacked⟩ | ⟨⟨_, htry⟩, hne, hpacked⟩
  · rw [append_taken (by rw [through, behind, BlockBuilder.count_building, htry]), through, through, firstKeys_taken hpacked,
      hpacked]
    simp only [behind, BlockBuilder.count_building]
  · have hempty : (packed es).2.isEmpty = false := List.isEmpty_eq_false_iff.mpr hne
    rw [append_refused (by rw [through, behind, BlockBuilder.count_building, htry])
      (by rw [through, behind, BlockBuilder.count_building, hempty]), through, through, writeBlock_behind hcur,
      firstKeys_refused hne hpacked, hpacked, BlockBuilder.tryAppend_reset he]
    rfl

variable (head bloom) in
theorem foldl_append {done es : List KeyValuePair} (h : ∀ x ∈ done ++ es, WireFits x) :
    es.foldl append (through head bloom done) = through head bloom (done ++ es) := by
  induction es generalizing done with
  | nil => rw [List.append_nil, List.foldl_nil]
  | cons e es ih =>
    rw [List.append_cons] at h ⊢
    rw [List.foldl_cons, append_through (fun x hx => h x (by simp [hx])) (h e (by simp)), ih h]

/-- The open block is written at the end. -/
theorem last_block {es : List KeyValuePair} (h : ∀ x ∈ es, WireFits x) :
    (if 0 < (through head bloom es).builder.count then (through head bloom es).writeBlock else through head bloom es) =
      behind head bloom (SSTableFile.packBlocks es) ((SSTableFile.packBlocks es).map firstKey) (.building (packed es).2) := by
  have hclose : SSTableFile.packBlocks es = Pack.close (packed es) := (close_packed es).symm
  rw [Pack.close] at hclose
  by_cases hcur : (packed es).2 = []
  · rw [hcur, List.isEmpty_nil, if_pos rfl] at hclose
    rw [if_neg (by rw [through, behind, hcur]; exact Nat.lt_irrefl 0), through, ← hclose]
  · have hpos : 0 < (through head bloom es).builder.count := List.length_pos_iff.mpr hcur
    rw [List.isEmpty_eq_false_iff.mpr hcur, if_neg Bool.false_ne_true] at hclose
    rw [if_pos hpos, through, writeBlock_behind (fits_packed h), ← hclose]

end Run

end Writing

/-- The filter of the blocks is that of the entries. -/
theorem bloom_eq (sizing : ℕ → ℕ × ℕ) (n : ℕ) (es : List KeyValuePair) :
    ((SSTableFile.packBlocks es).flatten.map KeyValuePair.key).foldl RawBloom.add (.make (sizing n).1 (sizing n).2) =
      .ofFilter (BloomFilter.ofKeys sizing n (es.map KeyValuePair.key)) := by
  rw [SSTableFile.packBlocks, Pack.pack_flatten]
  exact RawBloom.ofKeys_eq (sizing n).1 (sizing n).2 (es.map KeyValuePair.key)

/-- The loop of `SSTable::Write` writes the file with the packed blocks of the entries, for entries in any order, as long as
the size of each entry fits the 32 bits in which it is computed. -/
theorem write_eq (sizing : ℕ → ℕ × ℕ) (es : List KeyValuePair) (aborted : Option (List ℕ)) (h : ∀ e ∈ es, WireFits e) :
    write sizing es aborted = fileBytes (SSTableFile.write sizing es (aborted.getD [])) := by
  have hloop := fun head bloom => @Writing.foldl_append head bloom [] es h
  simp only [Writing.through_nil, List.nil_append] at hloop
  simp only [write, hloop, Writing.last_block h, Writing.behind, bloom_eq]
  exact @finish_eq (SSTableFile.write sizing es (aborted.getD [])) _ _ aborted rfl rfl rfl _ rfl

theorem write_eq_twoEntries : (∀ e ∈ twoEntries, WireFits e) ∧ write (fun _ => (64, 1)) twoEntries (some [7]) =
    fileBytes (SSTableFile.write (fun _ => (64, 1)) twoEntries [7]) :=
  ⟨by decide, write_eq (fun _ => (64, 1)) twoEntries (some [7]) (by decide)⟩

/-! ## What `WriteFromWalk` writes -/

def blockData (b : List KeyValuePair) : BlockData := ⟨blockBytes b, firstKey b, blockPayload b⟩

namespace Flushing

theorem flushBest_taken {w : Flushing} {b : BlockBuilder} (hbest : w.hasBest = true)
    (h : w.builder.tryAppend (.ofPair w.best) (w.builder.count == 0) = (true, b)) : w.flushBest = { w with
      blockFirstKey := if w.builder.count == 0 then w.best.key else w.blockFirstKey
      builder := b
      minKey := if w.minKey.isEmpty then w.best.key else w.minKey
      maxKey := w.best.key
      written := w.written + 1
      hasBest := false } := by
  rw [flushBest]
  by_cases hcount : w.builder.count == 0
  · simp only [hcount, hbest, Bool.not_true, Bool.false_eq_true, if_false, if_true] at h ⊢
    simp only [h]
  · rw [Bool.not_eq_true] at hcount
    simp only [hcount, hbest, Bool.not_true, Bool.false_eq_true, if_false] at h ⊢
    simp only [h]

theorem flushBest_refused {w : Flushing} {b : BlockBuilder} (hbest : w.hasBest = true)
    (h : w.builder.tryAppend (.ofPair w.best) (w.builder.count == 0) = (false, b)) (hcount : (w.builder.count == 0) = false) :
    w.flushBest = { w.freezeBlock with
      blockFirstKey := w.best.key
      builder := (BlockBuilder.reset.tryAppend (.ofPair w.best) true).2
      minKey := if w.minKey.isEmpty then w.best.key else w.minKey
      maxKey := w.best.key
      written := w.written + 1
      hasBest := false } := by
  rw [flushBest]
  simp only [hcount, hbest, Bool.not_true, Bool.false_eq_true, if_false] at h ⊢
  simp only [h]
  rfl

section Run

variable (bloom : RawBloom)

/-- Behind the closed blocks `bs`, when `es` have been handed to the builder. -/
def behind (bs : List (List KeyValuePair)) (cur es : List KeyValuePair) (best : KeyValuePair) (hasBest : Bool) : Flushing where
  bloom := (bs.flatten.map KeyValuePair.key).foldl RawBloom.add bloom
  builder := .building cur
  blocks := bs.map blockData
  minKey := ((es.map KeyValuePair.key).find? fun k => !k.isEmpty).getD []
  maxKey := (es.getLast?.map KeyValuePair.key).getD []
  blockFirstKey := firstKey cur
  written := es.length
  best := best
  hasBest := hasBest

def through (es : List KeyValuePair) (best : KeyValuePair) (hasBest : Bool) : Flushing :=
  behind bloom (packed es).1 (packed es).2 es best hasBest

variable {bloom}

theorem freezeBlock_behind {bs : List (List KeyValuePair)} {cur es : List KeyValuePair} {best : KeyValuePair} {hasBest : Bool}
    (h : ∀ e ∈ cur, WireFits e) : (behind bloom bs cur es best hasBest).freezeBlock =
      behind bloom (bs ++ [cur]) cur es best hasBest := by
  have hkeys : (cur.map KeyValuePair.key).foldl RawBloom.add ((bs.flatten.map KeyValuePair.key).foldl RawBloom.add bloom) =
      ((bs ++ [cur]).flatten.map KeyValuePair.key).foldl RawBloom.add bloom := by
    rw [List.flatten_append, List.map_append, List.foldl_append, List.flatten_singleton]
  simp only [freezeBlock, behind, BlockBuilder.block_building h, BlockBuilder.payload_building h,
    BlockBuilder.addKeys_building h, hkeys, List.map_append]
  rfl

/-- The smallest key is the first that is not empty. -/
theorem minKey_append (es : List KeyValuePair) (e : KeyValuePair) :
    (((es ++ [e]).map KeyValuePair.key).find? fun k => !k.isEmpty).getD [] =
      if (((es.map KeyValuePair.key).find? fun k => !k.isEmpty).getD []).isEmpty then e.key
      else ((es.map KeyValuePair.key).find? fun k => !k.isEmpty).getD [] := by
  rw [List.map_append, List.find?_append]
  cases hfind : (es.map KeyValuePair.key).find? fun k => !k.isEmpty with
  | none => cases hkey : e.key <;> simp [hkey]
  | some k =>
    have hk := List.find?_some hfind
    rw [Bool.not_eq_true'] at hk
    simp [hk]

theorem maxKey_append (es : List KeyValuePair) (e : KeyValuePair) :
    ((es ++ [e]).getLast?.map KeyValuePair.key).getD [] = e.key := by
  rw [List.getLast?_concat]
  rfl

theorem flushBest_through {es : List KeyValuePair} {best : KeyValuePair} (h : ∀ x ∈ es, WireFits x) (hbest : WireFits best) :
    (through bloom es best true).flushBest = through bloom (es ++ [best]) best false := by
  have hcur := fits_packed h
  rcases packed_cases es hbest with ⟨_, htry, rfl, hpacked⟩ | ⟨⟨_, htry⟩, hne, hpacked⟩
  · rw [flushBest_taken rfl (by rw [through, behind, BlockBuilder.count_building, htry]), through, through, hpacked]
    have hfirst : firstKey ((packed es).2 ++ [best]) = if (packed es).2.isEmpty then best.key else firstKey (packed es).2 := by
      by_cases hne : (packed es).2 = []
      · rw [hne]
        rfl
      · rw [firstKey_append hne, List.isEmpty_eq_false_iff.mpr hne, if_neg Bool.false_ne_true]
    simp only [behind, BlockBuilder.count_building, hfirst, minKey_append, maxKey_append, List.length_append,
      List.length_singleton]
    rfl
  · have hempty : (packed es).2.isEmpty = false := List.isEmpty_eq_false_iff.mpr hne
    rw [flushBest_refused rfl (by rw [through, behind, BlockBuilder.count_building, htry])
      (by rw [through, behind, BlockBuilder.count_building, hempty]), through, through, freezeBlock_behind hcur, hpacked]
    simp only [behind, BlockBuilder.tryAppend_reset hbest, minKey_append, maxKey_append, List.length_append,
      List.length_singleton]
    rfl

variable (bloom) in
/-- What the loop hands to the builder is what the selection keeps of the walk. -/
theorem foldl_visit {walk es : List KeyValuePair} {best : KeyValuePair} (hasBest : Bool) (h : ∀ x ∈ es, WireFits x)
    (hbest : WireFits best) (hwalk : ∀ x ∈ walk, WireFits x) :
    ∃ last, (walk.foldl visit (through bloom es best hasBest)).flushBest =
      through bloom (es ++ SSTableFile.selectNewest best hasBest walk) last false := by
  induction walk generalizing es best hasBest with
  | nil =>
    cases hasBest with
    | false => exact ⟨best, by rw [SSTableFile.selectNewest, if_neg Bool.false_ne_true, List.append_nil]; rfl⟩
    | true => exact ⟨best, flushBest_through h hbest⟩
  | cons e walk ih =>
    have he := hwalk e List.mem_cons_self
    have hrest : ∀ x ∈ walk, WireFits x := fun x hx => hwalk x (List.mem_cons_of_mem _ hx)
    rw [List.foldl_cons, SSTableFile.selectNewest]
    by_cases hkey : e.key ≠ best.key
    · rw [visit, if_pos (show e.key ≠ (through bloom es best hasBest).best.key from hkey), if_pos hkey]
      cases hasBest with
      | false =>
        obtain ⟨last, hlast⟩ := ih true h he hrest
        exact ⟨last, hlast⟩
      | true =>
        have hdone : ∀ x ∈ es ++ [best], WireFits x := by
          intro x hx
          rcases List.mem_append.mp hx with hx | hx
          · exact h x hx
          · rwa [List.mem_singleton.mp hx]
        obtain ⟨last, hlast⟩ := ih true hdone he hrest
        rw [List.append_assoc] at hlast
        refine ⟨last, ?_⟩
        rw [flushBest_through h hbest, if_pos rfl]
        exact hlast
    · rw [visit, if_neg (show ¬e.key ≠ (through bloom es best hasBest).best.key from hkey), if_neg hkey]
      by_cases hts : best.timestamp < e.timestamp
      · rw [if_pos (show (through bloom es best hasBest).best.timestamp < e.timestamp from hts), if_pos hts]
        exact ih hasBest h he hrest
      · rw [if_neg (show ¬(through bloom es best hasBest).best.timestamp < e.timestamp from hts), if_neg hts]
        exact ih hasBest h hbest hrest

theorem last_block {es : List KeyValuePair} {best : KeyValuePair} (h : ∀ x ∈ es, WireFits x) :
    (if 0 < (through bloom es best false).builder.count then (through bloom es best false).freezeBlock
      else through bloom es best false) = behind bloom (SSTableFile.packBlocks es) (packed es).2 es best false := by
  have hclose : SSTableFile.packBlocks es = Pack.close (packed es) := (close_packed es).symm
  rw [Pack.close] at hclose
  by_cases hcur : (packed es).2 = []
  · rw [hcur, List.isEmpty_nil, if_pos rfl] at hclose
    rw [if_neg (by rw [through, behind, hcur]; exact Nat.lt_irrefl 0), through, ← hclose]
  · have hpos : 0 < (through bloom es best false).builder.count := List.length_pos_iff.mpr hcur
    rw [List.isEmpty_eq_false_iff.mpr hcur, if_neg Bool.false_ne_true] at hclose
    rw [if_pos hpos, through, freezeBlock_behind (fits_packed h), ← hclose]

end Run

end Flushing

theorem foldl_placed (head : Bytes) (done blocks : List (List KeyValuePair)) :
    (blocks.map blockData).foldl (fun s bd => (s.1 ++ bd.data, s.2 ++ [s.1.length]))
        (head ++ done.flatMap blockBytes, places head.length done) =
      (head ++ (done ++ blocks).flatMap blockBytes, places head.length (done ++ blocks)) := by
  induction blocks generalizing done with
  | nil => rw [List.append_nil]; rfl
  | cons b blocks ih =>
    have hstep := ih (done ++ [b])
    rw [places_append, List.flatMap_append, List.flatMap_singleton, ← List.append_assoc, List.append_assoc done] at hstep
    rw [List.map_cons, List.foldl_cons, List.length_append]
    exact hstep

/-- The loops of `SSTable::WriteFromWalk` write the file with the packed blocks of the newest versions, and put the payload
of each block of that file into the cache under its index. -/
theorem writeFromWalk_eq (sizing : ℕ → ℕ × ℕ) (walk : List KeyValuePair) (entryCount : ℕ) (aborted : Option (List ℕ))
    (h : ∀ e ∈ walk, WireFits e) : writeFromWalk sizing walk entryCount aborted =
      (fileBytes (SSTableFile.writeFromWalk sizing walk entryCount (aborted.getD [])),
        (SSTableFile.writeFromWalk sizing walk entryCount (aborted.getD [])).blocks.zipIdx.map
          fun p => (p.2 % 2 ^ 32, blockPayload p.1)) := by
  have hes : ∀ e ∈ SSTableFile.flushEntries walk, WireFits e := fun e he => h e (SSTableFile.flushEntries_subset walk e he)
  have hstart : ∀ bloom, (⟨bloom, .reset, [], [], [], [], 0, ⟨[], [], 0, false⟩, false⟩ : Flushing) =
      .through bloom [] ⟨[], [], 0, false⟩ false := fun _ => rfl
  have hputs : ∀ p ∈ ((SSTableFile.packBlocks (SSTableFile.flushEntries walk)).map blockData).zipIdx,
      (!p.1.uncompressed.isEmpty) = true := by
    intro p hp
    obtain ⟨b, -, hb⟩ := List.mem_map.mp (List.fst_mem_of_mem_zipIdx hp)
    rw [← hb]
    rfl
  have hplaced : ∀ head, ((SSTableFile.packBlocks (SSTableFile.flushEntries walk)).map blockData).foldl
      (fun s bd => (s.1 ++ bd.data, s.2 ++ [s.1.length])) (head, ([] : List ℕ)) =
        (head ++ (SSTableFile.packBlocks (SSTableFile.flushEntries walk)).flatMap blockBytes,
          places head.length (SSTableFile.packBlocks (SSTableFile.flushEntries walk))) := by
    intro head
    have hfold := foldl_placed head [] (SSTableFile.packBlocks (SSTableFile.flushEntries walk))
    rwa [List.flatMap_nil, List.append_nil] at hfold
  have hkeys : ((SSTableFile.packBlocks (SSTableFile.flushEntries walk)).map blockData).map BlockData.firstKey =
      (SSTableFile.packBlocks (SSTableFile.flushEntries walk)).map firstKey := List.map_map
  obtain ⟨last, hlast⟩ := Flushing.foldl_visit (RawBloom.make (sizing (if 0 < entryCount then entryCount else 1)).1
    (sizing (if 0 < entryCount then entryCount else 1)).2) false (fun x hx => absurd hx List.not_mem_nil)
    (show WireFits ⟨[], [], 0, false⟩ by decide) h
  change _ = Flushing.through _ (SSTableFile.flushEntries walk) last false at hlast
  simp only [writeFromWalk, hstart, hlast, Flushing.last_block hes, Flushing.behind, bloom_eq, hplaced, hkeys,
    List.filter_eq_self.mpr hputs]
  refine Prod.ext (@finish_eq (SSTableFile.writeFromWalk sizing walk entryCount (aborted.getD [])) _ _ aborted rfl rfl rfl _ rfl)
    ?_
  rw [List.zipIdx_map, List.map_map]
  rfl

theorem writeFromWalk_eq_twoVersions : (∀ e ∈ [⟨[1], [2], 3, false⟩, ⟨[1], [], 4, true⟩], WireFits e) ∧
    (writeFromWalk (fun _ => (64, 1)) [⟨[1], [2], 3, false⟩, ⟨[1], [], 4, true⟩] 2 (some [7])).2 =
      [(0, blockPayload [⟨[1], [], 4, true⟩])] := by
  have h : ∀ e ∈ [(⟨[1], [2], 3, false⟩ : KeyValuePair), ⟨[1], [], 4, true⟩], WireFits e := by decide
  exact ⟨h, by rw [writeFromWalk_eq _ _ 2 (some [7]) h]; decide +kernel⟩

end Kvdb.SSTableBytes.Writers
