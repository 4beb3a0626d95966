import Kvdb.SSTable.FileIterator

/-! # What the calls of a file iterator do in a stored file

`Place` is where an iterator has got to: the number of the block it takes next, the file stream, the
count of entries, `block_data` and the cache. `ReadNextBlock` moves it by a block from the cache (`takeCached`) or from
the file (`takeFile`); `Next` and the loop of `SeekToKey` go through the entries of a block first. -/
namespace Kvdb.SSTableBytes.FileIterator
set_option autoImplicit false

open LittleEndian InputStream

/-- The bytes before block `q`. -/
def offset (blocks : List StoredBlock) (q : ℕ) : ℕ := 24 + ((blocks.take q).flatMap StoredBlock.bytes).length

/-- The stream before block `q`. -/
def before (data : Bytes) (blocks : List StoredBlock) (q : ℕ) : InputStream := ⟨data, offset blocks q, false⟩

structure Place where
  next : ℕ
  file : InputStream
  read : ℕ
  blockData : Bytes
  cache : ℕ → Option Bytes

namespace Place

/-- The block is taken from the cache. -/
def takeCached (s : Place) (sb : StoredBlock) : Place :=
  { s with next := s.next + 1, read := (s.read + sb.entries.length) % 2 ^ 32 }

/-- The block is read from the file. -/
def takeFile (o : Options) (s : Place) (sb : StoredBlock) : Place where
  next := s.next + 1
  file := s.file.advance sb.bytes.length
  read := (s.read + sb.entries.length) % 2 ^ 32
  blockData := sb.payload
  cache := if o.populate && o.reader then fun i => if i = s.next then some sb.payload else s.cache i else s.cache

end Place

/-- The iterator is at the place. -/
structure Ready (blocks : List StoredBlock) (s : Place) (it : FileIterator) : Prop where
  total : it.totalEntries = (blocks.flatMap StoredBlock.pairs).length
  next : it.curBlock = s.next
  file : it.file = s.file
  read : it.readEntries = s.read
  blockData : it.blockData = s.blockData
  cache : it.cache = s.cache

/-- The iterator stands at entry `p` of the block that it has taken last. -/
structure Standing (blocks : List StoredBlock) (sb : StoredBlock) (p : ℕ) (s : Place)
    (it : FileIterator) : Prop extends Ready blocks s it where
  member : sb ∈ blocks
  cursor : CursorAt sb (p + 1) it.block
  entry : sb.pairs[p]? = some it.current
  pos : it.pos = p

variable {o : Options} {data rest tail : Bytes} {blocks : List StoredBlock} {it : FileIterator} {s : Place}
  {sb : StoredBlock} {p : ℕ}

/-! ## `ReadNextBlock` -/

theorem ahead_offset (h : Stored data blocks rest tail) (q : ℕ) :
    Ahead (before data blocks q) ((blocks.drop q).flatMap StoredBlock.bytes ++ tail) := by
  refine ⟨rfl, ?_⟩
  have hbytes : blocks.flatMap StoredBlock.bytes =
      (blocks.take q).flatMap StoredBlock.bytes ++ (blocks.drop q).flatMap StoredBlock.bytes := by
    rw [← List.flatMap_append, List.take_append_drop]
  have hlen : offset blocks q =
      (header (blocks.flatMap StoredBlock.pairs).length rest ++ (blocks.take q).flatMap StoredBlock.bytes).length := by
    rw [offset, List.length_append, length_header, h.rest]
  have hdata : data = (header (blocks.flatMap StoredBlock.pairs).length rest ++
      (blocks.take q).flatMap StoredBlock.bytes) ++ ((blocks.drop q).flatMap StoredBlock.bytes ++ tail) := by
    rw [h.data, hbytes]
    simp only [List.append_assoc]
  have hdrop : data.drop (offset blocks q) = (blocks.drop q).flatMap StoredBlock.bytes ++ tail := by
    rw [hlen, hdata, List.drop_left]
  exact ⟨[], (List.append_nil _).trans hdrop.symm⟩

theorem blockOffsets_eq (f : SSTableFile) : blockOffsets f =
    (List.range (f.blocks.map StoredBlock.ofPairs).length).map (offset (f.blocks.map StoredBlock.ofPairs)) := by
  rw [blockOffsets, List.length_map]
  refine List.map_congr_left fun i _ => ?_
  rw [blockOffset, offset, ← List.map_take, List.flatMap_map]
  simp only [StoredBlock.ofPairs_bytes]

/-- The block in front of the stream. -/
theorem ahead_block (h : Stored data blocks rest tail) {q : ℕ} (hq : blocks[q]? = some sb) :
    Ahead (before data blocks q) sb.bytes := by
  have hahead := ahead_offset h q
  have hcons : blocks.drop q = sb :: blocks.drop (q + 1) := by
    obtain ⟨hlt, hget⟩ := List.getElem?_eq_some_iff.mp hq
    rw [List.drop_eq_getElem_cons hlt, hget]
  rw [hcons, List.flatMap_cons, List.append_assoc] at hahead
  exact hahead.left

theorem overwrite_full (old bs : Bytes) : overwrite old bs.length bs = bs := by
  rw [overwrite, List.drop_eq_nil_of_le, List.append_nil]
  rw [List.length_append, List.length_take, List.length_replicate]
  omega

theorem before_succ {q : ℕ} (hq : blocks[q]? = some sb) :
    before data blocks (q + 1) = (before data blocks q).advance sb.bytes.length := by
  rw [before, offset, List.take_add_one, hq, List.flatMap_append, List.length_append]
  simp [before, offset, advance, Nat.add_assoc]

/-- Bytes that look like a block are read as one. -/
theorem readFile_chunk {file : InputStream} {crc payload : Bytes}
    (h : file.Ahead (crc ++ (Config.compressionNone :: (leBytes 4 payload.length ++ payload)))) (hcrc : crc.length = 4)
    (hsize : payload.length < 2 ^ 32) (blockData : Bytes) :
    readFile file blockData = (payload, file.advance (9 + payload.length)) := by
  have hword := h.left.getLe
  have hcomp := h.right
  rw [hcrc] at hword hcomp
  have hbyte := hcomp.get
  obtain ⟨hcsz, hpayload⟩ := hcomp.tail.word hsize
  have hread := hpayload.read rfl
  rw [readFile, hword]
  simp only [hbyte, hcsz, hread, overwrite_full]
  rw [if_neg (by decide)]
  simp only [advance_advance]

theorem readFile_ahead {file : InputStream} {sb : StoredBlock} (h : file.Ahead sb.bytes) (hfits : sb.Fits)
    (blockData : Bytes) : readFile file blockData = (sb.payload, file.advance sb.bytes.length) := by
  rw [readFile_chunk h hfits.crc hfits.size, StoredBlock.length_bytes hfits]

theorem readFile_stored (h : Stored data blocks rest tail) {q : ℕ} (hq : blocks[q]? = some sb) (blockData : Bytes) :
    readFile (before data blocks q) blockData = (sb.payload, before data blocks (q + 1)) := by
  rw [readFile_ahead (ahead_block h hq) (h.fits sb (List.mem_of_getElem? hq)), before_succ hq]

theorem readEntry_stored (it : FileIterator) {j : ℕ} (hfits : sb.Fits) (hb : CursorAt sb j it.block) {e : StoredEntry}
    (he : sb.entries[it.pos]? = some e) :
    ∃ b, it.readEntry = { it with block := b, current := e.pair } ∧ CursorAt sb (it.pos + 1) b := by
  obtain ⟨b, hread, hb'⟩ := hb.readAt hfits he it.current
  refine ⟨b, ?_, hb'⟩
  rw [FileIterator.readEntry, hread]

theorem skipAborted_none {aborted : List ℕ} (h : aborted = []) (fuel : ℕ) (it : FileIterator) :
    skipAborted aborted fuel it = it := by
  subst h
  cases fuel with
  | zero => rfl
  | succ fuel => exact if_neg (by simp)

theorem pairs_getElem {e : StoredEntry} (he : sb.entries[p]? = some e) : sb.pairs[p]? = some e.pair := by
  rw [StoredBlock.pairs, List.getElem?_map, he]
  rfl

section Stored

variable (h : Stored data blocks rest tail) (ho : o.aborted = [])

include h ho

theorem loadBlock_stored (it : FileIterator) (hsb : sb ∈ blocks) (s' : Place) (hnext : it.curBlock + 1 = s'.next)
    (hread : (it.readEntries + sb.entries.length) % 2 ^ 32 = s'.read)
    (htotal : it.totalEntries = (blocks.flatMap StoredBlock.pairs).length)
    (hfile : it.file = s'.file) (hdata : it.blockData = s'.blockData) :
    Standing blocks sb 0 { s' with cache := it.cache } (loadBlock o sb.payload it) := by
  have hfits := h.fits sb hsb
  obtain ⟨e, es, hes⟩ := List.exists_cons_of_ne_nil (h.nonempty sb hsb)
  have he : sb.entries[0]? = some e := by
    rw [hes]
    rfl
  have hcursor := cursorAt_ofData hfits
  obtain ⟨b, hentry, hb⟩ := readEntry_stored { it with
    block := Block.ofData sb.payload
    pos := 0
    readEntries := (it.readEntries + (Block.ofData sb.payload).count) % 2 ^ 32
    curBlock := it.curBlock + 1 } hfits hcursor he
  rw [loadBlock, skipAborted_none ho, hentry, hcursor.count, hread]
  exact ⟨⟨htotal, hnext, hfile, rfl, hdata, rfl⟩, hsb, hb, pairs_getElem he, rfl⟩

theorem readNextBlock_cached (hs : Ready blocks s it) (hopen : s.read < (blocks.flatMap StoredBlock.pairs).length)
    (hsb : sb ∈ blocks) (hreader : o.reader = true) (hcache : s.cache s.next = some sb.payload) :
    Standing blocks sb 0 (s.takeCached sb) (readNextBlock o it) := by
  have hload := loadBlock_stored h ho it hsb (s.takeCached sb)
    (by rw [hs.next]; rfl) (by rw [hs.read]; rfl) hs.total hs.file hs.blockData
  rw [readNextBlock, if_neg (by rw [hs.total, hs.read]; omega), hreader, if_pos rfl, hs.cache, hs.next, hcache]
  rw [hs.cache] at hload
  exact hload

theorem readNextBlock_file (hs : Ready blocks s it) (hopen : s.read < (blocks.flatMap StoredBlock.pairs).length)
    (hmiss : o.reader = true → s.cache s.next = none) {q : ℕ} (hfile : s.file = before data blocks q)
    (hsb : blocks[q]? = some sb) :
    Standing blocks sb 0 (s.takeFile o sb) (readNextBlock o it) := by
  have hmiss' : (if o.reader then it.cache it.curBlock else none) = none := by
    rw [hs.cache, hs.next]
    split
    · next hreader => exact hmiss hreader
    · rfl
  have hload := loadBlock_stored h ho { it with
    file := before data blocks (q + 1)
    blockData := sb.payload } (List.mem_of_getElem? hsb) (s.takeFile o sb) (by rw [hs.next]; rfl) (by rw [hs.read]; rfl)
    hs.total (by rw [Place.takeFile, hfile, before_succ hsb]) rfl
  rw [readNextBlock, if_neg (by rw [hs.total, hs.read]; omega), hmiss']
  simp only [hs.file, hfile, readFile_stored h hsb]
  by_cases hput : (o.populate && o.reader) = true
  · rw [if_pos hput]
    refine ⟨⟨hload.total, hload.next, hload.file, hload.read, hload.blockData, ?_⟩, hload.member, hload.cursor,
      hload.entry, hload.pos⟩
    rw [Place.takeFile, if_pos hput, hload.cache, hs.next, hs.cache]
  · rw [if_neg hput]
    refine ⟨⟨hload.total, hload.next, hload.file, hload.read, hload.blockData, ?_⟩, hload.member, hload.cursor,
      hload.entry, hload.pos⟩
    rw [Place.takeFile, if_neg hput, hload.cache, hs.cache]

/-! ## `Next` -/

omit h ho in
theorem Standing.valid (hs : Standing blocks sb p s it) : it.valid = true := by
  have hlt := (List.getElem?_eq_some_iff.mp hs.entry).1
  rw [StoredBlock.pairs, List.length_map] at hlt
  rw [FileIterator.valid, hs.pos, hs.cursor.count, decide_eq_true hlt, Bool.true_or]

theorem Standing.next_within (hs : Standing blocks sb p s it) {x : KeyValuePair}
    (hx : sb.pairs[p + 1]? = some x) :
    Standing blocks sb (p + 1) s (it.next o) ∧ (it.next o).current = x := by
  rw [StoredBlock.pairs, List.getElem?_map, Option.map_eq_some_iff] at hx
  obtain ⟨e, he, rfl⟩ := hx
  have hlt := (List.getElem?_eq_some_iff.mp he).1
  obtain ⟨b, hentry, hb⟩ := readEntry_stored { it with pos := it.pos + 1 } (h.fits sb hs.member) hs.cursor
    (by rw [hs.pos]; exact he)
  have hnext : it.next o = { it with pos := it.pos + 1, block := b, current := e.pair } := by
    rw [FileIterator.next, nextLoop]
    simp only [hentry]
    rw [if_neg (by rw [hs.cursor.count, hs.pos]; omega), if_neg (by simp [ho])]
  rw [hnext]
  refine ⟨⟨⟨hs.total, hs.next, hs.file, hs.read, hs.blockData, hs.cache⟩, hs.member, ?_, pairs_getElem he,
    congrArg (· + 1) hs.pos⟩, rfl⟩
  have hb' : CursorAt sb (it.pos + 1 + 1) b := hb
  rwa [hs.pos] at hb'

omit h ho in
theorem Standing.next_end (hs : Standing blocks sb p s it) (hp : p + 1 = sb.pairs.length) :
    ∃ it', Ready blocks s it' ∧ it.next o = readNextBlock o it' := by
  rw [StoredBlock.pairs, List.length_map] at hp
  refine ⟨{ it with pos := it.pos + 1 }, ⟨hs.total, hs.next, hs.file, hs.read, hs.blockData, hs.cache⟩, ?_⟩
  rw [FileIterator.next, nextLoop]
  simp only []
  rw [if_pos (by rw [hs.cursor.count, hs.pos]; omega)]

end Stored

end Kvdb.SSTableBytes.FileIterator
