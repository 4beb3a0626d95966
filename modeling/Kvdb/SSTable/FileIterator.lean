import Kvdb.SSTable.BlockCursor
import Kvdb.Lib.Bisect
import Kvdb.Lib.InputStream
import Kvdb.Lib.Loop

/-! # The iterator over the bytes of a file (`iterator.cpp`, `snappy.hpp`)

`SSTableIterator` as it works on its file stream: `ReadNextBlock` takes a block out of the cache or reads it where the
stream stands, whatever bytes these are. The end of the data is noticed by the count of entries only. `block_data` is a
string that is resized for every block, so that a read that stops at the end of the file leaves in it what was there. -/
namespace Kvdb.SSTableBytes
set_option autoImplicit false

open LittleEndian InputStream

/-! ## Uncompressing -/

/-- `len` bytes from `off` bytes before the end on, repeated if they reach the end. -/
def copyBack (out : Bytes) (off len : ℕ) : Bytes :=
  (List.range len).map fun i => out.getD (out.length - off + i % off) 0

/-- The rounds of `Snappy::Uncompress`, with the input from `pos` on. A back reference of four bytes is a signed word. -/
def uncompressLoop : ℕ → Bytes → Bytes → Bytes
  | 0, _, out => out
  | _ + 1, [], out => out
  | fuel + 1, tag :: input, out =>
    let type := tag.toNat % 4
    let len := tag.toNat / 4
    if type = 0 then
      let extra := if 60 ≤ len then len - 59 else 0
      let base := if len = 61 then 255 else if len = 62 then 65535 else if len = 63 then 16777215 else 0
      let len := if 60 ≤ len then ofLe (input.take extra) + base else len
      let input := input.drop extra
      if input.length < len then out else uncompressLoop fuel (input.drop len) (out ++ input.take len)
    else if type = 1 ∧ 2 ≤ input.length then
      let off := ofLe (input.take 2)
      if off = 0 ∨ out.length < off then out
      else uncompressLoop fuel (input.drop 2) (out ++ copyBack out off (len % 8 + 4))
    else if type = 2 ∧ 4 ≤ input.length then
      let off := ofLe (input.take 4)
      if off = 0 ∨ out.length < off ∨ 2 ^ 31 ≤ off then out
      else uncompressLoop fuel (input.drop 4) (out ++ copyBack out off (len + 1))
    else out

/-- `Snappy::Uncompress`. -/
def uncompress (input : Bytes) : Bytes := uncompressLoop input.length input []

/-! ## The iterator -/

/-- What an iterator is made with: whether it has a cache and a `manifest_seq` other than 0, whether it puts there what
it reads, the aborted timestamps and the block index. -/
structure Options where
  reader : Bool
  populate : Bool
  aborted : List ℕ
  blockOffsets : List ℕ
  firstKeyBuf : Bytes

/-- `SSTableIterator`; `cache` are the cached blocks of its file. -/
structure FileIterator where
  file : InputStream
  blockData : Bytes
  block : Block
  pos : ℕ
  totalEntries : ℕ
  readEntries : ℕ
  current : KeyValuePair
  curBlock : ℕ
  cache : ℕ → Option Bytes

namespace FileIterator

/-- `block_.Seek(pos); block_.Read(current)`. -/
def readEntry (it : FileIterator) : FileIterator :=
  let r := it.block.readAt it.pos it.current
  { it with block := r.2.2, current := r.2.1 }

/-- The loop of `ReadNextBlock` over aborted entries. -/
def skipAborted (aborted : List ℕ) : ℕ → FileIterator → FileIterator
  | 0, it => it
  | fuel + 1, it =>
    if it.current.timestamp ∈ aborted then
      let it := { it with pos := it.pos + 1 }
      if it.block.count ≤ it.pos then it else skipAborted aborted fuel it.readEntry
    else it

/-- The block is taken, and its first entry that is not aborted. -/
def loadBlock (o : Options) (data : Bytes) (it : FileIterator) : FileIterator :=
  let block := Block.ofData data
  skipAborted o.aborted (block.count + 1)
    (readEntry { it with block := block, pos := 0, readEntries := (it.readEntries + block.count) % 2 ^ 32,
                         curBlock := it.curBlock + 1 })

/-- `block_data.resize(n)` and a read over it. -/
def overwrite (old : Bytes) (n : ℕ) (bs : Bytes) : Bytes :=
  bs ++ (old.take n ++ List.replicate (n - old.length) 0).drop bs.length

/-- The block that stands in front of the stream: what it leaves in `block_data`, and the stream behind it. -/
def readFile (file : InputStream) (blockData : Bytes) : Bytes × InputStream :=
  let crc := getLe 4 file
  let comp := get crc.2
  let csz := getLe 4 comp.2
  let r := read csz.1 csz.2
  let data := overwrite blockData csz.1 r.1
  (if comp.1 = Config.compressionSnappy then uncompress data else data, r.2)

/-- `ReadNextBlock`. -/
def readNextBlock (o : Options) (it : FileIterator) : FileIterator :=
  if it.totalEntries ≤ it.readEntries then { it with pos := 0, block := Block.empty }
  else
    match if o.reader then it.cache it.curBlock else none with
    | some data => loadBlock o data it
    | none =>
      let r := readFile it.file it.blockData
      let it' := loadBlock o r.1 { it with file := r.2, blockData := r.1 }
      if o.populate && o.reader then
        { it' with cache := fun i => if i = it.curBlock then some r.1 else it'.cache i }
      else it'

/-- The constructor. -/
def openFile (o : Options) (data : Bytes) (cache : ℕ → Option Bytes) : FileIterator :=
  let words := getLe 4 (getLe 4 (getLe 4 (ofData data)).2).2
  let total := getLe 4 words.2
  readNextBlock o ⟨skip 4 (skip 4 total.2), [], Block.empty, 0, total.1, 0, ⟨[], [], 0, false⟩, 0, cache⟩

/-- `Valid`. -/
def valid (it : FileIterator) : Bool :=
  decide (it.pos < it.block.count) || (decide (it.readEntries < it.totalEntries) && decide (0 < it.block.count))

/-- The loop of `Next`. -/
def nextLoop (o : Options) : ℕ → FileIterator → FileIterator
  | 0, it => it
  | fuel + 1, it =>
    let it := { it with pos := it.pos + 1 }
    if it.block.count ≤ it.pos then readNextBlock o it
    else
      let it := it.readEntry
      if it.current.timestamp ∈ o.aborted then nextLoop o fuel it else it

/-- `Next`. -/
def next (o : Options) (it : FileIterator) : FileIterator := nextLoop o (it.block.count + 1) it

/-- `Current`, and `Next` while `Valid`; `none` when `fuel` rounds do not end it. -/
def drain (o : Options) : ℕ → FileIterator → Option (List KeyValuePair) := Loop.collect valid current (next o)

/-! ## Seeking -/

/-- First key `i` of the block index, which is found by walking over those before it. -/
def firstKeyAt : Bytes → ℕ → Bytes
  | buf, 0 => (buf.drop 2).take (ofLe (buf.take 2))
  | buf, i + 1 => firstKeyAt (buf.drop (2 + ofLe (buf.take 2))) i

/-- The block that a seek begins at. -/
def seekTarget (o : Options) (key : Bytes) : ℕ :=
  Bisect.bisect (fun i => decide (key ≤ firstKeyAt o.firstKeyBuf i)) (fun lo hi => (lo + hi) / 2)
    (List.range o.blockOffsets.length) o.blockOffsets.length 0 o.blockOffsets.length - 1

/-- The jump of `SeekToKey`; none is made without a block index or if the block has just been read. -/
def jump (o : Options) (key : Bytes) (it : FileIterator) : FileIterator :=
  let target := seekTarget o key
  if o.blockOffsets.isEmpty || decide (target + 1 = it.curBlock) then it
  else
    readNextBlock o { it with file := seek (o.blockOffsets.getD target 0) it.file, curBlock := target,
                              readEntries := 0, pos := 0, block := Block.empty }

/-- `Valid() && Current().key < key`. -/
def isBelow (key : Bytes) (it : FileIterator) : Bool := it.valid && decide (it.current.key < key)

/-- `SeekToKey`; `none` when `fuel` rounds of its loop do not end it. -/
def seekToKey (o : Options) (key : Bytes) (fuel : ℕ) (it : FileIterator) : Option FileIterator :=
  Loop.run (isBelow key) (next o) fuel (jump o key it)

/-- So many seeks to the same key, the last of which leaves the iterator at `it'`. -/
def SeekTimes (o : Options) (key : Bytes) : ℕ → FileIterator → FileIterator → Prop
  | 0, it, it' => it' = it
  | n + 1, it, it' => ∃ it₁, (∃ fuel, seekToKey o key fuel it = some it₁) ∧ SeekTimes o key n it₁ it'

end FileIterator

end Kvdb.SSTableBytes
