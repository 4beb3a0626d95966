import Kvdb.SSTable.AbortedBlocks
import Kvdb.SSTable.FileSteps
import Kvdb.SSTable.ReadAll

/-! # The iterator over the bytes of a file and the one over its blocks

With nothing cached `SSTableIterator` takes block after block out of the file. It passes over the same aborted entries
as the iterator over decoded blocks does (`Shows`), so that it yields what is read of the blocks. -/
namespace Kvdb

namespace SSTableIterator
set_option autoImplicit false

/-! ## One step of `skipAborted` -/

variable {aborted : List ℕ} {a : SSTableIterator} {p : ℕ} {x : KeyValuePair}

theorem drop_of_getElem (h : a.block[p]? = some x) : a.block.drop p = x :: a.block.drop (p + 1) := by
  obtain ⟨hlt, hget⟩ := List.getElem?_eq_some_iff.mp h
  rw [List.drop_eq_getElem_cons hlt, hget]

theorem skipAborted_live (h : a.block[p]? = some x) (hx : x.timestamp ∉ aborted) :
    skipAborted aborted a p = { a with pos := p, current := x } := by
  have hskip : ((a.block.drop p).takeWhile fun e => decide (e.timestamp ∈ aborted)).length = 0 := by
    rw [drop_of_getElem h, List.takeWhile_cons_of_neg (by simpa using hx), List.length_nil]
  unfold skipAborted
  simp only [hskip, Nat.add_zero, h]

theorem skipAborted_step (h : a.block[p]? = some x) (hx : x.timestamp ∈ aborted) :
    skipAborted aborted a p = skipAborted aborted a (p + 1) := by
  have hskip : ((a.block.drop p).takeWhile fun e => decide (e.timestamp ∈ aborted)).length =
      ((a.block.drop (p + 1)).takeWhile fun e => decide (e.timestamp ∈ aborted)).length + 1 := by
    rw [drop_of_getElem h, List.takeWhile_cons_of_pos (by simpa using hx), List.length_cons]
  unfold skipAborted
  simp only [hskip]
  rw [Nat.add_assoc, Nat.add_comm 1]

theorem skipAborted_end (aborted : List ℕ) (h : a.block.length ≤ p) :
    skipAborted aborted a p = { a with pos := p, current := a.block.getLast?.getD a.current } := by
  unfold skipAborted
  simp only [List.drop_eq_nil_of_le h, List.takeWhile_nil, List.length_nil, Nat.add_zero, List.getElem?_eq_none h]

theorem skipAborted_moves (aborted : List ℕ) (a : SSTableIterator) (p : ℕ) :
    ∃ q c, skipAborted aborted a p = { a with pos := q, current := c } := by
  unfold skipAborted
  simp only []
  split
  · exact ⟨_, _, rfl⟩
  · exact ⟨_, _, rfl⟩

theorem readNextBlock_total (blocks : List (List KeyValuePair)) (cached : ℕ → Option (List KeyValuePair))
    (aborted : List ℕ) (a : SSTableIterator) : (readNextBlock blocks cached aborted a).totalEntries = a.totalEntries := by
  unfold readNextBlock
  split
  · rfl
  · split
    · obtain ⟨q, c, h⟩ := skipAborted_moves aborted _ 0
      rw [h]
    · obtain ⟨q, c, h⟩ := skipAborted_moves aborted _ 0
      rw [h]

theorem next_total (blocks : List (List KeyValuePair)) (cached : ℕ → Option (List KeyValuePair)) (aborted : List ℕ)
    (a : SSTableIterator) : (next blocks cached aborted a).totalEntries = a.totalEntries := by
  obtain ⟨q, c, h⟩ := skipAborted_moves aborted a (a.pos + 1)
  unfold next
  simp only [h]
  split
  · exact readNextBlock_total blocks cached aborted _
  · rfl

end SSTableIterator

namespace SSTableBytes.FileIterator
set_option autoImplicit false

open InputStream

/-! ## The two iterators side by side -/

/-- The same entries have been counted, the file stream stands at the same block, and no block that is still to be taken
is cached. -/
structure Abreast (data : Bytes) (blocks : List StoredBlock) (it : FileIterator) (a : SSTableIterator) : Prop where
  total : it.totalEntries = a.totalEntries
  read : it.readEntries = a.readEntries
  file : it.file = before data blocks a.filePos
  cold : ∀ i, it.curBlock ≤ i → it.cache i = none

/-- The cursor is in the block that the other iterator has, if that has one. -/
inductive Holding (blocks : List StoredBlock) (b : Block) (current : KeyValuePair) (a : SSTableIterator) : Prop
  | closed (hcount : b.count = 0) (hblock : a.block = [])
  | inside (sb : StoredBlock) (j : ℕ) (hmem : sb ∈ blocks) (hcursor : CursorAt sb j b) (hblock : a.block = sb.pairs)
      (hcurrent : current = a.current)

structure Shows (data : Bytes) (blocks : List StoredBlock) (it : FileIterator) (a : SSTableIterator) : Prop
    extends Abreast data blocks it a where
  pos : it.pos = a.pos
  holding : Holding blocks it.block it.current a

variable {o : Options} {data rest tail : Bytes} {blocks : List StoredBlock} {it : FileIterator} {a : SSTableIterator}
  {sb : StoredBlock} {p j : ℕ} {left : List (List KeyValuePair)}

theorem length_pairs (sb : StoredBlock) : sb.pairs.length = sb.entries.length := List.length_map _

theorem Holding.count {b : Block} {current : KeyValuePair} (h : Holding blocks b current a) :
    b.count = a.block.length := by
  cases h with
  | closed hcount hblock => rw [hcount, hblock, List.length_nil]
  | inside sb j hmem hcursor hblock hcurrent => rw [hcursor.count, hblock, length_pairs]

theorem Shows.valid (h : Shows data blocks it a) : it.valid = a.valid := by
  rw [FileIterator.valid, SSTableIterator.valid, h.holding.count, h.pos, h.read, h.total]

theorem Shows.current (h : Shows data blocks it a) (hvalid : a.valid = true) : it.current = a.current := by
  cases h.holding with
  | closed hcount hblock => simp [SSTableIterator.valid, hblock] at hvalid
  | inside sb j hmem hcursor hblock hcurrent => exact hcurrent

/-- The entry at `p` is read, and those behind it while they are aborted. -/
theorem skipAborted_shows (hfits : sb.Fits) (aborted : List ℕ) (a : SSTableIterator) (hblock : a.block = sb.pairs)
    (fuel : ℕ) (hfuel : sb.pairs.length < p + fuel) (hpos : it.pos = p) (hcursor : CursorAt sb (p + 1) it.block)
    (hentry : sb.pairs[p]? = some it.current) :
    ∃ b j, CursorAt sb j b ∧ skipAborted aborted fuel it =
      { it with block := b, pos := (a.skipAborted aborted p).pos, current := (a.skipAborted aborted p).current } := by
  induction fuel generalizing it p with
  | zero =>
    have hlt := (List.getElem?_eq_some_iff.mp hentry).1
    omega
  | succ fuel ih =>
    subst hpos
    have hget : a.block[it.pos]? = some it.current := by rwa [hblock]
    rw [skipAborted]
    by_cases haborted : it.current.timestamp ∈ aborted
    · simp only [if_pos haborted, hcursor.count, SSTableIterator.skipAborted_step hget haborted]
      by_cases hend : sb.entries.length ≤ it.pos + 1
      · have hlast : sb.pairs.getLast? = some it.current := by
          have hlt := (List.getElem?_eq_some_iff.mp hentry).1
          rw [length_pairs] at hlt
          rw [List.getLast?_eq_getElem?, length_pairs, show sb.entries.length - 1 = it.pos by omega]
          exact hentry
        have hle : a.block.length ≤ it.pos + 1 := by rwa [hblock, length_pairs]
        rw [if_pos hend, SSTableIterator.skipAborted_end aborted hle, hblock, hlast]
        exact ⟨it.block, _, hcursor, rfl⟩
      · have hlt : it.pos + 1 < sb.entries.length := Nat.lt_of_not_le hend
        obtain ⟨b, hread, hb⟩ := readEntry_stored { it with pos := it.pos + 1 } hfits hcursor
          (List.getElem?_eq_getElem hlt)
        rw [if_neg hend, hread]
        obtain ⟨b', j, hb', hskip⟩ := @ih { it with pos := it.pos + 1, block := b, current := _ } (it.pos + 1)
          (by omega) rfl hb (pairs_getElem (List.getElem?_eq_getElem hlt))
        exact ⟨b', j, hb', hskip⟩
    · rw [if_neg haborted, SSTableIterator.skipAborted_live hget haborted]
      exact ⟨it.block, _, hcursor, rfl⟩

section Stored

variable (h : Stored data blocks rest tail)

include h

/-- The block in front of the stream is taken. -/
theorem loadBlock_shows (it : FileIterator) (a : SSTableIterator) (hsb : sb ∈ blocks)
    (htotal : it.totalEntries = a.totalEntries) (hread : it.readEntries = a.readEntries)
    (hcount : a.readEntries + sb.pairs.length < 2 ^ 32) (hfile : it.file = before data blocks (a.filePos + 1))
    (hcold : ∀ i, it.curBlock < i → it.cache i = none) :
    Shows data blocks (loadBlock o sb.payload it) (SSTableIterator.skipAborted o.aborted
      { a with
        block := sb.pairs
        readEntries := a.readEntries + sb.pairs.length
        curBlock := a.curBlock + 1
        filePos := a.filePos + 1 } 0) ∧ (loadBlock o sb.payload it).curBlock = it.curBlock + 1 := by
  have hfits := h.fits sb hsb
  have hpos : 0 < sb.entries.length := List.length_pos_iff.mpr (h.nonempty sb hsb)
  have hentry := List.getElem?_eq_getElem hpos
  have hcursor := cursorAt_ofData hfits
  obtain ⟨b, hfirst, hb⟩ := readEntry_stored { it with
    block := Block.ofData sb.payload
    pos := 0
    readEntries := (it.readEntries + (Block.ofData sb.payload).count) % 2 ^ 32
    curBlock := it.curBlock + 1 } hfits hcursor hentry
  have hload : loadBlock o sb.payload it = skipAborted o.aborted (sb.entries.length + 1) { it with
      block := b
      pos := 0
      readEntries := (it.readEntries + sb.entries.length) % 2 ^ 32
      curBlock := it.curBlock + 1
      current := sb.entries[0].pair } := by
    rw [loadBlock, hfirst, hcursor.count]
  generalize ha : ({ a with
    block := sb.pairs
    readEntries := a.readEntries + sb.pairs.length
    curBlock := a.curBlock + 1
    filePos := a.filePos + 1 } : SSTableIterator) = a'
  obtain ⟨b', j, hb', hskip⟩ := @skipAborted_shows { it with
    block := b
    pos := 0
    readEntries := (it.readEntries + sb.entries.length) % 2 ^ 32
    curBlock := it.curBlock + 1
    current := sb.entries[0].pair } sb 0 hfits o.aborted a' (by rw [← ha]) (sb.entries.length + 1) (by rw [length_pairs]; omega) rfl hb
    (pairs_getElem hentry)
  rw [hload, hskip]
  have hwrap : (it.readEntries + sb.entries.length) % 2 ^ 32 = a.readEntries + sb.pairs.length := by
    rw [hread, ← length_pairs, Nat.mod_eq_of_lt hcount]
  obtain ⟨q, c, heq⟩ := SSTableIterator.skipAborted_moves o.aborted a' 0
  rw [heq]
  subst ha
  exact ⟨⟨⟨htotal, hwrap, hfile, hcold⟩, rfl, .inside sb j hsb hb' rfl rfl⟩, rfl⟩

/-- `ReadNextBlock`, for as many entries as are left in the blocks. -/
theorem Abreast.readNextBlock (hs : Abreast data blocks it a)
    (hreading : SSTableIterator.Reading (blocks.map StoredBlock.pairs) left a) (hcount : a.totalEntries < 2 ^ 32) :
    Shows data blocks (readNextBlock o it)
      (SSTableIterator.readNextBlock (blocks.map StoredBlock.pairs) (fun _ => none) o.aborted a) := by
  rw [FileIterator.readNextBlock, SSTableIterator.readNextBlock]
  by_cases hend : a.totalEntries ≤ a.readEntries
  · rw [if_pos hend, if_pos (by rwa [hs.total, hs.read])]
    exact ⟨⟨hs.total, hs.read, hs.file, hs.cold⟩, rfl, .closed rfl rfl⟩
  · rw [if_neg hend, if_neg (by rwa [hs.total, hs.read])]
    have htotal := hreading.total
    have hpos : a.filePos < blocks.length := by
      by_contra hge
      have hleft := hreading.filePos
      rw [List.drop_eq_nil_of_le (by rw [List.length_map]; omega)] at hleft
      rw [← hleft, List.flatten_nil, List.length_nil] at htotal
      omega
    obtain ⟨sb, hsb⟩ : ∃ sb, blocks[a.filePos]? = some sb := ⟨_, List.getElem?_eq_getElem hpos⟩
    have hblock : (blocks.map StoredBlock.pairs).getD a.filePos [] = sb.pairs := by
      rw [List.getD_eq_getElem?_getD, List.getElem?_map, hsb]
      rfl
    have hfront : sb.pairs.length ≤ left.flatten.length := by
      rw [← hreading.filePos, ← List.map_drop, List.drop_eq_getElem_cons hpos, List.map_cons, List.flatten_cons,
        List.length_append, (List.getElem?_eq_some_iff.mp hsb).2]
      omega
    have hmiss : (if o.reader then it.cache it.curBlock else none) = none := by
      rw [hs.cold it.curBlock (Nat.le_refl _), ite_self]
    rw [hmiss]
    simp only [hs.file, readFile_stored h hsb, hblock]
    obtain ⟨hload, hnext⟩ := @loadBlock_shows o data rest tail blocks sb h { it with
      file := before data blocks (a.filePos + 1)
      blockData := sb.payload } a (List.mem_of_getElem? hsb) hs.total hs.read (by omega) rfl
      fun i hi => hs.cold i (Nat.le_of_lt hi)
    revert hload hnext
    generalize loadBlock o sb.payload { it with
      file := before data blocks (a.filePos + 1)
      blockData := sb.payload } = it'
    intro hload hnext
    -- the block that is put into the cache is not taken again
    split
    · refine ⟨⟨hload.total, hload.read, hload.file, fun i hi => ?_⟩, hload.pos, hload.holding⟩
      have hi' : it.curBlock + 1 ≤ i := hnext ▸ hi
      exact (if_neg (by omega)).trans (hload.cold i hi)
    · exact hload

/-- The end of the loop of `Next`: no entry of the block is left. -/
theorem Abreast.nextLoop_end (hs : Abreast data blocks it a)
    (hreading : SSTableIterator.Reading (blocks.map StoredBlock.pairs) left a) (hcount : a.totalEntries < 2 ^ 32)
    (hpos : it.pos = a.pos) (hlen : it.block.count = a.block.length) (hend : it.block.count ≤ it.pos + 1) (fuel : ℕ) :
    Shows data blocks (nextLoop o (fuel + 1) it)
      (SSTableIterator.next (blocks.map StoredBlock.pairs) (fun _ => none) o.aborted a) := by
  have hle : a.block.length ≤ a.pos + 1 := by rw [← hlen, ← hpos]; exact hend
  have hmoved : SSTableIterator.Reading (blocks.map StoredBlock.pairs) left
      { a with pos := a.pos + 1, current := a.block.getLast?.getD a.current } :=
    ⟨hreading.filePos, hreading.total, hreading.ne⟩
  have hbehind : Abreast data blocks { it with pos := it.pos + 1 }
      { a with pos := a.pos + 1, current := a.block.getLast?.getD a.current } := ⟨hs.total, hs.read, hs.file, hs.cold⟩
  rw [nextLoop, SSTableIterator.next]
  simp only [SSTableIterator.skipAborted_end o.aborted hle, if_pos hle, if_pos hend]
  exact hbehind.readNextBlock h hmoved hcount

/-- The loop of `Next` in a block. -/
theorem Abreast.nextLoop (hs : Abreast data blocks it a)
    (hreading : SSTableIterator.Reading (blocks.map StoredBlock.pairs) left a) (hcount : a.totalEntries < 2 ^ 32)
    (hpos : it.pos = a.pos) (hsb : sb ∈ blocks) (hcursor : CursorAt sb j it.block) (hblock : a.block = sb.pairs)
    (fuel : ℕ) (hfuel : sb.pairs.length ≤ a.pos + fuel) :
    Shows data blocks (nextLoop o (fuel + 1) it)
      (SSTableIterator.next (blocks.map StoredBlock.pairs) (fun _ => none) o.aborted a) := by
  have hlen : it.block.count = a.block.length := by rw [hcursor.count, hblock, length_pairs]
  induction fuel generalizing it a j with
  | zero =>
    refine hs.nextLoop_end h hreading hcount hpos hlen ?_ 0
    rw [hlen, hblock, hpos]
    omega
  | succ fuel ih =>
    by_cases hend : it.block.count ≤ it.pos + 1
    · exact hs.nextLoop_end h hreading hcount hpos hlen hend (fuel + 1)
    · have hlt : it.pos + 1 < sb.entries.length := by
        rw [hcursor.count] at hend
        exact Nat.lt_of_not_le hend
      have hentry := List.getElem?_eq_getElem hlt
      obtain ⟨b, hread, hb⟩ := readEntry_stored { it with pos := it.pos + 1 } (h.fits sb hsb) hcursor hentry
      have hget : a.block[a.pos + 1]? = some sb.entries[it.pos + 1].pair := by
        rw [hblock, ← hpos]
        exact pairs_getElem hentry
      have hloop : FileIterator.nextLoop o (fuel + 1 + 1) it = if sb.entries[it.pos + 1].pair.timestamp ∈ o.aborted then
          FileIterator.nextLoop o (fuel + 1) { it with pos := it.pos + 1, block := b, current := sb.entries[it.pos + 1].pair }
          else { it with pos := it.pos + 1, block := b, current := sb.entries[it.pos + 1].pair } := by
        rw [FileIterator.nextLoop]
        simp only [if_neg hend, hread]
      rw [hloop]
      split
      · next haborted =>
        have hnext : SSTableIterator.next (blocks.map StoredBlock.pairs) (fun _ => none) o.aborted a =
            SSTableIterator.next (blocks.map StoredBlock.pairs) (fun _ => none) o.aborted { a with pos := a.pos + 1 } := by
          rw [SSTableIterator.next, SSTableIterator.skipAborted_step hget haborted]
          rfl
        rw [hnext]
        exact @ih { it with pos := it.pos + 1, block := b, current := _ } { a with pos := a.pos + 1 } _
          ⟨hs.total, hs.read, hs.file, hs.cold⟩ ⟨hreading.filePos, hreading.total, hreading.ne⟩ hcount
          (congrArg (· + 1) hpos) hb hblock (by show _ ≤ a.pos + 1 + fuel; omega)
          (by show b.count = _; rw [hb.count, hblock, length_pairs])
      · next hlive =>
        rw [hlen, hpos] at hend
        rw [SSTableIterator.next]
        simp only [SSTableIterator.skipAborted_live hget hlive, if_neg hend]
        exact ⟨⟨hs.total, hs.read, hs.file, hs.cold⟩, congrArg (· + 1) hpos, .inside sb _ hsb hb hblock rfl⟩

theorem Shows.next (hs : Shows data blocks it a)
    (hreading : SSTableIterator.Reading (blocks.map StoredBlock.pairs) left a) (hcount : a.totalEntries < 2 ^ 32) :
    Shows data blocks (it.next o)
      (SSTableIterator.next (blocks.map StoredBlock.pairs) (fun _ => none) o.aborted a) := by
  have hlen := hs.holding.count
  rw [FileIterator.next]
  cases hs.holding with
  | closed hzero hblock =>
    exact hs.toAbreast.nextLoop_end h hreading hcount hs.pos hlen (by rw [hzero]; exact Nat.zero_le _) _
  | inside sb j hmem hcursor hblock hcurrent =>
    refine hs.toAbreast.nextLoop h hreading hcount hs.pos hmem hcursor hblock _ ?_
    rw [hlen, hblock]
    exact Nat.le_add_left _ _

/-- What the iterator over the blocks is about to yield the other one yields too. -/
theorem Shows.yields (hs : Shows data blocks it a)
    (hreading : SSTableIterator.Reading (blocks.map StoredBlock.pairs) left a) (hcount : a.totalEntries < 2 ^ 32)
    {es : List KeyValuePair} (hstanding : SSTableIterator.Standing o.aborted left a es) :
    Loop.Yields FileIterator.valid FileIterator.current (FileIterator.next o) it es := by
  induction es generalizing it a left with
  | nil =>
    cases hstanding with
    | ended hvalid => exact (Loop.yields_of_stop (hs.valid.trans hvalid)).mpr rfl
  | cons e es ih =>
    obtain ⟨hvalid, hcurrent, left', hreading', hnext⟩ := hstanding.next (fun _ => rfl) hreading
    refine (Loop.yields_of_go (hs.valid.trans hvalid)).mpr ⟨es, ?_, ?_⟩
    · rw [hs.current hvalid, hcurrent]
    · exact ih (hs.next h hreading hcount) hreading' (by rwa [SSTableIterator.next_total]) hnext

/-- The constructor. -/
theorem openFile_shows (o : Options) (f : SSTableFile) (hblocks : blocks.map StoredBlock.pairs = f.blocks)
    (hcount : f.entryCount = (blocks.flatMap StoredBlock.pairs).length)
    (hreading : SSTableIterator.Reading f.blocks f.blocks ⟨[], 0, f.entryCount, 0, ⟨[], [], 0, false⟩, 0, 0⟩) :
    Shows data blocks (openFile o data fun _ => none) (SSTableIterator.openFile f (fun _ => none) o.aborted) := by
  obtain ⟨s₁, s₂, s₃, s₄, h₁, h₂, h₃, h₄, hskip, -⟩ := readHeader_stored h
  have habreast : Abreast data blocks
      ⟨skip 4 (skip 4 s₄), [], Block.empty, 0, (blocks.flatMap StoredBlock.pairs).length, 0, ⟨[], [], 0, false⟩, 0,
        fun _ => none⟩ ⟨[], 0, f.entryCount, 0, ⟨[], [], 0, false⟩, 0, 0⟩ :=
    ⟨hcount.symm, rfl, hskip, fun _ _ => rfl⟩
  rw [← hblocks] at hreading
  have hshows := habreast.readNextBlock (o := o) h hreading (by rw [hcount]; exact h.count)
  rw [hblocks] at hshows
  rw [openFile, h₁]
  simp only [h₂, h₃, h₄]
  exact hshows

end Stored

/-- With nothing cached the iterator over the bytes of a file yields what the iterator over its blocks yields, whatever
timestamps are aborted. -/
theorem openFile_refines (f : SSTableFile) (hf : f.WellFormed) (hl : Limits f) (o : Options) :
    Loop.Yields FileIterator.valid FileIterator.current (FileIterator.next o) (openFile o (fileBytes f) fun _ => none)
      (SSTableIterator.stream (some f) (fun _ => none) o.aborted) := by
  have hstored := stored_fileBytes hf hl
  have hblocks : (f.blocks.map StoredBlock.ofPairs).map StoredBlock.pairs = f.blocks := by
    rw [List.map_map]
    exact (List.map_congr_left fun b _ => StoredBlock.ofPairs_pairs b).trans (List.map_id _)
  have hcount : f.entryCount = ((f.blocks.map StoredBlock.ofPairs).flatMap StoredBlock.pairs).length := by
    rw [ofPairs_flatMap, hf.entryCount]
  have hreading : SSTableIterator.Reading f.blocks f.blocks ⟨[], 0, f.entryCount, 0, ⟨[], [], 0, false⟩, 0, 0⟩ :=
    ⟨rfl, by rw [hf.entryCount, Nat.zero_add]; rfl, hf.blocks⟩
  have hshows := openFile_shows hstored o f hblocks hcount hreading
  obtain ⟨left, hleft, hstanding⟩ := hreading.readNextBlock (fun _ => rfl) o.aborted
  rw [SSTableIterator.stream_cold hf fun _ => rfl]
  have hopened : SSTableIterator.Reading ((f.blocks.map StoredBlock.ofPairs).map StoredBlock.pairs) left
      (SSTableIterator.openFile f (fun _ => none) o.aborted) := by
    rw [hblocks]
    exact hleft
  have htotal : (SSTableIterator.openFile f (fun _ => none) o.aborted).totalEntries < 2 ^ 32 := by
    rw [SSTableIterator.openFile, SSTableIterator.readNextBlock_total, hcount]
    exact hstored.count
  exact hshows.yields hstored hopened htotal hstanding

/-- A file with one aborted entry in front of a live one. -/
def abortedFirst : SSTableFile := SSTableFile.write (fun _ => (64, 1)) [⟨[1], [2], 7, false⟩, ⟨[5], [], 4, true⟩] []

theorem openFile_refines_abortedFirst :
    Loop.Yields FileIterator.valid FileIterator.current (FileIterator.next ⟨true, true, [7], [], []⟩)
      (openFile ⟨true, true, [7], [], []⟩ (fileBytes abortedFirst) fun _ => none)
      (SSTableIterator.stream (some abortedFirst) (fun _ => none) [7]) :=
  openFile_refines abortedFirst (SSTableFile.write_wellFormed _ _ _) ⟨by decide, by decide, by decide⟩
    ⟨true, true, [7], [], []⟩

end SSTableBytes.FileIterator

end Kvdb
