import Kvdb.SSTable.Iterate
import Kvdb.MemTable.Walk

/-! # What an iterator reads of aborted entries

An iterator passes over the aborted entries of a block. When they fill the block from its first entry to its last one,
`ReadNextBlock` returns with `current` at the last of them, and `Valid()` holds as long as there are entries in later
blocks: that entry is yielded although it is aborted. -/
namespace Kvdb.SSTableIterator
set_option autoImplicit false

open BPlusTree (live live_append live_eq_nil)

variable {aborted : List ℕ} {cached : ℕ → Option (List KeyValuePair)} {blocks rest : List (List KeyValuePair)}
  {it : SSTableIterator}

/-- What is read of a block: its live entries, or its last entry if there is none and a block follows. -/
def readBlock (aborted : List ℕ) (isLast : Bool) (block : List KeyValuePair) : List KeyValuePair :=
  if (live aborted block).isEmpty && !isLast then block.getLast?.toList else live aborted block

/-- What is read of a list of blocks. -/
def readBlocks (aborted : List ℕ) : List (List KeyValuePair) → List KeyValuePair
  | [] => []
  | block :: rest => readBlock aborted rest.isEmpty block ++ readBlocks aborted rest

/-! ## The live entries among them -/

theorem live_live (es : List KeyValuePair) : live aborted (live aborted es) = live aborted es := by
  simp [live]

/-- An entry that is read in the place of live ones is not live. -/
theorem live_readBlock (isLast : Bool) (block : List KeyValuePair) :
    live aborted (readBlock aborted isLast block) = live aborted block := by
  unfold readBlock
  split
  · next h =>
    have hnone : live aborted block = [] := by
      rw [Bool.and_eq_true] at h
      exact List.isEmpty_iff.mp h.1
    rw [hnone, live_eq_nil]
    intro x hx
    exact live_eq_nil.mp hnone x (List.mem_of_getLast? (Option.mem_toList.mp hx))
  · exact live_live block

theorem live_readBlocks (blocks : List (List KeyValuePair)) :
    live aborted (readBlocks aborted blocks) = live aborted blocks.flatten := by
  induction blocks with
  | nil => rfl
  | cons block rest ih => rw [readBlocks, live_append, live_readBlock, ih, List.flatten_cons, live_append]

theorem readBlock_sublist (isLast : Bool) (block : List KeyValuePair) :
    (readBlock aborted isLast block).Sublist block := by
  unfold readBlock
  split
  · cases hlast : block.getLast? with
    | none => exact List.nil_sublist _
    | some x => exact List.singleton_sublist.mpr (List.mem_of_getLast? hlast)
  · exact List.filter_sublist

theorem readBlocks_sublist (aborted : List ℕ) (blocks : List (List KeyValuePair)) :
    (readBlocks aborted blocks).Sublist blocks.flatten := by
  induction blocks with
  | nil => exact List.Sublist.refl _
  | cons block rest ih => exact (readBlock_sublist _ block).append ih

/-! ## The iterator with nothing cached -/

/-- The iterator has the blocks `rest` in front of it. -/
structure Reading (blocks rest : List (List KeyValuePair)) (it : SSTableIterator) : Prop where
  filePos : blocks.drop it.filePos = rest
  total : it.totalEntries = it.readEntries + rest.flatten.length
  ne : ∀ b ∈ rest, b ≠ []

/-- Where the iterator stands, and what it yields from there on: at a live entry, behind a block that is aborted as a
whole, or at the end. -/
inductive Standing (aborted : List ℕ) (rest : List (List KeyValuePair)) (it : SSTableIterator) : List KeyValuePair → Prop
  | entry (hpos : it.block[it.pos]? = some it.current) (hlive : it.current.timestamp ∉ aborted) :
      Standing aborted rest it (it.current :: (live aborted (it.block.drop (it.pos + 1)) ++ readBlocks aborted rest))
  | passed (hne : it.block ≠ []) (hpos : it.block.length ≤ it.pos) (hrest : rest ≠ []) :
      Standing aborted rest it (it.current :: readBlocks aborted rest)
  | ended (hvalid : it.valid = false) : Standing aborted rest it []

/-- Where `skipAborted` stops: at the first live entry from `pos` on, or behind the block. -/
theorem skipAborted_cases (aborted : List ℕ) (it : SSTableIterator) (pos : ℕ) :
    (∃ e q, it.block[q]? = some e ∧ e.timestamp ∉ aborted ∧
        live aborted (it.block.drop pos) = e :: live aborted (it.block.drop (q + 1)) ∧
        skipAborted aborted it pos = { it with pos := q, current := e }) ∨
      (live aborted (it.block.drop pos) = [] ∧ ∃ q, it.block.length ≤ q ∧
        skipAborted aborted it pos = { it with pos := q, current := it.block.getLast?.getD it.current }) := by
  have hsplit : ((it.block.drop pos).takeWhile fun e => decide (e.timestamp ∈ aborted)) ++
      (it.block.drop pos).dropWhile (fun e => decide (e.timestamp ∈ aborted)) = it.block.drop pos :=
    List.takeWhile_append_dropWhile
  have htake : live aborted ((it.block.drop pos).takeWhile fun e => decide (e.timestamp ∈ aborted)) = [] := by
    rw [live_eq_nil]
    intro x hx
    have hab := List.mem_takeWhile_imp hx
    exact of_decide_eq_true hab
  have hdrop : it.block.drop (pos + ((it.block.drop pos).takeWhile fun e => decide (e.timestamp ∈ aborted)).length) =
      (it.block.drop pos).dropWhile fun e => decide (e.timestamp ∈ aborted) := by
    have hleft := congrArg (List.drop ((it.block.drop pos).takeWhile fun e => decide (e.timestamp ∈ aborted)).length)
      hsplit
    rw [List.drop_left, List.drop_drop] at hleft
    exact hleft.symm
  have hlive : live aborted (it.block.drop pos) =
      live aborted ((it.block.drop pos).dropWhile fun e => decide (e.timestamp ∈ aborted)) := by
    conv_lhs => rw [← hsplit]
    rw [live_append, htake, List.nil_append]
  unfold skipAborted
  simp only []
  generalize pos + ((it.block.drop pos).takeWhile fun e => decide (e.timestamp ∈ aborted)).length = q at hdrop ⊢
  rw [← hdrop] at hlive
  cases hq : it.block[q]? with
  | some e =>
    have hlt : q < it.block.length := (List.getElem?_eq_some_iff.mp hq).1
    have hcons : it.block.drop q = e :: it.block.drop (q + 1) := by
      rw [List.drop_eq_getElem_cons hlt, (List.getElem?_eq_some_iff.mp hq).2]
    have he : e.timestamp ∉ aborted := by
      have hstop := List.head?_dropWhile_not (fun e : KeyValuePair => decide (e.timestamp ∈ aborted)) (it.block.drop pos)
      rw [← hdrop, hcons, List.head?_cons] at hstop
      simpa using hstop
    refine .inl ⟨e, q, hq, he, ?_, rfl⟩
    rw [hlive, hcons, BPlusTree.live_cons_of_live _ he]
  | none =>
    have hge : it.block.length ≤ q := List.getElem?_eq_none_iff.mp hq
    refine .inr ⟨?_, q, hge, rfl⟩
    rw [hlive, List.drop_eq_nil_of_le hge]
    rfl

/-- Behind a block with no entry left the iterator is valid exactly as long as blocks follow. -/
theorem valid_passed (h : Reading blocks rest it) (hpos : it.block.length ≤ it.pos) (hrest : rest = []) :
    it.valid = false := by
  have htotal := h.total
  rw [hrest, List.flatten_nil, List.length_nil] at htotal
  unfold valid
  simp only [Bool.or_eq_false_iff, Bool.and_eq_false_iff, decide_eq_false_iff_not]
  exact ⟨by omega, .inl (by omega)⟩

theorem Reading.readNextBlock (hcached : ∀ i, cached i = none) (h : Reading blocks rest it) (aborted : List ℕ) :
    ∃ rest', Reading blocks rest' (readNextBlock blocks cached aborted it) ∧
      Standing aborted rest' (readNextBlock blocks cached aborted it) (readBlocks aborted rest) := by
  have htotal := h.total
  unfold SSTableIterator.readNextBlock
  cases rest with
  | nil =>
    rw [List.flatten_nil, List.length_nil] at htotal
    rw [if_pos (by omega)]
    exact ⟨[], ⟨h.filePos, h.total, h.ne⟩, .ended (by simp [valid])⟩
  | cons b rest =>
    have hb : b ≠ [] := h.ne b List.mem_cons_self
    have hlt : it.filePos < blocks.length := by
      by_contra hge
      have hnil := h.filePos
      rw [List.drop_eq_nil_of_le (Nat.le_of_not_lt hge)] at hnil
      cases hnil
    have hcons := List.drop_eq_getElem_cons hlt
    rw [h.filePos] at hcons
    obtain ⟨hget, hdrop⟩ := List.cons.inj hcons
    have hblock : blocks.getD it.filePos [] = b := by
      rw [List.getD_eq_getElem?_getD, List.getElem?_eq_getElem hlt, hget]
      rfl
    have hlength : 0 < b.length := List.length_pos_iff.mpr hb
    rw [List.flatten_cons, List.length_append] at htotal
    rw [if_neg (by omega), hcached]
    simp only [hblock]
    have hreading : ∀ q current, Reading blocks rest
        { it with block := b, readEntries := it.readEntries + b.length, curBlock := it.curBlock + 1,
                  filePos := it.filePos + 1, pos := q, current := current } :=
      fun q current => ⟨hdrop.symm, htotal.trans (Nat.add_assoc _ _ _).symm,
        fun b' hb' => h.ne b' (List.mem_cons_of_mem _ hb')⟩
    have hskip := skipAborted_cases aborted
      { it with block := b, readEntries := it.readEntries + b.length, curBlock := it.curBlock + 1,
                filePos := it.filePos + 1 } 0
    refine ⟨rest, ?_⟩
    rw [readBlocks, readBlock]
    rcases hskip with ⟨e, q, hq, he, hlive, heq⟩ | ⟨hlive, q, hq, heq⟩
    · rw [heq]
      rw [List.drop_zero] at hlive
      refine ⟨hreading q e, ?_⟩
      rw [hlive, if_neg (by simp), List.cons_append]
      exact .entry hq he
    · rw [heq]
      rw [List.drop_zero] at hlive
      have hstate := hreading q (b.getLast?.getD it.current)
      refine ⟨hstate, ?_⟩
      rw [hlive]
      cases hrest : rest with
      | nil =>
        rw [hrest] at hstate
        exact .ended (valid_passed hstate hq rfl)
      | cons b' rest' =>
        rw [if_pos (by simp), List.getLast?_eq_getLast_of_ne_nil hb]
        exact .passed hb hq (by simp)

/-- One `Next`. -/
theorem Standing.next (hcached : ∀ i, cached i = none) (h : Reading blocks rest it) {e : KeyValuePair}
    {es : List KeyValuePair} (hs : Standing aborted rest it (e :: es)) :
    it.valid = true ∧ it.current = e ∧ ∃ rest', Reading blocks rest' (next blocks cached aborted it) ∧
      Standing aborted rest' (next blocks cached aborted it) es := by
  have hgo : ∀ q current, ∃ rest', Reading blocks rest' (SSTableIterator.readNextBlock blocks cached aborted
        { it with pos := q, current := current }) ∧
      Standing aborted rest' (SSTableIterator.readNextBlock blocks cached aborted
        { it with pos := q, current := current }) (readBlocks aborted rest) := by
    intro q current
    have hmoved : Reading blocks rest { it with pos := q, current := current } := ⟨h.filePos, h.total, h.ne⟩
    exact hmoved.readNextBlock hcached aborted
  unfold SSTableIterator.next
  simp only []
  cases hs with
  | entry hpos hlive =>
    have hlt : it.pos < it.block.length := (List.getElem?_eq_some_iff.mp hpos).1
    refine ⟨by simp [valid, hlt], rfl, ?_⟩
    rcases skipAborted_cases aborted it (it.pos + 1) with ⟨e, q, hq, he, hrest, heq⟩ | ⟨hrest, q, hq, heq⟩
    · have hqlt : q < it.block.length := (List.getElem?_eq_some_iff.mp hq).1
      rw [heq, if_neg (Nat.not_le.mpr hqlt), hrest]
      exact ⟨rest, ⟨h.filePos, h.total, h.ne⟩, .entry hq he⟩
    · rw [heq, if_pos hq, hrest, List.nil_append]
      exact hgo _ _
  | passed hne hpos hrest =>
    have hlength : 0 < it.block.length := List.length_pos_iff.mpr hne
    have hleft : 0 < rest.flatten.length := by
      obtain ⟨b, rest', rfl⟩ := List.exists_cons_of_ne_nil hrest
      have hb := List.length_pos_iff.mpr (h.ne b List.mem_cons_self)
      rw [List.flatten_cons, List.length_append]
      omega
    have htotal := h.total
    refine ⟨?_, rfl, ?_⟩
    · simp only [valid, Bool.or_eq_true, Bool.and_eq_true, decide_eq_true_eq]
      exact .inr ⟨by omega, hlength⟩
    · rcases skipAborted_cases aborted it (it.pos + 1) with ⟨e, q, -, -, hlive, -⟩ | ⟨-, q, hq, heq⟩
      · rw [List.drop_eq_nil_of_le (by omega)] at hlive
        cases hlive
      · rw [heq, if_pos hq]
        exact hgo _ _

theorem Standing.drain (hcached : ∀ i, cached i = none) (fuel : ℕ) (h : Reading blocks rest it) {es : List KeyValuePair}
    (hs : Standing aborted rest it es) (hfuel : es.length ≤ fuel) :
    drain blocks cached aborted fuel it = es := by
  induction fuel generalizing it rest es with
  | zero =>
    rw [List.length_eq_zero_iff.mp (Nat.le_zero.mp hfuel)]
    rfl
  | succ fuel ih =>
    cases es with
    | nil =>
      cases hs with
      | ended hvalid => rw [SSTableIterator.drain, if_neg (by simp [hvalid])]
    | cons e es =>
      obtain ⟨hvalid, hcurrent, rest', hreading, hnext⟩ := hs.next hcached h
      rw [SSTableIterator.drain, if_pos hvalid, hcurrent, ih hreading hnext (Nat.le_of_succ_le_succ hfuel)]

/-- With nothing cached an iterator yields what is read of the blocks of its file. -/
theorem stream_cold {f : SSTableFile} (hf : f.WellFormed) (hcached : ∀ i, cached i = none) (aborted : List ℕ) :
    stream (some f) cached aborted = readBlocks aborted f.blocks := by
  have hreading : Reading f.blocks f.blocks ⟨[], 0, f.entryCount, 0, ⟨[], [], 0, false⟩, 0, 0⟩ :=
    ⟨rfl, by rw [hf.entryCount, Nat.zero_add]; rfl, hf.blocks⟩
  obtain ⟨rest, hrest, hstanding⟩ := hreading.readNextBlock hcached aborted
  refine hstanding.drain hcached _ hrest ?_
  have hle := (readBlocks_sublist aborted f.blocks).length_le
  rw [hf.entryCount]
  show _ ≤ 2 * f.blocks.flatten.length + 1
  omega

/-! ## Exactly the live entries -/

/-- Every block that others follow has a live entry. -/
def LiveBlocks (aborted : List ℕ) (blocks : List (List KeyValuePair)) : Prop :=
  ∀ b ∈ blocks.dropLast, live aborted b ≠ []

instance decidableLiveBlocks (aborted : List ℕ) (blocks : List (List KeyValuePair)) :
    Decidable (LiveBlocks aborted blocks) :=
  inferInstanceAs (Decidable (∀ b ∈ blocks.dropLast, live aborted b ≠ []))

theorem readBlock_last (block : List KeyValuePair) : readBlock aborted true block = live aborted block := by
  rw [readBlock, if_neg (by simp)]

theorem readBlock_of_live {block : List KeyValuePair} (h : live aborted block ≠ []) (isLast : Bool) :
    readBlock aborted isLast block = live aborted block := by
  rw [readBlock, if_neg]
  rw [Bool.and_eq_true, List.isEmpty_iff]
  exact fun hempty => h hempty.1

/-- A block that is aborted as a whole adds an entry. -/
theorem readBlock_of_aborted {block : List KeyValuePair} (hne : block ≠ []) (h : live aborted block = []) :
    (readBlock aborted false block).length = 1 := by
  rw [readBlock, h, if_pos (by simp), List.getLast?_eq_getLast_of_ne_nil hne]
  rfl

theorem live_length_le (aborted : List ℕ) (blocks : List (List KeyValuePair)) :
    (live aborted blocks.flatten).length ≤ (readBlocks aborted blocks).length := by
  rw [← live_readBlocks]
  exact List.length_filter_le ..

/-- The live entries and no others are read exactly if every block that others follow has one of them. -/
theorem readBlocks_eq_live_iff (hne : ∀ b ∈ blocks, b ≠ []) :
    readBlocks aborted blocks = live aborted blocks.flatten ↔ LiveBlocks aborted blocks := by
  induction blocks with
  | nil => exact ⟨fun _ b hb => (by cases hb), fun _ => rfl⟩
  | cons block rest ih =>
    have ih := ih fun b hb => hne b (List.mem_cons_of_mem _ hb)
    cases rest with
    | nil =>
      refine ⟨fun _ b hb => (by cases hb), fun _ => ?_⟩
      rw [readBlocks, List.isEmpty_nil, readBlock_last, readBlocks, List.append_nil, List.flatten_singleton]
    | cons next rest =>
      rw [readBlocks, List.flatten_cons, live_append, LiveBlocks, List.dropLast_cons_cons, List.forall_mem_cons]
      by_cases hlive : live aborted block = []
      · refine ⟨fun heq => ?_, fun h => absurd hlive h.1⟩
        have hlength := congrArg List.length heq
        rw [List.length_append, List.isEmpty_cons, readBlock_of_aborted (hne block List.mem_cons_self) hlive, hlive,
          List.nil_append] at hlength
        have hle := live_length_le aborted (next :: rest)
        omega
      · rw [readBlock_of_live hlive, List.append_cancel_left_eq, ih]
        exact ⟨fun h => ⟨hlive, h⟩, fun h => h.2⟩

/-- With nothing cached an iterator yields exactly the entries that are not aborted if and only if every block that
others follow has such an entry. -/
theorem stream_live_iff (f : SSTableFile) (hf : f.WellFormed) (aborted : List ℕ) :
    stream (some f) (fun _ => none) aborted = live aborted f.entries ↔ LiveBlocks aborted f.blocks := by
  rw [stream_cold hf fun _ => rfl]
  exact readBlocks_eq_live_iff hf.blocks

/-- An entry that fills a block, and a small one. -/
def fullValue : Bytes := List.replicate 4090 0
def fullEntry : KeyValuePair := ⟨[1], fullValue, 1, false⟩
def smallEntry : KeyValuePair := ⟨[2], [2], 2, false⟩

/-- A file of two blocks with one entry each. -/
def twoBlocks : SSTableFile := SSTableFile.write (fun _ => (64, 1)) [fullEntry, smallEntry] []

theorem fullValue_length : fullValue.length = 4090 := List.length_replicate

theorem twoBlocks_wellFormed : twoBlocks.WellFormed := SSTableFile.write_wellFormed _ _ _

theorem twoBlocks_blocks : twoBlocks.blocks = [[fullEntry], [smallEntry]] := by
  simp [fullValue_length, twoBlocks, SSTableFile.write, SSTableFile.packBlocks, Pack.pack, Pack.packFrom, SSTableFile.wireSize, fullEntry,
    smallEntry, Config.sstableBlockSize]

theorem stream_live_twoBlocks :
    stream (some twoBlocks) (fun _ => none) [2] = live [2] twoBlocks.entries := by
  refine (stream_live_iff twoBlocks twoBlocks_wellFormed [2]).mpr ?_
  rw [LiveBlocks, twoBlocks_blocks]
  simp [live, fullEntry]

theorem aborted_entry_yielded :
    stream (some twoBlocks) (fun _ => none) [1] = [fullEntry, smallEntry] ∧
      live [1] twoBlocks.entries = [smallEntry] := by
  rw [stream_cold twoBlocks_wellFormed fun _ => rfl, SSTableFile.entries, twoBlocks_blocks]
  simp [readBlocks, readBlock, live, fullEntry, smallEntry]

end Kvdb.SSTableIterator
