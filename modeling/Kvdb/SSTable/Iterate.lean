import Kvdb.SSTable.Reader

/-! # What an iterator over a file yields

Whatever is cached, as long as the cached blocks come from the file an iterator yields entries of the
file only (`mem_stream`). It yields all of them in order when no cached block stands before one that
is not cached (`stream_eq`): a block from the cache does not move the file stream, so the next block
read from the file would be the wrong one. -/
namespace Kvdb
set_option autoImplicit false

namespace SSTableFile

/-- The header counts the entries, and no block is empty. -/
structure WellFormed (f : SSTableFile) : Prop where
  entryCount : f.entryCount = f.entries.length
  blocks : ∀ b ∈ f.blocks, b ≠ []

theorem write_wellFormed (sizing : ℕ → ℕ × ℕ) (es : List KeyValuePair) (aborted : List ℕ) :
    (write sizing es aborted).WellFormed :=
  ⟨(congrArg List.length (Pack.pack_flatten wireSize Config.sstableBlockSize 4 es)).symm,
    Pack.pack_ne_nil wireSize Config.sstableBlockSize 4 es⟩

theorem writeFromWalk_wellFormed (sizing : ℕ → ℕ × ℕ) (walk : List KeyValuePair) (n : ℕ)
    (aborted : List ℕ) : (writeFromWalk sizing walk n aborted).WellFormed :=
  ⟨(congrArg List.length (Pack.pack_flatten wireSize Config.sstableBlockSize 4 (flushEntries walk))).symm,
    Pack.pack_ne_nil wireSize Config.sstableBlockSize 4 (flushEntries walk)⟩

end SSTableFile

namespace SSTableIterator

/-- The cached blocks are blocks of the file. -/
def CachedFrom (f : SSTableFile) (cached : ℕ → Option (List KeyValuePair)) : Prop :=
  ∀ i b, cached i = some b → b = fileBlock (some f) i

/-- No cached block stands before one that is not cached. -/
def InOrder (f : SSTableFile) (cached : ℕ → Option (List KeyValuePair)) : Prop :=
  ∀ i < f.blocks.length, ∀ j < f.blocks.length, i < j → (cached i).isSome = true → (cached j).isSome = true

instance decidableInOrder (f : SSTableFile) (cached : ℕ → Option (List KeyValuePair)) :
    Decidable (InOrder f cached) :=
  inferInstanceAs (Decidable (∀ i < f.blocks.length, ∀ j < f.blocks.length, i < j →
    (cached i).isSome = true → (cached j).isSome = true))

variable {f : SSTableFile} {cached : ℕ → Option (List KeyValuePair)} {it : SSTableIterator} {k p : ℕ}
  (behind : List (List KeyValuePair))

theorem fileBlock_subset (f : SSTableFile) (i : ℕ) : fileBlock (some f) i ⊆ f.entries := by
  intro x hx
  simp only [fileBlock, Option.bind_some] at hx
  cases hb : f.blocks[i]? with
  | none =>
    rw [hb] at hx
    cases hx
  | some b =>
    rw [hb] at hx
    exact List.mem_flatten.mpr ⟨b, List.mem_of_getElem? hb, hx⟩

/-! ## Entries of the file only -/

section Inside

variable {P : KeyValuePair → Prop} {blocks : List (List KeyValuePair)}

/-- All entries that an iterator can read meet `P`. -/
structure Holds (P : KeyValuePair → Prop) (blocks : List (List KeyValuePair))
    (cached : ℕ → Option (List KeyValuePair)) : Prop where
  blocks : ∀ b ∈ blocks, ∀ x ∈ b, P x
  cached : ∀ i b, cached i = some b → ∀ x ∈ b, P x

/-- The entries of the current block meet `P`, and the current entry is one of them. -/
structure Inside (P : KeyValuePair → Prop) (it : SSTableIterator) : Prop where
  block : ∀ x ∈ it.block, P x
  current : it.block ≠ [] → it.current ∈ it.block

theorem inside_skipAborted (aborted : List ℕ) (it : SSTableIterator) (pos : ℕ) (h : ∀ x ∈ it.block, P x) :
    Inside P (skipAborted aborted it pos) := by
  unfold skipAborted
  simp only []
  split
  · next e he => exact ⟨h, fun _ => List.mem_of_getElem? he⟩
  · refine ⟨h, ?_⟩
    intro hne
    show it.block.getLast?.getD it.current ∈ it.block
    rw [List.getLast?_eq_getLast_of_ne_nil hne, Option.getD_some]
    exact List.getLast_mem hne

theorem inside_readNextBlock (hc : Holds P blocks cached) (aborted : List ℕ) (it : SSTableIterator) :
    Inside P (readNextBlock blocks cached aborted it) := by
  unfold readNextBlock
  split
  · exact ⟨fun _ hx => (by cases hx), fun h => absurd rfl h⟩
  · split
    · next b hb => exact inside_skipAborted aborted _ 0 (hc.cached _ b hb)
    · refine inside_skipAborted aborted _ 0 ?_
      show ∀ x ∈ blocks.getD it.filePos [], P x
      rw [List.getD_eq_getElem?_getD]
      cases hb : blocks[it.filePos]? with
      | none => exact fun _ hx => (by cases hx)
      | some b => exact hc.blocks b (List.mem_of_getElem? hb)

theorem Inside.next (h : Inside P it) (hc : Holds P blocks cached) (aborted : List ℕ) :
    Inside P (next blocks cached aborted it) := by
  have hskip := inside_skipAborted aborted it (it.pos + 1) h.block
  unfold SSTableIterator.next
  simp only []
  split
  · exact inside_readNextBlock hc aborted _
  · exact hskip

theorem Inside.drain (hc : Holds P blocks cached) (aborted : List ℕ) (fuel : ℕ) (it : SSTableIterator)
    (h : Inside P it) : ∀ x ∈ drain blocks cached aborted fuel it, P x := by
  induction fuel generalizing it with
  | zero =>
    intro x hx
    cases hx
  | succ fuel ih =>
    intro x hx
    unfold SSTableIterator.drain at hx
    split at hx
    · next hvalid =>
      rcases List.mem_cons.mp hx with rfl | hx
      · refine h.block _ (h.current ?_)
        intro hnil
        simp [valid, hnil] at hvalid
      · exact ih _ (h.next hc aborted) x hx
    · cases hx

end Inside

theorem CachedFrom.holds (hc : CachedFrom f cached) {P : KeyValuePair → Prop} (hP : ∀ x ∈ f.entries, P x)
    (hbehind : ∀ b ∈ behind, ∀ x ∈ b, P x) : Holds P (f.blocks ++ behind) cached := by
  refine ⟨?_, ?_⟩
  · intro b hb x hx
    rcases List.mem_append.mp hb with hb | hb
    · exact hP x (List.mem_flatten.mpr ⟨b, hb, hx⟩)
    · exact hbehind b hb x hx
  · intro i b hb x hx
    rw [hc i b hb] at hx
    exact hP x (fileBlock_subset f i hx)

/-- An iterator over a file yields entries of the file. -/
theorem mem_stream (hc : CachedFrom f cached) (aborted : List ℕ) :
    ∀ x ∈ stream (some f) cached aborted, x ∈ f.entries := by
  have hholds := hc.holds [] (fun x hx => hx) fun _ hb => (by cases hb)
  rw [List.append_nil] at hholds
  exact Inside.drain hholds aborted _ _ (inside_readNextBlock hholds aborted _)

/-! ## All entries in order -/

theorem skipAborted_nil (it : SSTableIterator) (pos : ℕ) {e : KeyValuePair} (h : it.block[pos]? = some e) :
    skipAborted [] it pos = { it with pos := pos, current := e } := by
  have hskip : ((it.block.drop pos).takeWhile fun e => decide (e.timestamp ∈ ([] : List ℕ))).length = 0 := by
    cases it.block.drop pos with
    | nil => rfl
    | cons x xs => simp
  unfold skipAborted
  simp only [hskip, Nat.add_zero, h]

theorem skipAborted_nil_end (it : SSTableIterator) (pos : ℕ) (h : it.block.length ≤ pos) :
    ∃ current, skipAborted [] it pos = { it with pos := pos, current := current } := by
  have hdrop : it.block.drop pos = [] := List.drop_eq_nil_of_le h
  unfold skipAborted
  simp only [hdrop, List.takeWhile_nil, List.length_nil, Nat.add_zero, List.getElem?_eq_none h]
  exact ⟨_, rfl⟩

variable {start : ℕ}

/-- The iterator stands at position `p` of block `k` and has read on from block `start`; it counts the
entries only from there. -/
structure At (f : SSTableFile) (cached : ℕ → Option (List KeyValuePair)) (start : ℕ) (it : SSTableIterator)
    (k p : ℕ) : Prop where
  after : start ≤ k
  block : f.blocks[k]? = some it.block
  pos : it.pos = p
  current : it.block[p]? = some it.current
  total : it.totalEntries = f.entryCount
  read : (f.blocks.take start).flatten.length + it.readEntries = (f.blocks.take (k + 1)).flatten.length
  curBlock : it.curBlock = k + 1
  filePos : (∀ i, start ≤ i → i ≤ k → cached i = none) → it.filePos = k + 1

/-- What is left to yield there. -/
def remaining (f : SSTableFile) (it : SSTableIterator) (k p : ℕ) : List KeyValuePair :=
  it.block.drop p ++ (f.blocks.drop (k + 1)).flatten

/-- The iterator before block `k`, the first one or one that follows what it has read. -/
structure Before (f : SSTableFile) (cached : ℕ → Option (List KeyValuePair)) (start : ℕ) (it : SSTableIterator)
    (k : ℕ) : Prop where
  after : start ≤ k
  total : it.totalEntries = f.entryCount
  read : (f.blocks.take start).flatten.length + it.readEntries = (f.blocks.take k).flatten.length
  curBlock : it.curBlock = k
  filePos : (∀ i, start ≤ i → i < k → cached i = none) → it.filePos = k

/-- Reading on finds the first entry of the next block. At the end of the file it stops if it has counted
all entries; `behind` is what the bytes there decode to. -/
theorem Before.readNextBlock (h : Before f cached start it k) (hf : f.WellFormed) (hc : CachedFrom f cached)
    (ho : InOrder f cached) :
    (f.blocks.length ≤ k ∧ (start = 0 → (readNextBlock (f.blocks ++ behind) cached [] it).valid = false)) ∨
      At f cached start (readNextBlock (f.blocks ++ behind) cached [] it) k 0 := by
  have hall : (f.blocks.take k).flatten ++ (f.blocks.drop k).flatten = f.entries := by
    rw [← List.flatten_append, List.take_append_drop]
    rfl
  have hlen := congrArg List.length hall
  have hread := h.read
  rw [List.length_append, ← hf.entryCount] at hlen
  unfold SSTableIterator.readNextBlock
  by_cases hend : f.blocks.length ≤ k
  · refine .inl ⟨hend, ?_⟩
    intro hstart
    subst hstart
    rw [List.drop_eq_nil_of_le hend, List.flatten_nil, List.length_nil] at hlen
    rw [List.take_zero, List.flatten_nil, List.length_nil] at hread
    rw [if_pos (by rw [h.total]; omega)]
    simp [valid]
  · have hk : k < f.blocks.length := Nat.lt_of_not_le hend
    obtain ⟨e, es, hb⟩ := List.exists_cons_of_ne_nil (hf.blocks f.blocks[k] (List.getElem_mem hk))
    have hget : f.blocks[k]? = some (e :: es) := by rw [List.getElem?_eq_getElem hk, hb]
    have hdrop : f.blocks.drop k = (e :: es) :: f.blocks.drop (k + 1) := by
      rw [List.drop_eq_getElem_cons hk, hb]
    have htake : (f.blocks.take (k + 1)).flatten = (f.blocks.take k).flatten ++ (e :: es) := by
      rw [List.take_add_one, hget, List.flatten_append]
      simp
    rw [hdrop, List.flatten_cons, List.length_append, List.length_cons] at hlen
    rw [if_neg (by rw [h.total]; omega), h.curBlock]
    refine .inr ?_
    have hcount : (f.blocks.take start).flatten.length + (it.readEntries + (e :: es).length) =
        (f.blocks.take (k + 1)).flatten.length := by
      rw [htake, List.length_append, ← hread]
      omega
    cases hcached : cached k with
    | some b =>
      have hbe : b = e :: es := by
        rw [hc k b hcached, fileBlock, Option.bind_some, hget]
        rfl
      subst hbe
      simp only []
      rw [skipAborted_nil (e := e) _ 0 (by rfl)]
      refine ⟨h.after, hget, rfl, rfl, h.total, hcount, rfl, ?_⟩
      intro hnone
      rw [hnone k h.after (Nat.le_refl k)] at hcached
      cases hcached
    | none =>
      have hbefore : ∀ i, start ≤ i → i < k → cached i = none := by
        intro i _ hi
        by_contra hsome
        have := ho i (Nat.lt_trans hi hk) k hk hi (Option.isSome_iff_ne_none.mpr hsome)
        rw [hcached] at this
        cases this
      have hpos := h.filePos hbefore
      have hblock : (f.blocks ++ behind).getD it.filePos [] = e :: es := by
        rw [hpos, List.getD_eq_getElem?_getD, List.getElem?_append_left hk, hget]
        rfl
      simp only [hblock]
      rw [skipAborted_nil (e := e) _ 0 (by rfl)]
      refine ⟨h.after, hget, rfl, rfl, h.total, hcount, rfl, ?_⟩
      intro _
      show it.filePos + 1 = k + 1
      rw [hpos]

/-- `Next` yields the entry after the current one, or goes on to the next block. -/
theorem At.next (h : At f cached start it k p) (hf : f.WellFormed) (hc : CachedFrom f cached)
    (ho : InOrder f cached) :
    (At f cached start (next (f.blocks ++ behind) cached [] it) k (p + 1) ∧
        (next (f.blocks ++ behind) cached [] it).block = it.block) ∨
      (p + 1 = it.block.length ∧
        ((f.blocks.length ≤ k + 1 ∧ (start = 0 → (next (f.blocks ++ behind) cached [] it).valid = false)) ∨
          At f cached start (next (f.blocks ++ behind) cached [] it) (k + 1) 0)) := by
  have hp : p < it.block.length := (List.getElem?_eq_some_iff.mp h.current).1
  by_cases hlast : p + 1 < it.block.length
  · have hskip : skipAborted [] it (it.pos + 1) =
        { it with pos := p + 1, current := it.block[p + 1] } := by
      rw [h.pos]
      exact skipAborted_nil it (p + 1) (List.getElem?_eq_getElem hlast)
    have hnext : SSTableIterator.next (f.blocks ++ behind) cached [] it =
        { it with pos := p + 1, current := it.block[p + 1] } := by
      unfold SSTableIterator.next
      simp only [hskip]
      rw [if_neg (by omega)]
    rw [hnext]
    refine .inl ⟨⟨h.after, h.block, rfl, List.getElem?_eq_getElem hlast, h.total, h.read, h.curBlock, h.filePos⟩, rfl⟩
  · have hend : p + 1 = it.block.length := by omega
    obtain ⟨current, hskip⟩ := skipAborted_nil_end it (it.pos + 1) (by rw [h.pos]; omega)
    have hnext : SSTableIterator.next (f.blocks ++ behind) cached [] it =
        SSTableIterator.readNextBlock (f.blocks ++ behind) cached [] { it with pos := it.pos + 1, current := current } := by
      unfold SSTableIterator.next
      simp only [hskip]
      rw [if_pos (by rw [h.pos]; omega)]
    have hbefore : Before f cached start { it with pos := it.pos + 1, current := current } (k + 1) :=
      ⟨Nat.le_succ_of_le h.after, h.total, h.read, h.curBlock,
        fun hnone => h.filePos fun i hs hi => hnone i hs (Nat.lt_succ_of_le hi)⟩
    rw [hnext]
    exact .inr ⟨hend, hbefore.readNextBlock behind hf hc ho⟩

theorem At.valid (h : At f cached start it k p) : it.valid = true := by
  have hp : p < it.block.length := (List.getElem?_eq_some_iff.mp h.current).1
  rw [SSTableIterator.valid, h.pos, decide_eq_true hp, Bool.true_or]

theorem At.remaining_cons (h : At f cached start it k p) : remaining f it k p =
    it.current :: (it.block.drop (p + 1) ++ (f.blocks.drop (k + 1)).flatten) := by
  obtain ⟨hp, hcur⟩ := List.getElem?_eq_some_iff.mp h.current
  rw [remaining, List.drop_eq_getElem_cons hp, hcur, List.cons_append]

/-- What is left behind the current entry is left after `Next`, if that stays inside the file. -/
theorem At.next_remaining (h : At f cached start it k p) (hf : f.WellFormed) (hc : CachedFrom f cached)
    (ho : InOrder f cached) :
    (∃ k' p', At f cached start (SSTableIterator.next (f.blocks ++ behind) cached [] it) k' p' ∧
        remaining f it k p = it.current :: remaining f (SSTableIterator.next (f.blocks ++ behind) cached [] it) k' p') ∨
      (remaining f it k p = [it.current] ∧
        (start = 0 → (SSTableIterator.next (f.blocks ++ behind) cached [] it).valid = false)) := by
  rw [h.remaining_cons]
  rcases h.next behind hf hc ho with ⟨hnext, hblock⟩ | ⟨hend, ⟨hlast, hinvalid⟩ | hnext⟩
  · refine .inl ⟨k, p + 1, hnext, ?_⟩
    rw [remaining, hblock]
  · refine .inr ⟨?_, hinvalid⟩
    rw [List.drop_eq_nil_of_le (Nat.le_of_eq hend.symm), List.drop_eq_nil_of_le hlast]
    rfl
  · have hk : k + 1 < f.blocks.length := (List.getElem?_eq_some_iff.mp hnext.block).1
    refine .inl ⟨k + 1, 0, hnext, ?_⟩
    rw [remaining, List.drop_zero, List.drop_eq_nil_of_le (Nat.le_of_eq hend.symm), List.nil_append,
      List.drop_eq_getElem_cons hk, List.flatten_cons]
    congr 2
    exact (List.getElem?_eq_some_iff.mp hnext.block).2

theorem drain_of_not_valid (blocks : List (List KeyValuePair)) (fuel : ℕ) (h : it.valid = false) :
    drain blocks cached [] fuel it = [] := by
  cases fuel with
  | zero => rfl
  | succ fuel => rw [drain, if_neg (by simp [h])]

/-- What is left is yielded, followed by nothing if all entries are counted. -/
theorem At.drain (hf : f.WellFormed) (hc : CachedFrom f cached) (ho : InOrder f cached) (fuel : ℕ)
    (h : At f cached start it k p) (hfuel : (remaining f it k p).length ≤ fuel) :
    ∃ junk, drain (f.blocks ++ behind) cached [] fuel it = remaining f it k p ++ junk ∧ (start = 0 → junk = []) := by
  induction fuel generalizing it k p with
  | zero =>
    rw [h.remaining_cons, List.length_cons] at hfuel
    omega
  | succ fuel ih =>
    rw [SSTableIterator.drain, if_pos h.valid]
    rcases h.next_remaining behind hf hc ho with ⟨k', p', hnext, heq⟩ | ⟨heq, hinvalid⟩
    · rw [heq, List.length_cons] at hfuel
      obtain ⟨junk, hdrain, hjunk⟩ := ih hnext (by omega)
      refine ⟨junk, ?_, hjunk⟩
      rw [hdrain, heq, List.cons_append]
    · rw [heq]
      refine ⟨_, rfl, fun hstart => ?_⟩
      exact drain_of_not_valid _ _ (hinvalid hstart)

/-- An iterator is opened at the front of the file. -/
theorem openFile_at (hf : f.WellFormed) (hc : CachedFrom f cached) (ho : InOrder f cached) :
    (f.entries = [] ∧ (openFile f cached []).valid = false) ∨
      (At f cached 0 (openFile f cached []) 0 0 ∧ remaining f (openFile f cached []) 0 0 = f.entries) := by
  have hbefore : Before f cached 0 ⟨[], 0, f.entryCount, 0, ⟨[], [], 0, false⟩, 0, 0⟩ 0 :=
    ⟨Nat.le_refl 0, rfl, rfl, rfl, fun _ => rfl⟩
  have hread := hbefore.readNextBlock [] hf hc ho
  rw [List.append_nil] at hread
  rcases hread with ⟨hend, hinvalid⟩ | hat
  · have hnil : f.blocks = [] := List.length_eq_zero_iff.mp (Nat.le_zero.mp hend)
    refine .inl ⟨?_, hinvalid rfl⟩
    rw [SSTableFile.entries, hnil]
    rfl
  · refine .inr ⟨hat, ?_⟩
    have hk : 0 < f.blocks.length := (List.getElem?_eq_some_iff.mp hat.block).1
    have hsplit : f.blocks[0] :: f.blocks.drop 1 = f.blocks := by
      rw [← List.drop_eq_getElem_cons hk, List.drop_zero]
    rw [openFile, remaining, List.drop_zero, ← (List.getElem?_eq_some_iff.mp hat.block).2, SSTableFile.entries]
    exact (List.flatten_cons).symm.trans (congrArg List.flatten hsplit)

/-- Without aborted batches an iterator yields the file, if the cache is in order. -/
theorem drain_openFile (hf : f.WellFormed) (hc : CachedFrom f cached) (ho : InOrder f cached) :
    drain (f.blocks ++ behind) cached [] (2 * f.entryCount + 1) (openFile f cached []) = f.entries := by
  rcases openFile_at hf hc ho with ⟨hnil, hinvalid⟩ | ⟨hat, heq⟩
  · rw [drain_of_not_valid _ _ hinvalid, hnil]
  · obtain ⟨junk, hdrain, hjunk⟩ := hat.drain behind hf hc ho (2 * f.entryCount + 1) (by rw [heq, hf.entryCount]; omega)
    rw [hdrain, hjunk rfl, List.append_nil, heq]

theorem stream_eq (hf : f.WellFormed) (hc : CachedFrom f cached) (ho : InOrder f cached) :
    stream (some f) cached [] = f.entries := by
  have hdrain := drain_openFile [] hf hc ho
  rw [List.append_nil] at hdrain
  exact hdrain

end SSTableIterator

end Kvdb
