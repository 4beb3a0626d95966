import Kvdb.SSTable.SortedFile
import Mathlib.Data.List.DropRight
import Mathlib.Data.List.Sort

/-! # Seeking in a table (`SSTableIterator::SeekToKey`, `LevelIterator`)

`SeekToKey` jumps to a block by the block index and passes over the entries below the key. After a jump
the entries are counted from zero, so that an iterator that has left out blocks does not notice the end of
the file and decodes what stands behind the last block; the blocks that come out of this are a part of the
view, about which nothing is known.

A `LevelIterator` opens its first table when it is made, and its `SeekToKey` looks only at the tables
behind that one. -/
namespace Kvdb
set_option autoImplicit false

namespace SSTableIterator

/-- What an iterator reads from: the blocks of the file and those behind them, the cached blocks, the
aborted timestamps and the block index. -/
structure View where
  blocks : List (List KeyValuePair)
  cached : ℕ → Option (List KeyValuePair)
  aborted : List ℕ
  firstKeys : List Bytes

/-- The block that `SeekToKey` begins at: the last one whose first key is below the key. -/
def seekTarget (firstKeys : List Bytes) (key : Bytes) : ℕ :=
  Bisect.bisect (fun fk : Bytes => decide (key ≤ fk)) (fun lo hi => (lo + hi) / 2) firstKeys
    firstKeys.length 0 firstKeys.length - 1

/-- The file stream is moved to a block, the count starts anew and the block is read. -/
def jumpTo (v : View) (target : ℕ) (it : SSTableIterator) : SSTableIterator :=
  readNextBlock v.blocks v.cached v.aborted
    { it with block := [], pos := 0, readEntries := 0, curBlock := target, filePos := target }

/-- `while (Valid() && Current().key < key) Next()`. -/
def passBelow (v : View) (key : Bytes) : ℕ → SSTableIterator → SSTableIterator
  | 0, it => it
  | fuel + 1, it =>
    if it.valid && decide (it.current.key < key) then
      passBelow v key fuel (next v.blocks v.cached v.aborted it)
    else it

/-- `SeekToKey`; no jump is made if the block has just been read. -/
def seekToKey (v : View) (key : Bytes) (it : SSTableIterator) : SSTableIterator :=
  let target := seekTarget v.firstKeys key
  passBelow v key (2 * it.totalEntries + 1)
    (if v.firstKeys.isEmpty || decide (target + 1 = it.curBlock) then it else jumpTo v target it)

/-- The entries that a consumer sees from here on. -/
def yields (v : View) (it : SSTableIterator) : List KeyValuePair :=
  drain v.blocks v.cached v.aborted (2 * it.totalEntries + 1) it

/-! ## What a sought iterator can yield -/

section Inside

variable {P : KeyValuePair → Prop} {v : View} (hv : Holds P v.blocks v.cached) {it : SSTableIterator}

include hv

theorem Inside.passBelow (key : Bytes) (fuel : ℕ) (h : Inside P it) : Inside P (passBelow v key fuel it) := by
  induction fuel generalizing it with
  | zero => exact h
  | succ fuel ih =>
    unfold SSTableIterator.passBelow
    split
    · exact ih (h.next hv v.aborted)
    · exact h

theorem Inside.seekToKey (key : Bytes) (h : Inside P it) : Inside P (seekToKey v key it) := by
  refine Inside.passBelow hv key _ ?_
  split
  · exact h
  · exact inside_readNextBlock hv v.aborted _

theorem Inside.yields (h : Inside P it) : ∀ x ∈ yields v it, P x := Inside.drain hv v.aborted _ it h

end Inside

/-! ## The block a seek begins at -/

section Target

variable {f : SSTableFile}

theorem seekTarget_splits (h : f.Sorted) (key : Bytes) :
    ∃ r ≤ f.firstKeys.length, seekTarget f.firstKeys key = r - 1 ∧
      Bisect.Splits (fun fk : Bytes => decide (key ≤ fk)) f.firstKeys r := by
  have hmono : Bisect.Monotone (fun fk : Bytes => decide (key ≤ fk)) f.firstKeys := by
    refine (SSTableFile.firstKeys_pairwise h.wellFormed h.ascending).imp ?_
    intro a b hab hle
    exact decide_eq_true ((of_decide_eq_true hle).trans hab.le)
  refine ⟨_, ?_, rfl, Bisect.bisect_all SSTableFile.target_middle hmono⟩
  exact Bisect.bisect_le SSTableFile.target_middle f.firstKeys f.firstKeys.length 0 f.firstKeys.length (Nat.zero_le _)

theorem seekTarget_lt (h : f.Sorted) (key : Bytes) (hne : f.blocks ≠ []) :
    seekTarget f.firstKeys key < f.blocks.length := by
  obtain ⟨r, hr, htarget, -⟩ := seekTarget_splits h key
  have hlen : f.firstKeys.length = f.blocks.length := List.length_map ..
  have hpos := List.length_pos_of_ne_nil hne
  rw [htarget]
  omega

/-- All entries of the blocks that a seek leaves out are below the key. -/
theorem take_seekTarget_lt (h : f.Sorted) (key : Bytes) :
    ∀ x ∈ (f.blocks.take (seekTarget f.firstKeys key)).flatten, x.key < key := by
  obtain ⟨r, hr, htarget, hsplit⟩ := seekTarget_splits h key
  intro x hx
  rw [htarget] at hx
  have hlen : f.firstKeys.length = f.blocks.length := List.length_map ..
  by_cases hzero : r - 1 = 0
  · rw [hzero] at hx
    cases hx
  · have hlt : r - 1 < f.blocks.length := by omega
    obtain ⟨y, ys, hblock⟩ := List.exists_cons_of_ne_nil (h.wellFormed.blocks _ (List.getElem_mem hlt))
    have hfirst : f.firstKeys[r - 1]? = some y.key := by
      rw [f.firstKeys_getElem?, List.getElem?_eq_getElem hlt, hblock]
      rfl
    have hbelow : y.key < key := by
      have hp := hsplit.1 (r - 1) y.key (by omega) hfirst
      exact not_le.mp (of_decide_eq_false hp)
    have hsorted : (f.blocks.take (r - 1) ++ f.blocks.drop (r - 1)).flatten.Pairwise fun a b => a.key < b.key := by
      rw [List.take_append_drop]
      exact h.ascending
    rw [List.flatten_append, List.pairwise_append] at hsorted
    refine lt_trans (hsorted.2.2 x hx y ?_) hbelow
    rw [List.drop_eq_getElem_cons hlt, hblock]
    exact List.mem_cons_self

end Target

/-! ## A sought iterator -/

section Seek

variable {f : SSTableFile} {cached : ℕ → Option (List KeyValuePair)} {it : SSTableIterator} {start k p : ℕ}

/-- The view of a file without aborted batches. -/
def fileView (f : SSTableFile) (cached : ℕ → Option (List KeyValuePair)) (behind : List (List KeyValuePair)) : View :=
  ⟨f.blocks ++ behind, cached, [], f.firstKeys⟩

def below (key : Bytes) (x : KeyValuePair) : Bool := decide (x.key < key)

variable (hf : f.Sorted) (hc : CachedFrom f cached) (ho : InOrder f cached) (behind : List (List KeyValuePair))

include hf hc ho

theorem At.passBelow {key : Bytes} (fuel : ℕ) (h : At f cached start it k p)
    (hstop : ∃ x ∈ remaining f it k p, below key x = false) (hfuel : (remaining f it k p).length ≤ fuel) :
    ∃ k' p', At f cached start (passBelow (fileView f cached behind) key fuel it) k' p' ∧
      remaining f (passBelow (fileView f cached behind) key fuel it) k' p' =
        (remaining f it k p).dropWhile (below key) := by
  induction fuel generalizing it k p with
  | zero =>
    rw [h.remaining_cons, List.length_cons] at hfuel
    omega
  | succ fuel ih =>
    rw [SSTableIterator.passBelow, h.valid, Bool.true_and]
    by_cases hbelow : it.current.key < key
    · have hpass : below key it.current = true := decide_eq_true hbelow
      rw [if_pos (decide_eq_true hbelow)]
      rcases h.next_remaining behind hf.wellFormed hc ho with ⟨k', p', hnext, heq⟩ | ⟨heq, -⟩
      · rw [heq, List.length_cons] at hfuel
        rw [heq, List.dropWhile_cons_of_pos hpass]
        refine ih hnext ?_ (Nat.le_of_succ_le_succ hfuel)
        obtain ⟨x, hx, hstop⟩ := hstop
        rw [heq, List.mem_cons] at hx
        rcases hx with rfl | hx
        · rw [hpass] at hstop
          cases hstop
        · exact ⟨x, hx, hstop⟩
      · obtain ⟨x, hx, hstop⟩ := hstop
        rw [heq, List.mem_singleton] at hx
        rw [hx, hpass] at hstop
        cases hstop
    · rw [if_neg (by simpa using hbelow)]
      refine ⟨k, p, h, ?_⟩
      rw [h.remaining_cons, List.dropWhile_cons_of_neg (by simpa [below] using hbelow)]

theorem jumpTo_at {target : ℕ} (htarget : target < f.blocks.length) (htotal : it.totalEntries = f.entryCount) :
    At f cached target (jumpTo (fileView f cached behind) target it) target 0 ∧
      remaining f (jumpTo (fileView f cached behind) target it) target 0 = (f.blocks.drop target).flatten := by
  have hbefore : Before f cached target
      { it with block := [], pos := 0, readEntries := 0, curBlock := target, filePos := target } target :=
    ⟨Nat.le_refl _, htotal, rfl, rfl, fun _ => rfl⟩
  rcases hbefore.readNextBlock behind hf.wellFormed hc ho with ⟨hend, -⟩ | hat
  · omega
  · refine ⟨hat, ?_⟩
    rw [remaining, List.drop_zero, List.drop_eq_getElem_cons htarget, List.flatten_cons]
    congr 1
    exact (List.getElem?_eq_some_iff.mp hat.block).2.symm

/-- An iterator from which a seek to the key still sees all entries from the key on; it has counted all
entries unless the seek jumps. -/
structure Near (f : SSTableFile) (cached : ℕ → Option (List KeyValuePair)) (key : Bytes) (start : ℕ)
    (it : SSTableIterator) (k p : ℕ) : Prop where
  position : At f cached start it k p
  entries : (remaining f it k p).dropWhile (below key) = f.entries.dropWhile (below key)
  counted : seekTarget f.firstKeys key = 0 → start = 0

omit hc ho in
theorem remaining_length_le (h : At f cached start it k p) : (remaining f it k p).length ≤ f.entryCount := by
  obtain ⟨hk, hblock⟩ := List.getElem?_eq_some_iff.mp h.block
  have hall : (f.blocks.take k).flatten ++ (f.blocks.drop k).flatten = f.entries := by
    rw [← List.flatten_append, List.take_append_drop]
    rfl
  have hlen := congrArg List.length hall
  rw [List.drop_eq_getElem_cons hk, hblock, List.flatten_cons, List.length_append, List.length_append] at hlen
  rw [hf.wellFormed.entryCount, remaining, List.length_append, List.length_drop, ← hlen]
  omega

/-- After a seek the iterator stands at the first entry that is not below the key. -/
theorem Near.seekToKey {key : Bytes} (h : Near f cached key start it k p)
    (hstop : ∃ x ∈ f.entries, below key x = false) :
    ∃ start' k' p', Near f cached key start' (seekToKey (fileView f cached behind) key it) k' p' ∧
      remaining f (seekToKey (fileView f cached behind) key it) k' p' = f.entries.dropWhile (below key) := by
  have hblocks : f.blocks ≠ [] := by
    rintro hnil
    have hk := (List.getElem?_eq_some_iff.mp h.position.block).1
    rw [hnil] at hk
    cases hk
  have hkeys : f.firstKeys.isEmpty = false := by
    rw [SSTableFile.firstKeys, List.isEmpty_map]
    exact List.isEmpty_eq_false_iff.mpr hblocks
  -- a position from which the entries are passed over, and what it counts
  have hfrom : ∀ {start' k' p' : ℕ} {it' : SSTableIterator}, At f cached start' it' k' p' →
      (remaining f it' k' p').dropWhile (below key) = f.entries.dropWhile (below key) →
      (seekTarget f.firstKeys key = 0 → start' = 0) →
      ∃ k'' p'', Near f cached key start'
          (passBelow (fileView f cached behind) key (2 * it.totalEntries + 1) it') k'' p'' ∧
        remaining f (passBelow (fileView f cached behind) key (2 * it.totalEntries + 1) it') k'' p'' =
          f.entries.dropWhile (below key) := by
    intro start' k' p' it' hat hentries hcounted
    have hsome : ∃ x ∈ remaining f it' k' p', below key x = false := by
      have hne : f.entries.dropWhile (below key) ≠ [] := by
        intro hnil
        obtain ⟨x, hx, hstop⟩ := hstop
        have hpos := List.dropWhile_eq_nil_iff.mp hnil x hx
        rw [hstop] at hpos
        cases hpos
      rw [← hentries] at hne
      by_contra hall
      refine hne (List.dropWhile_eq_nil_iff.mpr fun x hx => ?_)
      by_contra hx'
      exact hall ⟨x, hx, Bool.eq_false_iff.mpr hx'⟩
    have hfuel := remaining_length_le hf hat
    obtain ⟨k'', p'', hat', heq⟩ := hat.passBelow hf hc ho behind (2 * it.totalEntries + 1) hsome
      (by rw [h.position.total]; omega)
    rw [hentries] at heq
    refine ⟨k'', p'', ⟨hat', ?_, hcounted⟩, heq⟩
    rw [heq, List.dropWhile_idempotent]
  simp only [SSTableIterator.seekToKey]
  by_cases hstay : seekTarget f.firstKeys key + 1 = it.curBlock
  · have hno : ((fileView f cached behind).firstKeys.isEmpty ||
        decide (seekTarget (fileView f cached behind).firstKeys key + 1 = it.curBlock)) = true := by
      rw [decide_eq_true (show seekTarget (fileView f cached behind).firstKeys key + 1 = it.curBlock from hstay),
        Bool.or_true]
    rw [if_pos hno]
    obtain ⟨k', p', hnear, heq⟩ := hfrom h.position h.entries h.counted
    exact ⟨start, k', p', hnear, heq⟩
  · have hjump : ¬ ((fileView f cached behind).firstKeys.isEmpty ||
        decide (seekTarget (fileView f cached behind).firstKeys key + 1 = it.curBlock)) = true := by
      rw [show (fileView f cached behind).firstKeys.isEmpty = false from hkeys, Bool.false_or, decide_eq_true_eq]
      exact hstay
    rw [if_neg hjump]
    obtain ⟨hat, hremaining⟩ := jumpTo_at hf hc ho behind (seekTarget_lt hf key hblocks) h.position.total
    have hskip : (f.blocks.drop (seekTarget f.firstKeys key)).flatten.dropWhile (below key) =
        f.entries.dropWhile (below key) := by
      have hall : f.entries = (f.blocks.take (seekTarget f.firstKeys key)).flatten ++
          (f.blocks.drop (seekTarget f.firstKeys key)).flatten := by
        rw [← List.flatten_append, List.take_append_drop]
        rfl
      rw [hall, List.dropWhile_append_of_pos]
      exact fun x hx => decide_eq_true (take_seekTarget_lt hf key x hx)
    rw [← hremaining] at hskip
    obtain ⟨k', p', hnear, heq⟩ := hfrom hat hskip id
    exact ⟨_, k', p', hnear, heq⟩

/-- Two seeks, as a range scan makes them, leave the entries from the key on; behind them nothing is
yielded if the seek begins at the first block. -/
theorem yields_seek_twice {key : Bytes} (hstop : ∃ x ∈ f.entries, below key x = false) :
    let v := fileView f cached behind
    (openFile f cached []).valid = true ∧ (seekToKey v key (openFile f cached [])).valid = true ∧
      ∃ junk, yields v (seekToKey v key (seekToKey v key (openFile f cached []))) =
          f.entries.dropWhile (below key) ++ junk ∧ (seekTarget f.firstKeys key = 0 → junk = []) := by
  intro v
  rcases openFile_at hf.wellFormed hc ho with ⟨hnil, -⟩ | ⟨hat, heq⟩
  · obtain ⟨x, hx, -⟩ := hstop
    rw [hnil] at hx
    cases hx
  · have hnear : Near f cached key 0 (openFile f cached []) 0 0 := ⟨hat, by rw [heq], fun _ => rfl⟩
    obtain ⟨s₁, k₁, p₁, h₁, -⟩ := hnear.seekToKey hf hc ho behind hstop
    obtain ⟨s₂, k₂, p₂, h₂, heq₂⟩ := h₁.seekToKey hf hc ho behind hstop
    refine ⟨hat.valid, h₁.position.valid, ?_⟩
    have hlen := remaining_length_le hf h₂.position
    obtain ⟨junk, hdrain, hjunk⟩ := h₂.position.drain behind hf.wellFormed hc ho
      (2 * (seekToKey v key (seekToKey v key (openFile f cached []))).totalEntries + 1)
      (by rw [h₂.position.total]; omega)
    refine ⟨junk, ?_, fun htarget => hjunk (h₂.counted htarget)⟩
    rw [← heq₂]
    exact hdrain

end Seek

end SSTableIterator

/-! ## The tables of a level -/

/-- `LevelIterator`: the tables that have not been opened, and what the opened one still yields. -/
structure LevelIterator where
  rest : List Metadata
  current : List KeyValuePair

namespace LevelIterator

/-- `OpenNext`: the first table that yields anything is opened. -/
def openNext (yieldsOf : Metadata → List KeyValuePair) : List Metadata → LevelIterator
  | [] => ⟨[], []⟩
  | m :: ms => if (yieldsOf m).isEmpty then openNext yieldsOf ms else ⟨ms, yieldsOf m⟩

/-- The constructor: the tables are sorted by their smallest key and the first one is opened. -/
def make (yieldsOf : Metadata → List KeyValuePair) (files : List Metadata) : LevelIterator :=
  openNext yieldsOf (files.insertionSort fun a b => a.minKey ≤ b.minKey)

/-- `SeekToKey`: the opened table is given up for the first later one that may hold the key, if there is
one. -/
def seekToKey (yieldsOf soughtOf : Metadata → List KeyValuePair) (key : Bytes) (li : LevelIterator) : LevelIterator :=
  match li.rest.dropWhile fun m => !m.maxKey.isEmpty && decide (m.maxKey < key) with
  | [] => { li with rest := [] }
  | m :: ms => if (soughtOf m).isEmpty then openNext yieldsOf ms else ⟨ms, soughtOf m⟩

def valid (li : LevelIterator) : Bool := !li.current.isEmpty

/-- The entries that a consumer sees: `Next` goes on with the next table at the end of one. -/
def yields (yieldsOf : Metadata → List KeyValuePair) (li : LevelIterator) : List KeyValuePair :=
  li.current ++ li.rest.flatMap yieldsOf

theorem yields_openNext (yieldsOf : Metadata → List KeyValuePair) (files : List Metadata) :
    (openNext yieldsOf files).yields yieldsOf = files.flatMap yieldsOf := by
  induction files with
  | nil => rfl
  | cons m ms ih =>
    unfold openNext
    split
    · next hempty =>
      rw [ih, List.flatMap_cons, List.isEmpty_iff.mp hempty, List.nil_append]
    · rfl

section Inside

variable {P : KeyValuePair → Prop} {yieldsOf soughtOf : Metadata → List KeyValuePair}

/-- What an iterator over a level can yield. -/
structure Inside (P : KeyValuePair → Prop) (yieldsOf : Metadata → List KeyValuePair) (li : LevelIterator) : Prop where
  current : ∀ x ∈ li.current, P x
  rest : ∀ m ∈ li.rest, ∀ x ∈ yieldsOf m, P x

theorem inside_openNext {files : List Metadata} (h : ∀ m ∈ files, ∀ x ∈ yieldsOf m, P x) :
    Inside P yieldsOf (openNext yieldsOf files) := by
  induction files with
  | nil => exact ⟨fun _ hx => (by cases hx), fun _ hm => (by cases hm)⟩
  | cons m ms ih =>
    unfold openNext
    split
    · exact ih fun m' hm' => h m' (List.mem_cons_of_mem _ hm')
    · exact ⟨h m List.mem_cons_self, fun m' hm' => h m' (List.mem_cons_of_mem _ hm')⟩

theorem Inside.seekToKey {li : LevelIterator} (h : Inside P yieldsOf li) (key : Bytes)
    (hsought : ∀ m ∈ li.rest, ∀ x ∈ soughtOf m, P x) : Inside P yieldsOf (li.seekToKey yieldsOf soughtOf key) := by
  unfold LevelIterator.seekToKey
  have hsub : ∀ m ∈ li.rest.dropWhile (fun m => !m.maxKey.isEmpty && decide (m.maxKey < key)), m ∈ li.rest :=
    fun m hm => (List.dropWhile_sublist _).subset hm
  split
  · exact ⟨h.current, fun _ hm => (by cases hm)⟩
  · next m ms heq =>
    rw [heq] at hsub
    have hms : ∀ m' ∈ ms, ∀ x ∈ yieldsOf m', P x := fun m' hm' => h.rest m' (hsub m' (List.mem_cons_of_mem _ hm'))
    split
    · exact inside_openNext hms
    · exact ⟨hsought m (hsub m List.mem_cons_self), hms⟩

theorem rest_openNext (files : List Metadata) : (openNext yieldsOf files).rest ⊆ files := by
  induction files with
  | nil => exact List.nil_subset _
  | cons m ms ih =>
    unfold openNext
    split
    · exact fun m' hm' => List.mem_cons_of_mem _ (ih hm')
    · exact fun m' hm' => List.mem_cons_of_mem _ hm'

theorem rest_seekToKey (li : LevelIterator) (key : Bytes) : (li.seekToKey yieldsOf soughtOf key).rest ⊆ li.rest := by
  unfold LevelIterator.seekToKey
  have hsub : ∀ m ∈ li.rest.dropWhile (fun m => !m.maxKey.isEmpty && decide (m.maxKey < key)), m ∈ li.rest :=
    fun m hm => (List.dropWhile_sublist _).subset hm
  split
  · exact List.nil_subset _
  · next m ms heq =>
    rw [heq] at hsub
    split
    · exact fun m' hm' => hsub m' (List.mem_cons_of_mem _ (rest_openNext ms hm'))
    · exact fun m' hm' => hsub m' (List.mem_cons_of_mem _ hm')

theorem Inside.yields {li : LevelIterator} (h : Inside P yieldsOf li) : ∀ x ∈ li.yields yieldsOf, P x := by
  intro x hx
  rcases List.mem_append.mp hx with hx | hx
  · exact h.current x hx
  · obtain ⟨m, hm, hx⟩ := List.mem_flatMap.mp hx
    exact h.rest m hm x hx

end Inside

end LevelIterator

end Kvdb
