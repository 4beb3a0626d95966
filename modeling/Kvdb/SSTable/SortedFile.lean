import Kvdb.SSTable.Contents
import Kvdb.SSTable.Iterate

/-! # Files with one version of each key in key order

What `Write` makes of ascending entries and `WriteFromWalk` of an ordered memtable: the key range
bounds the keys, the filter rejects no key of the file, and `LookupKey` finds a version exactly if the
file holds it and it is visible. -/
namespace Kvdb
set_option autoImplicit false

namespace SSTableFile

structure Sorted (f : SSTableFile) : Prop where
  wellFormed : f.WellFormed
  ascending : Ascending f.entries
  keys : ∀ x ∈ f.entries, x.key ≠ []
  noAborted : f.abortedBatchTs = []
  range : ∀ x ∈ f.entries, f.minKey ≤ x.key ∧ x.key ≤ f.maxKey
  rejects : ∀ x ∈ f.entries, f.bloom.rejects x.key = false

/-- What a lookup needs of a file; some of its versions may be of aborted batches. -/
structure Arranged (f : SSTableFile) : Prop where
  wellFormed : f.WellFormed
  ascending : Ascending f.entries
  keys : ∀ x ∈ f.entries, x.key ≠ []
  range : ∀ x ∈ f.entries, f.minKey ≤ x.key ∧ x.key ≤ f.maxKey
  rejects : ∀ x ∈ f.entries, f.bloom.rejects x.key = false

theorem Sorted.arranged {f : SSTableFile} (h : f.Sorted) : f.Arranged :=
  ⟨h.wellFormed, h.ascending, h.keys, h.range, h.rejects⟩

theorem Arranged.sorted {f : SSTableFile} (h : f.Arranged) (habort : f.abortedBatchTs = []) : f.Sorted :=
  ⟨h.wellFormed, h.ascending, h.keys, habort, h.range, h.rejects⟩

theorem KeySorted.head_le {es : List KeyValuePair} (h : KeySorted es) {x : KeyValuePair} (hx : x ∈ es) :
    (es.head?.map KeyValuePair.key).getD [] ≤ x.key := by
  cases es with
  | nil => cases hx
  | cons e es =>
    rcases List.mem_cons.mp hx with rfl | hx
    · exact le_refl _
    · exact (List.pairwise_cons.mp h).1 x hx

theorem KeySorted.le_getLast {es : List KeyValuePair} (h : KeySorted es) {x : KeyValuePair} (hx : x ∈ es) :
    x.key ≤ (es.getLast?.map KeyValuePair.key).getD [] := by
  obtain ⟨ys, y, rfl⟩ : ∃ ys y, es = ys ++ [y] := by
    rcases List.eq_nil_or_concat es with rfl | ⟨ys, y, hes⟩
    · cases hx
    · exact ⟨ys, y, by rw [hes, List.concat_eq_append]⟩
  rw [List.getLast?_concat, Option.map_some, Option.getD_some]
  rcases List.mem_append.mp hx with hx | hx
  · exact (List.pairwise_append.mp h).2.2 x hx y List.mem_cons_self
  · rw [List.mem_singleton.mp hx]

theorem Ascending.head_le {es : List KeyValuePair} (h : Ascending es) {x : KeyValuePair} (hx : x ∈ es) :
    (es.head?.map KeyValuePair.key).getD [] ≤ x.key := h.keySorted.head_le hx

theorem head_attained {es : List KeyValuePair} (h : es ≠ []) :
    ∃ x ∈ es, x.key = (es.head?.map KeyValuePair.key).getD [] := by
  obtain ⟨e, es, rfl⟩ := List.exists_cons_of_ne_nil h
  exact ⟨e, List.mem_cons_self, rfl⟩

theorem getLast_attained {es : List KeyValuePair} (h : es ≠ []) :
    ∃ x ∈ es, x.key = (es.getLast?.map KeyValuePair.key).getD [] := by
  refine ⟨es.getLast h, List.getLast_mem h, ?_⟩
  rw [List.getLast?_eq_getLast_of_ne_nil h]
  rfl

/-- The key range and the filter admit every key of the file. -/
def Admits (f : SSTableFile) : Prop :=
  ∀ x ∈ f.entries, f.minKey ≤ x.key ∧ x.key ≤ f.maxKey ∧ f.bloom.rejects x.key = false

theorem write_admits (sizing : ℕ → ℕ × ℕ) {es : List KeyValuePair} (aborted : List ℕ) (h : KeySorted es) :
    (write sizing es aborted).Admits := by
  intro x hx
  rw [entries_write sizing es aborted] at hx
  exact ⟨h.head_le hx, h.le_getLast hx, BloomFilter.ofKeys_rejects _ _ _ _ (List.mem_map_of_mem hx)⟩

theorem write_sorted (sizing : ℕ → ℕ × ℕ) {es : List KeyValuePair} (hasc : Ascending es)
    (hkeys : ∀ x ∈ es, x.key ≠ []) : (write sizing es []).Sorted := by
  have hentries := entries_write sizing es []
  have hadmits := write_admits sizing [] hasc.keySorted
  refine ⟨write_wellFormed sizing es [], ?_, ?_, rfl, fun x hx => ⟨(hadmits x hx).1, (hadmits x hx).2.1⟩,
    fun x hx => (hadmits x hx).2.2⟩
  · rw [hentries]
    exact hasc
  · rw [hentries]
    exact hkeys

/-- The smallest key that is written is the first one, as none of them is empty. -/
theorem minKey_writeFromWalk (sizing : ℕ → ℕ × ℕ) {walk : List KeyValuePair} (n : ℕ) (aborted : List ℕ)
    (hkeys : ∀ x ∈ flushEntries walk, x.key ≠ []) :
    (writeFromWalk sizing walk n aborted).minKey = ((flushEntries walk).head?.map KeyValuePair.key).getD [] := by
  show (((flushEntries walk).map KeyValuePair.key).find? fun k => !k.isEmpty).getD [] = _
  cases hes : flushEntries walk with
  | nil => rfl
  | cons e es =>
    have he : e.key.isEmpty = false := by
      rw [List.isEmpty_eq_false_iff]
      exact hkeys e (by rw [hes]; exact List.mem_cons_self)
    rw [List.map_cons, List.find?_cons_of_pos (by simp [he])]
    rfl

theorem writeFromWalk_admits (sizing : ℕ → ℕ × ℕ) {walk : List KeyValuePair} (n : ℕ) (aborted : List ℕ)
    (hwalk : KeySorted walk) : (writeFromWalk sizing walk n aborted).Admits := by
  obtain ⟨hasc, hkeys⟩ := flushEntries_ascending walk hwalk
  intro x hx
  rw [entries_writeFromWalk sizing walk n aborted] at hx
  rw [minKey_writeFromWalk sizing n aborted hkeys]
  exact ⟨hasc.head_le hx, hasc.keySorted.le_getLast hx, BloomFilter.ofKeys_rejects _ _ _ _ (List.mem_map_of_mem hx)⟩

theorem writeFromWalk_arranged (sizing : ℕ → ℕ × ℕ) {walk : List KeyValuePair} (n : ℕ) (aborted : List ℕ)
    (hwalk : walk.Pairwise Descending) : (writeFromWalk sizing walk n aborted).Arranged := by
  obtain ⟨hasc, hkeys, -⟩ := flushEntries_heads walk hwalk
  have hentries := entries_writeFromWalk sizing walk n aborted
  have hadmits := writeFromWalk_admits sizing n aborted (hwalk.imp Descending.key_le)
  refine ⟨writeFromWalk_wellFormed sizing walk n aborted, ?_, ?_,
    fun x hx => ⟨(hadmits x hx).1, (hadmits x hx).2.1⟩, fun x hx => (hadmits x hx).2.2⟩
  · rw [hentries]
    exact hasc
  · rw [hentries]
    exact hkeys

theorem writeFromWalk_sorted (sizing : ℕ → ℕ × ℕ) {walk : List KeyValuePair} (n : ℕ)
    (hwalk : walk.Pairwise Kvdb.Before) : (writeFromWalk sizing walk n []).Sorted :=
  (writeFromWalk_arranged sizing n [] (hwalk.imp Descending.of_before)).sorted rfl

/-! ## `LookupKey` -/

theorem target_middle : Bisect.Middle fun lo hi => (lo + hi) / 2 := by
  intro lo hi h
  show lo ≤ (lo + hi) / 2 ∧ (lo + hi) / 2 < hi
  omega

theorem firstKeys_getElem? (f : SSTableFile) (i : ℕ) :
    f.firstKeys[i]? = f.blocks[i]?.map fun b => (b.head?.map KeyValuePair.key).getD [] :=
  List.getElem?_map

theorem firstKeys_attained {f : SSTableFile} (hf : f.WellFormed) {key : Bytes} (h : key ∈ f.firstKeys) :
    ∃ x ∈ f.entries, x.key = key := by
  obtain ⟨b, hb, rfl⟩ := List.mem_map.mp h
  obtain ⟨x, hx, hkey⟩ := head_attained (hf.blocks b hb)
  exact ⟨x, List.mem_flatten.mpr ⟨b, hb, hx⟩, hkey⟩

section Ascending

variable {f : SSTableFile} (hf : f.WellFormed) (hasc : Ascending f.entries)

include hf hasc

/-- The first keys of the blocks ascend. -/
theorem firstKeys_pairwise : f.firstKeys.Pairwise (· < ·) := by
  have hblocks := (List.pairwise_flatten.mp hasc).2
  refine List.pairwise_map.mpr (hblocks.imp_of_mem ?_)
  intro a b ha hb hab
  obtain ⟨x, xs, rfl⟩ := List.exists_cons_of_ne_nil (hf.blocks a ha)
  obtain ⟨y, ys, rfl⟩ := List.exists_cons_of_ne_nil (hf.blocks b hb)
  exact hab x List.mem_cons_self y List.mem_cons_self

theorem firstKeys_monotone (key : Bytes) : Bisect.Monotone (fun fk : Bytes => decide (key < fk)) f.firstKeys := by
  refine (firstKeys_pairwise hf hasc).imp ?_
  intro a b hab hlt
  exact decide_eq_true (lt_trans (of_decide_eq_true hlt) hab)

/-- A key of block `j` is not below the first keys up to there, and below the later ones. -/
theorem splits_firstKeys {j r : ℕ} {b : List KeyValuePair} (hb : f.blocks[j]? = some b) {x : KeyValuePair} (hx : x ∈ b)
    (hsplit : Bisect.Splits (fun fk : Bytes => decide (x.key < fk)) f.firstKeys r) (hle : r ≤ f.firstKeys.length) :
    r = j + 1 := by
  have hblocks := List.pairwise_flatten.mp hasc
  have hfirst : (b.head?.map KeyValuePair.key).getD [] ≤ x.key :=
    Ascending.head_le (hblocks.1 b (List.mem_of_getElem? hb)) hx
  have hlow : j < r := by
    by_contra hge
    have hp := hsplit.2 j _ (Nat.le_of_not_lt hge) (by rw [f.firstKeys_getElem?, hb, Option.map_some])
    exact absurd (of_decide_eq_true hp) (not_lt.mpr hfirst)
  have hhigh : r ≤ j + 1 := by
    cases hnext : f.blocks[j + 1]? with
    | none =>
      have hlen : f.firstKeys.length ≤ j + 1 := by
        rw [firstKeys, List.length_map]
        exact List.getElem?_eq_none_iff.mp hnext
      omega
    | some b' =>
      by_contra hlt
      have hp := hsplit.1 (j + 1) _ (Nat.lt_of_not_le hlt) (by rw [f.firstKeys_getElem?, hnext, Option.map_some])
      obtain ⟨hj, hbj⟩ := List.getElem?_eq_some_iff.mp hb
      obtain ⟨hj', hbj'⟩ := List.getElem?_eq_some_iff.mp hnext
      have hab := List.pairwise_iff_getElem.mp hblocks.2 j (j + 1) hj hj' (Nat.lt_succ_self j)
      rw [hbj, hbj'] at hab
      obtain ⟨y, ys, rfl⟩ := List.exists_cons_of_ne_nil (hf.blocks b' (List.mem_of_getElem? hnext))
      exact of_decide_eq_false hp (hab x hx y List.mem_cons_self)
  omega

/-- In such a file a key of block `j` is looked for in that block first. -/
theorem lookupTarget_eq {j : ℕ} {b : List KeyValuePair} (hb : f.blocks[j]? = some b) {x : KeyValuePair} (hx : x ∈ b) :
    lookupTarget f.firstKeys x.key = j := by
  have hsplit := Bisect.bisect_all target_middle (firstKeys_monotone hf hasc x.key)
  have hle := Bisect.bisect_le (p := fun fk : Bytes => decide (x.key < fk)) target_middle f.firstKeys
    f.firstKeys.length 0 f.firstKeys.length (Nat.zero_le _)
  rw [lookupTarget, splits_firstKeys hf hasc hb hx hsplit hle, Nat.add_sub_cancel]

end Ascending

theorem scanBlock_not_aborted {aborted : List ℕ} {key : Bytes} {readTs : ℕ} {b : List KeyValuePair} {v : KeyValuePair}
    (h : scanBlock aborted key readTs b = some v) : v.timestamp ∉ aborted := by
  have hp := List.find?_some h
  simp only [Bool.and_eq_true, Bool.not_eq_true', decide_eq_false_iff_not] at hp
  exact hp.1.1

/-- A visible version of the key in the block is found, or another one before it. -/
theorem scanBlock_isSome {aborted : List ℕ} {readTs : ℕ} {b : List KeyValuePair} {x : KeyValuePair} (hx : x ∈ b)
    (hts : x.timestamp ≤ readTs) (habort : x.timestamp ∉ aborted) : (scanBlock aborted x.key readTs b).isSome = true := by
  rw [scanBlock, List.find?_isSome]
  exact ⟨x, hx, by simp [habort, hts]⟩

theorem searchBlocks_not_aborted {file : Option SSTableFile} {h : CachedHeavy} {key : Bytes} {readTs seq : ℕ}
    {v : KeyValuePair} (idxs : List ℕ) (cache : Option SSTableCache)
    (hv : (searchBlocks file h key readTs seq idxs cache).1 = some v) : v.timestamp ∉ h.abortedBatchTs := by
  induction idxs generalizing cache with
  | nil => cases hv
  | cons idx idxs ih =>
    rw [searchBlocks] at hv
    split at hv
    · rw [searchBlock] at hv
      split at hv
      · cases hv
      · split at hv
        · exact scanBlock_not_aborted hv
        · exact scanBlock_not_aborted hv
    · exact ih _ hv

/-- In such a file `LookupKey` finds the version of the key, if it is visible and not aborted. -/
theorem Arranged.lookupIn {f : SSTableFile} (h : f.Arranged) (key : Bytes) (readTs seq : ℕ) (x : KeyValuePair) :
    (Kvdb.lookupIn (some f) f.heavy key readTs seq none).1 = some x ↔
      x ∈ f.entries ∧ x.key = key ∧ x.timestamp ≤ readTs ∧ x.timestamp ∉ f.abortedBatchTs := by
  have hcache : CacheHolds (fun _ i b => b = fileBlock (some f) i) none := fun _ hc => by cases hc
  have hfound : ∀ v, (Kvdb.lookupIn (some f) f.heavy key readTs seq none).1 = some v →
      v ∈ f.entries ∧ v.key = key ∧ v.timestamp ≤ readTs ∧ v.timestamp ∉ f.abortedBatchTs := by
    intro v hv
    obtain ⟨i, b, hb, hvb, hkey, hts⟩ := (lookupIn_spec f.heavy hcache fun _ => rfl).2 v hv
    rw [hb] at hvb
    refine ⟨SSTableIterator.fileBlock_subset f i hvb, hkey, hts, ?_⟩
    rw [Kvdb.lookupIn] at hv
    split at hv
    · cases hv
    · split at hv
      · cases hv
      · exact searchBlocks_not_aborted _ _ hv
  refine ⟨hfound x, ?_⟩
  rintro ⟨hx, rfl, hts, habort⟩
  obtain ⟨b, hb, hxb⟩ := List.mem_flatten.mp hx
  obtain ⟨j, hj⟩ := List.getElem?_of_mem hb
  have htarget := lookupTarget_eq h.wellFormed h.ascending hj hxb
  have hlen : j < f.firstKeys.length := by
    rw [firstKeys, List.length_map]
    exact (List.getElem?_eq_some_iff.mp hj).1
  have hne : f.firstKeys.isEmpty = false := by
    rw [List.isEmpty_eq_false_iff]
    exact List.ne_nil_of_length_pos (by omega)
  have hscan : (scanBlock f.heavy.abortedBatchTs x.key readTs b).isSome = true := scanBlock_isSome hxb hts habort
  have hblock : fileBlock (some f) j = b := by
    rw [fileBlock, Option.bind_some, hj]
    rfl
  have hsearch : (searchBlock (some f) f.heavy x.key readTs seq none j).1.isSome = true := by
    rw [searchBlock, if_neg (show ¬ f.heavy.firstKeys.length ≤ j from Nat.not_le.mpr hlen)]
    show (scanBlock f.heavy.abortedBatchTs x.key readTs (fileBlock (some f) j)).isSome = true
    rw [hblock]
    exact hscan
  have hall : (Kvdb.lookupIn (some f) f.heavy x.key readTs seq none).1.isSome = true := by
    have hblocks : lookupBlocks f.heavy.firstKeys x.key =
        j :: ((if 0 < j then [j - 1] else []) ++ if j + 1 < f.firstKeys.length then [j + 1] else []) := by
      show lookupBlocks f.firstKeys x.key = _
      rw [lookupBlocks, htarget]
    rw [Kvdb.lookupIn, if_neg (by simpa [heavy] using hne), if_neg (by simp [heavy, h.rejects x hx]), hblocks,
      searchBlocks, if_pos hsearch]
    exact hsearch
  obtain ⟨v, hv⟩ := Option.isSome_iff_exists.mp hall
  obtain ⟨hvmem, hvkey, -⟩ := hfound v hv
  rw [hv, h.ascending.eq_of_key hvmem hx hvkey]

theorem Sorted.lookupIn {f : SSTableFile} (h : f.Sorted) (key : Bytes) (readTs seq : ℕ) (x : KeyValuePair) :
    (Kvdb.lookupIn (some f) f.heavy key readTs seq none).1 = some x ↔
      x ∈ f.entries ∧ x.key = key ∧ x.timestamp ≤ readTs := by
  rw [h.arranged.lookupIn, h.noAborted]
  simp

/-- `LookupKey` as a search of the versions of the key. -/
theorem Arranged.lookupIn_eq {f : SSTableFile} (h : f.Arranged) (key : Bytes) (readTs seq : ℕ) :
    (Kvdb.lookupIn (some f) f.heavy key readTs seq none).1 =
      (versionsOf key f.entries).find? (BPlusTree.visible f.abortedBatchTs readTs) := by
  cases hfind : (versionsOf key f.entries).find? (BPlusTree.visible f.abortedBatchTs readTs) with
  | some x =>
    obtain ⟨hx, rfl⟩ := mem_versionsOf.mp (List.mem_of_find?_eq_some hfind)
    have hvis := List.find?_some hfind
    simp only [BPlusTree.visible, Bool.and_eq_true, Bool.not_eq_true', decide_eq_false_iff_not,
      decide_eq_true_eq] at hvis
    exact (h.lookupIn x.key readTs seq x).mpr ⟨hx, rfl, hvis.2, hvis.1⟩
  | none =>
    cases hlook : (Kvdb.lookupIn (some f) f.heavy key readTs seq none).1 with
    | none => rfl
    | some v =>
      obtain ⟨hv, hkey, hts, habort⟩ := (h.lookupIn key readTs seq v).mp hlook
      have hnone := List.find?_eq_none.mp hfind v (mem_versionsOf.mpr ⟨hv, hkey⟩)
      exact absurd (by simp [BPlusTree.visible, hts, habort]) hnone

end SSTableFile

end Kvdb
