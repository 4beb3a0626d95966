import Kvdb.Engine.RangeMerge
import Kvdb.Engine.Serving
import Kvdb.SSTable.Seek
import Mathlib.Data.List.Pairwise
import Mathlib.Data.List.Dedup

/-! # Range scans (`LSMTreeEngine::RangeScan`)

The sources of a scan are copies of the memtable leaves that the bounds touch, an iterator for each table
of level 0 and one for each deeper level. Each source is sought to the lower bound when it is made and once
more by the constructor of `RangeIterator`. `behind` is what the bytes behind the last block of a file decode
to, for an iterator that reads past the end.

`FindNext` advances a source by one version, so a scan is right only while no source has two versions of a
key within the bounds. -/
namespace Kvdb
set_option autoImplicit false

open SSTableFile (Ascending)
open Compaction (Newest)
open RangeIterator (aboveLower withinUpper inBounds cut skipLower)

/-- A `RangeBound` of the source: the empty key is no bound. -/
def RangeBound.of (key : Bytes) (inclusive : Bool) : RangeBound :=
  if key.isEmpty then .unbounded else if inclusive then .inclusive key else .exclusive key

def RangeBound.key : RangeBound → Option Bytes
  | .unbounded => none
  | .inclusive key => some key
  | .exclusive key => some key

/-! ## Copies of memtable leaves -/

namespace MaterializedMemTableSource

/-- The test of a leaf against the bounds, by its first and its last key; an empty leaf is not copied. -/
def leafInRange (lower upper : RangeBound) (leaf : List KeyValuePair) : Bool :=
  match leaf.head?, leaf.getLast? with
  | some first, some last => aboveLower lower last.key && withinUpper upper first.key
  | _, _ => false

/-- `Load`: the aborted entries of the current leaf are passed over. -/
def load (aborted : List ℕ) : List (List KeyValuePair) → List (List KeyValuePair)
  | [] => []
  | page :: rest => BPlusTree.skipAborted aborted page :: rest

/-- `WalkNext`, from a page whose current entry has been dropped. -/
def walkNext (aborted : List ℕ) : List (List KeyValuePair) → List (List KeyValuePair)
  | [] => []
  | page :: rest => load aborted (if page.isEmpty then BPlusTree.skipEmpty rest else page :: rest)

/-- The entries while `Valid()`: the current leaf has an entry left. -/
def walk (aborted : List ℕ) : ℕ → List (List KeyValuePair) → List KeyValuePair
  | fuel + 1, (e :: page) :: rest => e :: walk aborted fuel (walkNext aborted (page :: rest))
  | _, _ => []

def yields (aborted : List ℕ) (pages : List (List KeyValuePair)) : List KeyValuePair :=
  walk aborted pages.flatten.length (load aborted (BPlusTree.skipEmpty pages))

end MaterializedMemTableSource

namespace Engine

/-- `SeekToKey` of a source that can only go forward. -/
def seekForward (lower : RangeBound) (source : List KeyValuePair) : List KeyValuePair :=
  match lower.key with
  | none => source
  | some key => source.dropWhile (SSTableIterator.below key)

/-- `materialize`, and the second seek. -/
def memtableSource (lower upper : RangeBound) (m : MemTable) : List KeyValuePair :=
  if m.entryCount = 0 then []
  else
    seekForward lower (seekForward lower (MaterializedMemTableSource.yields m.tree.abortedBatchTs
      (m.tree.leaves.filter (MaterializedMemTableSource.leafInRange lower upper))))

/-! ## Tables -/

variable (behind : ℕ → List (List KeyValuePair))

/-- What the iterator over a catalogued table reads. -/
def viewOf (e : Engine) (md : Metadata) : SSTableIterator.View where
  blocks := ((e.files md.filepath).map SSTableFile.blocks).getD [] ++ behind md.filepath
  cached := e.blocksCached md
  aborted := md.abortedBatchTs
  firstKeys := md.firstKeys

/-- The constructor of `SSTableIterator`; a file that cannot be opened has no entries. -/
def openTable (e : Engine) (md : Metadata) : SSTableIterator :=
  match e.files md.filepath with
  | none => ⟨[], 0, 0, 0, ⟨[], [], 0, false⟩, 0, 0⟩
  | some f => SSTableIterator.openFile f (e.blocksCached md) md.abortedBatchTs

def tableYields (e : Engine) (md : Metadata) : List KeyValuePair :=
  SSTableIterator.yields (viewOf behind e md) (e.openTable md)

def tableSought (e : Engine) (key : Bytes) (md : Metadata) : List KeyValuePair :=
  if (e.openTable md).valid then
    SSTableIterator.yields (viewOf behind e md) (SSTableIterator.seekToKey (viewOf behind e md) key (e.openTable md))
  else []

/-- The source of a table of level 0. -/
def levelZeroSource (e : Engine) (lower : RangeBound) (md : Metadata) : List KeyValuePair :=
  match lower.key with
  | none => tableYields behind e md
  | some key =>
    let sought := SSTableIterator.seekToKey (viewOf behind e md) key (e.openTable md)
    if (e.openTable md).valid && sought.valid then
      SSTableIterator.yields (viewOf behind e md) (SSTableIterator.seekToKey (viewOf behind e md) key sought)
    else []

/-- The source of a deeper level. -/
def levelSource (e : Engine) (lower : RangeBound) (files : List Metadata) : List KeyValuePair :=
  let li := LevelIterator.make (tableYields behind e) files
  match lower.key with
  | none => li.yields (tableYields behind e)
  | some key =>
    let sought := li.seekToKey (tableYields behind e) (tableSought behind e key) key
    if li.valid && sought.valid then
      (sought.seekToKey (tableYields behind e) (tableSought behind e key) key).yields (tableYields behind e)
    else []

/-- The tables that the scan does not pass over by their key range. -/
def scans (lower upper : RangeBound) (md : Metadata) : Bool :=
  (upper.key.all fun key => md.minKey.isEmpty || decide (md.minKey ≤ key)) &&
    lower.key.all fun key => md.maxKey.isEmpty || decide (key ≤ md.maxKey)

def scanTables (e : Engine) (lower upper : RangeBound) : List Metadata :=
  e.sstableMetadata.filter (scans lower upper)

/-- The deeper levels that have a table, in ascending order. -/
def deepLevels (mds : List Metadata) : List ℕ :=
  ((mds.map Metadata.level).filter fun l => decide (l ≠ 0)).dedup.insertionSort (· ≤ ·)

def scanSources (e : Engine) (lower upper : RangeBound) : List (List KeyValuePair) :=
  let tables := e.scanTables lower upper
  (e.activeMemtable :: e.frozenMemtables).map (memtableSource lower upper) ++
    (tables.filter fun md => decide (md.level = 0)).map (levelZeroSource behind e lower) ++
    (deepLevels tables).map fun l => levelSource behind e lower (tables.filter fun md => decide (md.level = l))

/-- `RangeScan`: the entries that a caller sees. -/
def rangeScan (e : Engine) (lower upper : RangeBound) : List KeyValuePair :=
  RangeIterator.results e.globalTs lower upper (scanSources behind e lower upper)

/-! ## The property and its condition -/

/-- The versions that are not aborted, in the memtables and in the tables. -/
def storedVersions (e : Engine) : List KeyValuePair :=
  (e.memtables.flatMap fun m => m.entries.filter fun x => !decide (x.timestamp ∈ m.tree.abortedBatchTs)) ++
    e.sstableMetadata.flatMap fun md =>
      (e.tableEntries md).filter fun x => !decide (x.timestamp ∈ md.abortedBatchTs)

def visibleVersions (e : Engine) : List KeyValuePair :=
  e.storedVersions.filter fun x => decide (x.timestamp ≤ e.globalTs)

/-- The scan yields the newest visible version of each key within the bounds, once and in key order. -/
structure ScanExact (e : Engine) (lower upper : RangeBound) (result : List KeyValuePair) : Prop where
  ascending : Ascending result
  entries : ∀ x, x ∈ result ↔ Newest e.visibleVersions x ∧ inBounds lower upper x.key = true

/-- The condition on the state and the bounds: no memtable has two versions of a key within the bounds, the
blocks of each table are read in order, the tables of a deeper level do not overlap; and a scan with a lower
bound begins at the first block of each level-0 table or ends inside of it, and finds at most one table in
each deeper level, with no key below the bound. -/
structure Scannable (e : Engine) (lower upper : RangeBound) : Prop where
  oneVersion : ∀ m ∈ e.memtables, ∀ x ∈ m.entries, ∀ y ∈ m.entries,
    inBounds lower upper x.key = true → x.key = y.key → x = y
  inOrder : ∀ md ∈ e.scanTables lower upper, ∀ f ∈ e.files md.filepath, SSTableIterator.InOrder f (e.blocksCached md)
  apart : (e.scanTables lower upper).Pairwise fun a b =>
    1 ≤ a.level → a.level = b.level → a.maxKey < b.minKey ∨ b.maxKey < a.minKey
  levelZero : ∀ key ∈ lower.key, ∀ md ∈ e.scanTables lower upper, md.level = 0 →
    SSTableIterator.seekTarget md.firstKeys key = 0 ∨
      ∃ x ∈ e.tableEntries md, aboveLower lower x.key = true ∧ withinUpper upper x.key = false
  deep : ∀ key ∈ lower.key, ∀ md ∈ e.scanTables lower upper, 1 ≤ md.level →
    key ≤ md.minKey ∧ ∀ md' ∈ e.scanTables lower upper, md'.level = md.level → md' = md

/-! ## Sources in key order -/

section Sources

variable {lower upper : RangeBound}

def bounded (lower upper : RangeBound) (es : List KeyValuePair) : List KeyValuePair :=
  es.filter fun x => inBounds lower upper x.key

theorem KeyOrdered.of_ascending {es : List KeyValuePair} (h : Ascending es) : RangeIterator.KeyOrdered es :=
  h.imp fun hlt => hlt.le

theorem KeyOrdered.of_before {es : List KeyValuePair} (h : es.Pairwise Before) : RangeIterator.KeyOrdered es :=
  h.imp Before.key_le

/-- A source in key order is sought to the entries above the lower bound. -/
theorem skip_seek {es : List KeyValuePair} (h : RangeIterator.KeyOrdered es) :
    RangeIterator.skipBound lower (seekForward lower es) = es.filter fun x => aboveLower lower x.key := by
  have hseek : ∀ key : Bytes, es.dropWhile (SSTableIterator.below key) = es.filter fun x => !SSTableIterator.below key x := by
    intro key
    refine Bisect.dropWhile_eq_filter (h.imp ?_)
    intro a b hab ha
    exact decide_eq_false (not_lt.mpr ((not_lt.mp (of_decide_eq_false ha)).trans hab))
  cases lower with
  | unbounded => exact (List.filter_eq_self.mpr fun _ _ => rfl).symm
  | inclusive bound =>
    show es.dropWhile (SSTableIterator.below bound) = _
    rw [hseek]
    refine List.filter_congr fun x _ => ?_
    by_cases hx : x.key < bound
    · simp [SSTableIterator.below, aboveLower, hx]
    · simp [SSTableIterator.below, aboveLower, hx, not_lt.mp hx]
  | exclusive bound =>
    show (es.dropWhile (SSTableIterator.below bound)).dropWhile _ = _
    rw [hseek]
    have hsub : RangeIterator.KeyOrdered (es.filter fun x => !SSTableIterator.below bound x) := h.sublist List.filter_sublist
    have hskip := @Bisect.dropWhile_eq_filter _ (fun e : KeyValuePair => decide (e.key = bound))
      (es.filter fun x => !SSTableIterator.below bound x) (hsub.imp_of_mem ?_)
    · rw [hskip, List.filter_filter]
      refine List.filter_congr fun x _ => ?_
      by_cases hx : bound < x.key
      · simp [SSTableIterator.below, aboveLower, hx, hx.le, ne_of_gt hx]
      · simp only [SSTableIterator.below, aboveLower, hx, decide_false]
        by_cases heq : x.key = bound
        · simp [heq]
        · have hlt : x.key < bound := lt_of_le_of_ne (not_lt.mp hx) heq
          simp [hlt]
    · intro a b ha _ hab hne
      have hge : bound ≤ a.key := by simpa [SSTableIterator.below] using (List.mem_filter.mp ha).2
      have hlt : bound < a.key := lt_of_le_of_ne hge (Ne.symm (of_decide_eq_false hne))
      exact decide_eq_false (ne_of_gt (hlt.trans_le hab))

theorem cut_skip_seek {es : List KeyValuePair} (h : RangeIterator.KeyOrdered es) :
    cut upper (RangeIterator.skipBound lower (seekForward lower es)) = bounded lower upper es := by
  rw [skip_seek h, cut, Bisect.takeWhile_eq_filter, List.filter_filter, bounded]
  · refine List.filter_congr fun x _ => ?_
    rw [inBounds, Bool.and_comm]
  · refine (h.sublist List.filter_sublist).imp ?_
    exact fun hab hb => RangeIterator.withinUpper_mono hab hb

/-- What stands behind an entry beyond the upper bound does not matter. -/
theorem cut_skip_append {es junk : List KeyValuePair}
    (h : ∃ x ∈ es, aboveLower lower x.key = true ∧ withinUpper upper x.key = false) :
    cut upper (RangeIterator.skipBound lower (es ++ junk)) = cut upper (RangeIterator.skipBound lower es) := by
  obtain ⟨x, hx, habove, hbeyond⟩ := h
  have hcut : ∀ xs : List KeyValuePair, x ∈ xs → cut upper (xs ++ junk) = cut upper xs := by
    intro xs hmem
    unfold cut
    rw [List.takeWhile_append, if_neg]
    intro hlen
    have hall := List.takeWhile_eq_self_iff.mp
      ((List.takeWhile_sublist fun y : KeyValuePair => withinUpper upper y.key).eq_of_length hlen) x hmem
    rw [hbeyond] at hall
    cases hall
  cases lower with
  | unbounded => exact hcut es hx
  | inclusive bound => exact hcut es hx
  | exclusive bound =>
    have hne : x.key ≠ bound := ne_of_gt (of_decide_eq_true habove)
    show cut upper ((es ++ junk).dropWhile fun e => decide (e.key = bound)) =
      cut upper (es.dropWhile fun e => decide (e.key = bound))
    have hmem : x ∈ es.dropWhile fun e => decide (e.key = bound) := by
      have hsplit := List.takeWhile_append_dropWhile (p := fun e : KeyValuePair => decide (e.key = bound)) (l := es)
      rw [← hsplit, List.mem_append] at hx
      refine hx.resolve_left fun htake => hne ?_
      exact of_decide_eq_true (List.mem_takeWhile_imp (p := fun e : KeyValuePair => decide (e.key = bound)) htake)
    have hdrop : (es ++ junk).dropWhile (fun e => decide (e.key = bound)) =
        es.dropWhile (fun e => decide (e.key = bound)) ++ junk := by
      rw [List.dropWhile_append, if_neg]
      intro hempty
      rw [List.isEmpty_iff] at hempty
      rw [hempty] at hmem
      cases hmem
    rw [hdrop, hcut _ hmem]

end Sources

/-! ## Memtables -/

theorem materialized_yields (pages : List (List KeyValuePair)) :
    MaterializedMemTableSource.yields [] pages = pages.flatten := by
  have hload : ∀ ps : List (List KeyValuePair), MaterializedMemTableSource.load [] ps = ps := by
    intro ps
    cases ps with
    | nil => rfl
    | cons page rest => rw [MaterializedMemTableSource.load, BPlusTree.skipAborted_nil]
  have hwalk : ∀ (fuel : ℕ) (ps : List (List KeyValuePair)),
      MaterializedMemTableSource.walk [] fuel ps = BPlusTree.walkList [] fuel ps := by
    intro fuel
    induction fuel with
    | zero => exact fun ps => by cases ps with | nil => rfl | cons page rest => cases page <;> rfl
    | succ fuel ih =>
      intro ps
      match ps with
      | [] => rfl
      | [] :: rest => rfl
      | (x :: page) :: rest =>
        rw [MaterializedMemTableSource.walk, BPlusTree.walkList, BPlusTree.walkNext_nil, ih,
          MaterializedMemTableSource.walkNext, hload]
        congr 2
        cases page with
        | nil => rfl
        | cons y ys => rfl
  rw [MaterializedMemTableSource.yields, hload, hwalk]
  exact BPlusTree.walkList_nil _ pages (Nat.le_refl _)

/-- A leaf that is not copied has no entry within the bounds. -/
theorem bounded_leaf {lower upper : RangeBound} {leaf : List KeyValuePair} (h : RangeIterator.KeyOrdered leaf)
    (hout : MaterializedMemTableSource.leafInRange lower upper leaf = false) : bounded lower upper leaf = [] := by
  refine List.filter_eq_nil_iff.mpr fun x hx hin => ?_
  have hne : leaf ≠ [] := List.ne_nil_of_mem hx
  obtain ⟨habove, hwithin⟩ := Bool.and_eq_true_iff.mp hin
  have hlast : x.key ≤ (leaf.getLast hne).key := by
    rw [← List.dropLast_append_getLast hne] at h hx
    rcases List.mem_append.mp hx with hx | hx
    · exact (List.pairwise_append.mp h).2.2 x hx _ List.mem_cons_self
    · rw [List.mem_singleton.mp hx]
  have hfirst : (leaf.head hne).key ≤ x.key := by
    rw [← List.cons_head_tail hne] at h hx
    rcases List.mem_cons.mp hx with heq | hx
    · rw [heq]
    · exact (List.pairwise_cons.mp h).1 x hx
  have hlower : aboveLower lower (leaf.getLast hne).key = true := by
    cases lower with
    | unbounded => rfl
    | inclusive bound => exact decide_eq_true ((of_decide_eq_true habove).trans hlast)
    | exclusive bound => exact decide_eq_true ((of_decide_eq_true habove).trans_le hlast)
  unfold MaterializedMemTableSource.leafInRange at hout
  rw [List.head?_eq_some_head hne, List.getLast?_eq_some_getLast hne] at hout
  simp only [hlower, RangeIterator.withinUpper_mono hfirst hwithin, Bool.and_self] at hout
  cases hout

/-- The copied leaves have all entries within the bounds. -/
theorem bounded_pages {lower upper : RangeBound} {pages : List (List KeyValuePair)}
    (h : ∀ page ∈ pages, RangeIterator.KeyOrdered page) :
    bounded lower upper (pages.filter (MaterializedMemTableSource.leafInRange lower upper)).flatten =
      bounded lower upper pages.flatten := by
  induction pages with
  | nil => rfl
  | cons page pages ih =>
    have hrest := ih fun p hp => h p (List.mem_cons_of_mem page hp)
    unfold bounded at hrest ⊢
    cases hin : MaterializedMemTableSource.leafInRange lower upper page with
    | true =>
      rw [List.filter_cons_of_pos hin, List.flatten_cons, List.flatten_cons, List.filter_append, List.filter_append,
        hrest]
    | false =>
      have hnone := bounded_leaf (h page List.mem_cons_self) hin
      unfold bounded at hnone
      rw [List.filter_cons_of_neg (by simp [hin]), List.flatten_cons, List.filter_append, hnone, List.nil_append, hrest]

theorem memtableSource_bounded {lower upper : RangeBound} {m : MemTable} (ht : Tidy m) (hc : m.Clean) :
    cut upper (RangeIterator.skipBound lower (memtableSource lower upper m)) = bounded lower upper m.entries := by
  unfold memtableSource
  split
  · next hcount =>
    rw [hc.counted hcount]
    cases lower <;> rfl
  · rw [hc.noAborted, materialized_yields]
    have hleaves : m.tree.leaves.flatten = m.entries := m.tree.leaves_flatten
    have hordered : RangeIterator.KeyOrdered m.entries := KeyOrdered.of_before ht.ordered.pairwise
    have hsub : RangeIterator.KeyOrdered
        (m.tree.leaves.filter (MaterializedMemTableSource.leafInRange lower upper)).flatten := by
      rw [← hleaves] at hordered
      obtain ⟨hpages, hacross⟩ := List.pairwise_flatten.mp hordered
      exact List.pairwise_flatten.mpr
        ⟨fun page hpage => hpages page (List.mem_of_mem_filter hpage), hacross.sublist List.filter_sublist⟩
    have htwice : seekForward lower (seekForward lower
        (m.tree.leaves.filter (MaterializedMemTableSource.leafInRange lower upper)).flatten) =
        seekForward lower (m.tree.leaves.filter (MaterializedMemTableSource.leafInRange lower upper)).flatten := by
      cases lower with
      | unbounded => rfl
      | inclusive bound => exact List.dropWhile_idempotent _ _
      | exclusive bound => exact List.dropWhile_idempotent _ _
    rw [htwice, cut_skip_seek hsub]
    rw [← hleaves] at hordered ⊢
    exact bounded_pages (List.pairwise_flatten.mp hordered).1

/-! ## Tables -/

/-- The record of a table holds the index of its file, whose largest key is one of its keys. -/
structure Indexed (md : Metadata) (f : SSTableFile) : Prop where
  firstKeys : md.firstKeys = f.firstKeys
  maxKey : f.entries ≠ [] → ∃ x ∈ f.entries, x.key = f.maxKey

theorem Indexed.step {e e' : Engine} (h : EachTable Indexed e) (hs : Stored e) {call : Calls.Call}
    (hstep : Calls.step e call = some e') : EachTable Indexed e' := by
  have hfresh : ∀ c ∈ e.sstCache, ¬ c.Caches e.sstableSeq :=
    fun c hc hcaches => Nat.lt_irrefl _ (hs.running.keyed.cached c hc _ hcaches)
  refine h.step hs.running.filed hstep ?_ ?_
  · intro m _ rest md cache hmd
    have hread := flushed_metadata hmd hfresh
    refine ⟨by rw [hread]; rfl, fun hne => ?_⟩
    rw [flushFile, SSTableFile.entries_writeFromWalk] at hne ⊢
    exact SSTableFile.getLast_attained hne
  · intro bottom top _
    refine h.compactLevel hs.running.filed ?_
    intro _ md _ f hout heq
    refine ⟨by rw [heq]; rfl, fun hne => ?_⟩
    obtain ⟨batch, -, rfl⟩ := hs.described.output hs.running.filed hout
    rw [SSTableFile.entries_write] at hne ⊢
    exact SSTableFile.getLast_attained hne

section Tables

variable {e : Engine} {lower upper : RangeBound} (hs : Stored e) (hi : EachTable Indexed e)
  (hscan : Scannable e lower upper)

include hs hi hscan

/-- What is known of a table that the scan reads. -/
theorem scanned_table {md : Metadata} (hmd : md ∈ e.scanTables lower upper) :
    ∃ f, e.files md.filepath = some f ∧ f.Sorted ∧ Recorded md f ∧ Indexed md f ∧
      SSTableIterator.CachedFrom f (e.blocksCached md) ∧ SSTableIterator.InOrder f (e.blocksCached md) := by
  have hcat := List.mem_of_mem_filter hmd
  obtain ⟨f, hfile⟩ := hs.running.filed.files md hcat
  exact ⟨f, hfile, hs.sorted md hcat f hfile, hs.described.tables md hcat f hfile, hi md hcat f hfile,
    hs.running.keyed.cachedFrom hcat hfile, hscan.inOrder md hmd f hfile⟩

theorem tableYields_eq {md : Metadata} (hmd : md ∈ e.scanTables lower upper) :
    tableYields behind e md = e.tableEntries md := by
  obtain ⟨f, hfile, hsorted, hrec, hindex, hc, ho⟩ := scanned_table hs hi hscan hmd
  have hdrain := SSTableIterator.drain_openFile (behind md.filepath) hsorted.wellFormed hc ho
  have htotal : (SSTableIterator.openFile f (e.blocksCached md) []).totalEntries = f.entryCount := by
    rcases SSTableIterator.openFile_at hsorted.wellFormed hc ho with ⟨hnil, -⟩ | ⟨hat, -⟩
    · have hzero : f.entryCount = 0 := by
        rw [hsorted.wellFormed.entryCount, hnil]
        rfl
      rw [SSTableIterator.openFile, SSTableIterator.readNextBlock, if_pos (by rw [hzero]), hzero]
    · exact hat.total
  simp only [tableYields, SSTableIterator.yields, viewOf, openTable, hfile, hrec.aborted, htotal, tableEntries,
    Option.map_some, Option.getD_some]
  exact hdrain

theorem levelZeroSource_bounded {md : Metadata} (hmd : md ∈ e.scanTables lower upper) (hlevel : md.level = 0) :
    cut upper (RangeIterator.skipBound lower (levelZeroSource behind e lower md)) =
      bounded lower upper (e.tableEntries md) := by
  obtain ⟨f, hfile, hsorted, hrec, hindex, hc, ho⟩ := scanned_table hs hi hscan hmd
  have hentries : e.tableEntries md = f.entries := by
    rw [tableEntries, hfile]
    rfl
  have hordered : RangeIterator.KeyOrdered f.entries := KeyOrdered.of_ascending hsorted.ascending
  cases hkey : lower.key with
  | none =>
    have hseek : seekForward lower f.entries = f.entries := by
      rw [seekForward, hkey]
    have hcut : cut upper (RangeIterator.skipBound lower (seekForward lower f.entries)) = bounded lower upper f.entries :=
      cut_skip_seek hordered
    rw [hseek] at hcut
    rw [levelZeroSource, hkey]
    simp only []
    rw [tableYields_eq behind hs hi hscan hmd, hentries]
    exact hcut
  | some key =>
    have hseek : seekForward lower f.entries = f.entries.dropWhile (SSTableIterator.below key) := by
      rw [seekForward, hkey]
    have hview : viewOf behind e md = SSTableIterator.fileView f (e.blocksCached md) (behind md.filepath) := by
      simp only [viewOf, SSTableIterator.fileView, hfile, hrec.aborted, hindex.firstKeys, Option.map_some,
        Option.getD_some]
    have hopen : e.openTable md = SSTableIterator.openFile f (e.blocksCached md) [] := by
      simp only [openTable, hfile, hrec.aborted]
    rw [levelZeroSource, hkey, hentries]
    simp only [hview, hopen]
    by_cases hnil : f.entries = []
    · have hinvalid : (SSTableIterator.openFile f (e.blocksCached md) []).valid = false := by
        rcases SSTableIterator.openFile_at hsorted.wellFormed hc ho with ⟨-, hinvalid⟩ | ⟨hat, heq⟩
        · exact hinvalid
        · rw [hnil, hat.remaining_cons] at heq
          cases heq
      rw [hinvalid, hnil]
      simp only [Bool.false_and]
      cases lower <;> rfl
    · obtain ⟨last, hlast, hlastkey⟩ := hindex.maxKey hnil
      have hstop : ∃ x ∈ f.entries, SSTableIterator.below key x = false := by
        refine ⟨last, hlast, decide_eq_false (not_lt.mpr ?_)⟩
        have hpass := (List.mem_filter.mp hmd).2
        rw [scans, hkey, Bool.and_eq_true_iff] at hpass
        have hmax : md.maxKey.isEmpty = false := by
          rw [hrec.maxKey, ← hlastkey]
          exact List.isEmpty_eq_false_iff.mpr (hsorted.keys last hlast)
        have hle := hpass.2
        rw [Option.all_some, hmax, Bool.false_or, decide_eq_true_eq, hrec.maxKey, ← hlastkey] at hle
        exact hle
      obtain ⟨hvalid, hvalid', junk, hyields, hjunk⟩ :=
        SSTableIterator.yields_seek_twice hsorted hc ho (behind md.filepath) hstop
      rw [hvalid, hvalid', Bool.and_self, if_pos rfl, hyields, ← hseek]
      rcases hscan.levelZero key hkey md hmd hlevel with htarget | ⟨x, hx, habove, hbeyond⟩
      · rw [hindex.firstKeys] at htarget
        rw [hjunk htarget, List.append_nil, cut_skip_seek hordered]
      · rw [cut_skip_append, cut_skip_seek hordered]
        refine ⟨x, ?_, habove, hbeyond⟩
        have hge : SSTableIterator.below key x = false := by
          refine decide_eq_false (not_lt.mpr ?_)
          cases lower with
          | unbounded => cases hkey
          | inclusive bound =>
            cases hkey
            exact of_decide_eq_true habove
          | exclusive bound =>
            cases hkey
            exact (of_decide_eq_true habove).le
        rw [hentries] at hx
        rw [hseek]
        have hsplit := List.takeWhile_append_dropWhile (p := SSTableIterator.below key) (l := f.entries)
        rw [← hsplit, List.mem_append] at hx
        refine hx.resolve_left fun htake => ?_
        rw [List.mem_takeWhile_imp htake] at hge
        cases hge

theorem scanned_range {md : Metadata} (hmd : md ∈ e.scanTables lower upper) {x : KeyValuePair}
    (hx : x ∈ e.tableEntries md) : md.minKey ≤ x.key ∧ x.key ≤ md.maxKey := by
  obtain ⟨f, hfile, hsorted, hrec, -⟩ := scanned_table hs hi hscan hmd
  rw [tableEntries, hfile] at hx
  rw [hrec.minKey, hrec.maxKey]
  exact hsorted.range x hx

/-- The tables of a level, as a scan goes through them. -/
def levelTables (e : Engine) (lower upper : RangeBound) (l : ℕ) : List Metadata :=
  ((e.scanTables lower upper).filter fun md => decide (md.level = l)).insertionSort fun a b => a.minKey ≤ b.minKey

omit hs hi hscan in
theorem mem_levelTables {l : ℕ} {md : Metadata} :
    md ∈ e.levelTables lower upper l ↔ md ∈ e.scanTables lower upper ∧ md.level = l := by
  rw [levelTables, List.mem_insertionSort, List.mem_filter, decide_eq_true_eq]

theorem levelTables_ascending {l : ℕ} (hl : 1 ≤ l) : Ascending ((e.levelTables lower upper l).flatMap e.tableEntries) := by
  have hapart : (e.levelTables lower upper l).Pairwise fun a b => a.maxKey < b.minKey ∨ b.maxKey < a.minKey := by
    refine ((List.perm_insertionSort _ _).pairwise_iff fun h => h.symm).mpr ?_
    refine (hscan.apart.sublist List.filter_sublist).imp_of_mem ?_
    intro a b ha hb hab
    have hal := of_decide_eq_true (List.mem_filter.mp ha).2
    have hbl := of_decide_eq_true (List.mem_filter.mp hb).2
    exact hab (by omega) (by omega)
  have hsorted : (e.levelTables lower upper l).Pairwise fun a b => a.minKey ≤ b.minKey :=
    List.pairwise_insertionSort _ _
  rw [Ascending, List.flatMap_def, List.pairwise_flatten]
  refine ⟨?_, List.pairwise_map.mpr ((hapart.and hsorted).imp_of_mem ?_)⟩
  · intro es hes
    obtain ⟨md, hmd, rfl⟩ := List.mem_map.mp hes
    obtain ⟨f, hfile, hfsorted, -⟩ := scanned_table hs hi hscan (mem_levelTables.mp hmd).1
    rw [tableEntries, hfile]
    exact hfsorted.ascending
  · intro a b ha hb hab x hx y hy
    have hxa := scanned_range hs hi hscan (mem_levelTables.mp ha).1 hx
    have hyb := scanned_range hs hi hscan (mem_levelTables.mp hb).1 hy
    rcases hab with ⟨hlt | hlt, hle⟩
    · exact hxa.2.trans_lt (hlt.trans_le hyb.1)
    · exact absurd (hyb.2.trans_lt (hlt.trans_le (hle.trans hyb.1))) (lt_irrefl _)

omit hi in
/-- With a lower bound the scan finds one table in a level. -/
theorem levelTables_single {key : Bytes} (hkey : key ∈ lower.key) {l : ℕ} (hl : 1 ≤ l)
    (hsome : ∃ md ∈ e.scanTables lower upper, md.level = l) :
    ∃ md ∈ e.scanTables lower upper, key ≤ md.minKey ∧ e.levelTables lower upper l = [md] := by
  obtain ⟨md, hmd, hlevel⟩ := hsome
  obtain ⟨hle, hone⟩ := hscan.deep key hkey md hmd (by omega)
  refine ⟨md, hmd, hle, ?_⟩
  have hall : ∀ md' ∈ e.levelTables lower upper l, md' = md := by
    intro md' hmd'
    obtain ⟨hin, hlevel'⟩ := mem_levelTables.mp hmd'
    exact hone md' hin (hlevel'.trans hlevel.symm)
  have hnodup : (e.levelTables lower upper l).Nodup := by
    refine (List.perm_insertionSort _ _).nodup_iff.mpr ((List.Nodup.filter _ (List.Nodup.filter _ ?_)))
    exact List.Nodup.of_map _ hs.running.filed.nodup
  have hmem : md ∈ e.levelTables lower upper l := mem_levelTables.mpr ⟨hmd, hlevel⟩
  rw [List.eq_replicate_iff.mpr ⟨rfl, hall⟩] at hnodup
  have hlen := List.length_pos_of_mem hmem
  have hle1 := List.nodup_replicate.mp hnodup
  have hlen1 : (e.levelTables lower upper l).length = 1 := by omega
  rw [List.eq_replicate_iff.mpr ⟨rfl, hall⟩, hlen1]
  rfl

theorem levelSource_bounded {l : ℕ} (hl : 1 ≤ l) (hsome : ∃ md ∈ e.scanTables lower upper, md.level = l) :
    cut upper (RangeIterator.skipBound lower (levelSource behind e lower
        ((e.scanTables lower upper).filter fun md => decide (md.level = l)))) =
      bounded lower upper ((e.levelTables lower upper l).flatMap e.tableEntries) := by
  have hyields : ∀ md ∈ e.levelTables lower upper l, tableYields behind e md = e.tableEntries md :=
    fun md hmd => tableYields_eq behind hs hi hscan (mem_levelTables.mp hmd).1
  have hordered := KeyOrdered.of_ascending (levelTables_ascending hs hi hscan hl)
  have hmake : LevelIterator.make (tableYields behind e)
      ((e.scanTables lower upper).filter fun md => decide (md.level = l)) =
      LevelIterator.openNext (tableYields behind e) (e.levelTables lower upper l) := rfl
  have hcut : cut upper (RangeIterator.skipBound lower (seekForward lower _)) = bounded lower upper _ :=
    cut_skip_seek hordered
  cases hkey : lower.key with
  | none =>
    rw [seekForward, hkey] at hcut
    simp only [levelSource, hkey, hmake, LevelIterator.yields_openNext]
    rw [List.flatMap_congr hyields]
    exact hcut
  | some key =>
    obtain ⟨md, hmd, hle, hsingle⟩ := levelTables_single hs hscan hkey hl hsome
    have hseek : seekForward lower ((e.levelTables lower upper l).flatMap e.tableEntries) =
        (e.levelTables lower upper l).flatMap e.tableEntries := by
      rw [seekForward, hkey, hsingle, List.flatMap_singleton]
      cases hentries : e.tableEntries md with
      | nil => rfl
      | cons x xs =>
        have hx := scanned_range hs hi hscan hmd (x := x) (by rw [hentries]; exact List.mem_cons_self)
        exact List.dropWhile_cons_of_neg (by simpa [SSTableIterator.below] using hle.trans hx.1)
    rw [hseek] at hcut
    have htable := hyields md (by rw [hsingle]; exact List.mem_cons_self)
    rw [hsingle, List.flatMap_singleton] at hcut ⊢
    simp only [levelSource, hkey, hmake, hsingle, LevelIterator.openNext, htable]
    cases hentries : e.tableEntries md with
    | nil =>
      rw [hentries] at hcut
      exact hcut
    | cons x xs =>
      rw [hentries] at hcut
      simp only [List.isEmpty_cons, LevelIterator.seekToKey, List.dropWhile_nil, LevelIterator.valid,
        LevelIterator.yields, List.flatMap_nil, List.append_nil, Bool.false_eq_true, if_false, Bool.not_false,
        Bool.and_self, if_true]
      exact hcut

/-- The sources of the scan, restricted to the bounds. -/
def boundedSources (e : Engine) (lower upper : RangeBound) : List (List KeyValuePair) :=
  (e.activeMemtable :: e.frozenMemtables).map (fun m => bounded lower upper m.entries) ++
    ((e.scanTables lower upper).filter fun md => decide (md.level = 0)).map
      (fun md => bounded lower upper (e.tableEntries md)) ++
    (deepLevels (e.scanTables lower upper)).map fun l =>
      bounded lower upper ((e.levelTables lower upper l).flatMap e.tableEntries)

omit hs hi hscan in
theorem mem_deepLevels {mds : List Metadata} {l : ℕ} :
    l ∈ deepLevels mds ↔ 1 ≤ l ∧ ∃ md ∈ mds, md.level = l := by
  rw [deepLevels, List.mem_insertionSort, List.mem_dedup, List.mem_filter, List.mem_map, decide_eq_true_eq,
    Nat.one_le_iff_ne_zero]
  exact and_comm

omit hs hi hscan in
theorem mem_memtables {m : MemTable} : m ∈ e.memtables ↔ m ∈ e.activeMemtable :: e.frozenMemtables := by
  rw [memtables, List.mem_append, List.mem_singleton, List.mem_cons]
  exact or_comm

theorem scanSources_bounded :
    (skipLower lower (scanSources behind e lower upper)).map (cut upper) = e.boundedSources lower upper := by
  rw [RangeIterator.skipLower_eq, List.map_map, scanSources, boundedSources]
  simp only [List.map_append, List.map_map]
  congr 1
  · congr 1
    · refine List.map_congr_left fun m hm => ?_
      have hmem := mem_memtables.mpr hm
      exact memtableSource_bounded (hs.memtables m hmem) (hs.described.memtables m hmem)
    · refine List.map_congr_left fun md hmd => ?_
      obtain ⟨hin, hlevel⟩ := List.mem_filter.mp hmd
      exact levelZeroSource_bounded behind hs hi hscan hin (of_decide_eq_true hlevel)
  · refine List.map_congr_left fun l hl => ?_
    obtain ⟨hl, hsome⟩ := mem_deepLevels.mp hl
    exact levelSource_bounded behind hs hi hscan hl hsome

omit hs hi hscan in
/-- Where an entry within the bounds comes from. -/
theorem mem_boundedSources {x : KeyValuePair} : x ∈ (e.boundedSources lower upper).flatten ↔
    ((∃ m ∈ e.memtables, x ∈ m.entries) ∨ ∃ md ∈ e.scanTables lower upper, x ∈ e.tableEntries md) ∧
      inBounds lower upper x.key = true := by
  simp only [boundedSources, List.flatten_append, List.mem_append, List.mem_flatten, List.mem_map]
  refine ⟨?_, ?_⟩
  · rintro ((⟨_, ⟨m, hm, rfl⟩, hx⟩ | ⟨_, ⟨md, hmd, rfl⟩, hx⟩) | ⟨_, ⟨l, hl, rfl⟩, hx⟩)
    · obtain ⟨hx, hin⟩ := List.mem_filter.mp hx
      exact ⟨.inl ⟨m, mem_memtables.mpr hm, hx⟩, hin⟩
    · obtain ⟨hx, hin⟩ := List.mem_filter.mp hx
      exact ⟨.inr ⟨md, List.mem_of_mem_filter hmd, hx⟩, hin⟩
    · obtain ⟨hx, hin⟩ := List.mem_filter.mp hx
      obtain ⟨md, hmd, hx⟩ := List.mem_flatMap.mp hx
      exact ⟨.inr ⟨md, (mem_levelTables.mp hmd).1, hx⟩, hin⟩
  · rintro ⟨⟨m, hm, hx⟩ | ⟨md, hmd, hx⟩, hin⟩
    · exact .inl (.inl ⟨_, ⟨m, mem_memtables.mp hm, rfl⟩, List.mem_filter.mpr ⟨hx, hin⟩⟩)
    · by_cases hlevel : md.level = 0
      · exact .inl (.inr ⟨_, ⟨md, List.mem_filter.mpr ⟨hmd, decide_eq_true hlevel⟩, rfl⟩, List.mem_filter.mpr ⟨hx, hin⟩⟩)
      · refine .inr ⟨_, ⟨md.level, mem_deepLevels.mpr ⟨by omega, md, hmd, rfl⟩, rfl⟩, List.mem_filter.mpr ⟨?_, hin⟩⟩
        exact List.mem_flatMap.mpr ⟨md, mem_levelTables.mpr ⟨hmd, rfl⟩, hx⟩

theorem boundedSources_ascending : ∀ source ∈ e.boundedSources lower upper, Ascending source := by
  intro source hsource
  simp only [boundedSources, List.mem_append, List.mem_map] at hsource
  rcases hsource with (⟨m, hm, rfl⟩ | ⟨md, hmd, rfl⟩) | ⟨l, hl, rfl⟩
  · have hmem := mem_memtables.mpr hm
    have hpair : (bounded lower upper m.entries).Pairwise Before :=
      (hs.memtables m hmem).ordered.pairwise.sublist List.filter_sublist
    refine hpair.imp_of_mem ?_
    intro a b ha hb hab
    rcases hab with hlt | ⟨hkey, hts⟩
    · exact hlt
    · obtain ⟨ha, hin⟩ := List.mem_filter.mp ha
      have heq := hscan.oneVersion m hmem a ha b (List.mem_of_mem_filter hb) hin hkey
      rw [heq] at hts
      exact absurd hts (Nat.lt_irrefl _)
  · obtain ⟨f, hfile, hsorted, -⟩ := scanned_table hs hi hscan (List.mem_of_mem_filter hmd)
    rw [tableEntries, hfile]
    exact hsorted.ascending.sublist List.filter_sublist
  · exact (levelTables_ascending hs hi hscan (mem_deepLevels.mp hl).1).sublist List.filter_sublist

/-- Two tables of the scan have no two versions of a key with one timestamp. -/
theorem scanTables_distinct {a b : Metadata} (ha : a ∈ e.scanTables lower upper) (hb : b ∈ e.scanTables lower upper)
    {x y : KeyValuePair} (hx : x ∈ e.tableEntries a) (hy : y ∈ e.tableEntries b) (hkey : x.key = y.key)
    (hts : x.timestamp = y.timestamp) : x = y := by
  by_cases hab : a = b
  · subst hab
    obtain ⟨f, hfile, hsorted, -⟩ := scanned_table hs hi hscan ha
    rw [tableEntries, hfile] at hx hy
    exact SSTableFile.Ascending.eq_of_key hsorted.ascending hx hy hkey
  · have hrecent := hs.running.recent
    have hcata := List.mem_of_mem_filter ha
    have hcatb := List.mem_of_mem_filter hb
    rcases Nat.lt_trichotomy a.level b.level with hlt | heq | hgt
    · exact absurd hts.symm (Nat.ne_of_lt (hrecent.levels a hcata b hcatb hlt y hy x hx))
    · by_cases hzero : a.level = 0
      · have hpair : e.sstableMetadata.Pairwise fun a b => a.level = 0 → b.level = 0 →
            ∀ x ∈ e.tableEntries a, ∀ y ∈ e.tableEntries b, x.timestamp ≠ y.timestamp :=
          hrecent.levelZero.imp fun h ha hb x hx y hy => Nat.ne_of_lt (h ha hb x hx y hy)
        have hsymm : Std.Symm fun a b : Metadata => a.level = 0 → b.level = 0 →
            ∀ x ∈ e.tableEntries a, ∀ y ∈ e.tableEntries b, x.timestamp ≠ y.timestamp :=
          ⟨fun _ _ h hb ha x hx y hy => (h ha hb y hy x hx).symm⟩
        exact absurd hts (hpair.forall hcata hcatb hab hzero (heq ▸ hzero) x hx y hy)
      · have hsymm : Std.Symm fun a b : Metadata =>
            1 ≤ a.level → a.level = b.level → a.maxKey < b.minKey ∨ b.maxKey < a.minKey :=
          ⟨fun _ _ h hl heq => (h (heq ▸ hl) heq.symm).symm⟩
        have hxa := scanned_range hs hi hscan ha hx
        have hyb := scanned_range hs hi hscan hb hy
        rcases hscan.apart.forall ha hb hab (by omega) heq with hlt | hlt
        · exact absurd (hxa.2.trans_lt (hlt.trans_le hyb.1)) (by rw [hkey]; exact lt_irrefl _)
        · exact absurd (hyb.2.trans_lt (hlt.trans_le hxa.1)) (by rw [hkey]; exact lt_irrefl _)
    · exact absurd hts (Nat.ne_of_lt (hrecent.levels b hcatb a hcata hgt x hx y hy))

theorem boundedSources_distinct : RangeIterator.Distinct (e.boundedSources lower upper).flatten := by
  have hrecent := hs.running.recent
  intro x hx y hy hkey hts
  obtain ⟨hx, hin⟩ := (mem_boundedSources).mp hx
  obtain ⟨hy, -⟩ := (mem_boundedSources).mp hy
  rcases hx with ⟨m, hm, hx⟩ | ⟨md, hmd, hx⟩
  · rcases hy with ⟨m', hm', hy⟩ | ⟨md', hmd', hy⟩
    · by_cases hmm : m = m'
      · subst hmm
        exact hscan.oneVersion m hm x hx y hy hin hkey
      · have hpair : e.memtables.Pairwise fun a b => ∀ x ∈ a.entries, ∀ y ∈ b.entries, x.timestamp ≠ y.timestamp :=
          hrecent.memtables.imp fun h x hx y hy => Nat.ne_of_lt (h x hx y hy)
        have hsymm : Std.Symm fun a b : MemTable => ∀ x ∈ a.entries, ∀ y ∈ b.entries, x.timestamp ≠ y.timestamp :=
          ⟨fun _ _ h x hx y hy => (h y hy x hx).symm⟩
        exact absurd hts (hpair.forall hm hm' hmm x hx y hy)
    · have hlt := hrecent.tablesOlder md' (List.mem_of_mem_filter hmd') m hm y hy x hx
      omega
  · rcases hy with ⟨m', hm', hy⟩ | ⟨md', hmd', hy⟩
    · have hlt := hrecent.tablesOlder md (List.mem_of_mem_filter hmd) m' hm' x hx y hy
      omega
    · exact scanTables_distinct hs hi hscan hmd hmd' hx hy hkey hts

omit hi hscan in
/-- A table that the scan passes over has no key within the bounds. -/
theorem scans_of_inBounds {md : Metadata} (hmd : md ∈ e.sstableMetadata) {x : KeyValuePair}
    (hx : x ∈ e.tableEntries md) (hin : inBounds lower upper x.key = true) : md ∈ e.scanTables lower upper := by
  obtain ⟨f, hfile⟩ := hs.running.filed.files md hmd
  rw [tableEntries, hfile] at hx
  have hrange := (hs.sorted md hmd f hfile).range x hx
  have hrec := hs.described.tables md hmd f hfile
  obtain ⟨habove, hwithin⟩ := Bool.and_eq_true_iff.mp hin
  refine List.mem_filter.mpr ⟨hmd, Bool.and_eq_true_iff.mpr ⟨?_, ?_⟩⟩
  · rw [hrec.minKey]
    cases upper with
    | unbounded => rfl
    | inclusive bound =>
      have hle := hrange.1.trans (of_decide_eq_true hwithin)
      simp [RangeBound.key, hle]
    | exclusive bound =>
      have hle := hrange.1.trans (of_decide_eq_true hwithin).le
      simp [RangeBound.key, hle]
  · rw [hrec.maxKey]
    cases lower with
    | unbounded => rfl
    | inclusive bound =>
      have hle := (of_decide_eq_true habove).trans hrange.2
      simp [RangeBound.key, hle]
    | exclusive bound =>
      have hle := (of_decide_eq_true habove).le.trans hrange.2
      simp [RangeBound.key, hle]

theorem rangeScan_eq : ScanExact e lower upper (rangeScan behind e lower upper) := by
  have hresults : Ascending (RangeIterator.results e.globalTs lower upper _) ∧ _ :=
    RangeIterator.results_spec (scanSources_bounded behind hs hi hscan) (boundedSources_ascending hs hi hscan)
      (boundedSources_distinct hs hi hscan)
  obtain ⟨hasc, hmem⟩ := hresults
  have hstored : ∀ x, x ∈ e.storedVersions ↔
      (∃ m ∈ e.memtables, x ∈ m.entries) ∨ ∃ md ∈ e.sstableMetadata, x ∈ e.tableEntries md := by
    intro x
    rw [storedVersions, List.mem_append, List.mem_flatMap, List.mem_flatMap]
    refine or_congr (exists_congr fun m => and_congr_right fun hm => ?_)
      (exists_congr fun md => and_congr_right fun hmd => ?_)
    · simp [(hs.described.memtables m hm).noAborted]
    · obtain ⟨f, hfile⟩ := hs.running.filed.files md hmd
      simp [(hs.described.tables md hmd f hfile).aborted]
  have hvis : ∀ x, x ∈ RangeIterator.visibleOf e.globalTs (e.boundedSources lower upper) ↔
      x ∈ e.visibleVersions ∧ inBounds lower upper x.key = true := by
    intro x
    rw [RangeIterator.mem_visibleOf, mem_boundedSources, visibleVersions, List.mem_filter, hstored,
      decide_eq_true_eq]
    refine ⟨?_, ?_⟩
    · rintro ⟨⟨hx, hin⟩, hts⟩
      exact ⟨⟨hx.imp_right fun ⟨md, hmd, hx⟩ => ⟨md, List.mem_of_mem_filter hmd, hx⟩, hts⟩, hin⟩
    · rintro ⟨⟨hx, hts⟩, hin⟩
      exact ⟨⟨hx.imp_right fun ⟨md, hmd, hx⟩ => ⟨md, scans_of_inBounds hs hmd hx hin, hx⟩, hin⟩, hts⟩
  refine ⟨hasc, fun x => ?_⟩
  show x ∈ RangeIterator.results _ _ _ _ ↔ _
  rw [hmem]
  refine ⟨?_, ?_⟩
  · rintro ⟨hx, hnewest⟩
    obtain ⟨hx, hin⟩ := (hvis x).mp hx
    exact ⟨⟨hx, fun y hy hkey => hnewest y ((hvis y).mpr ⟨hy, by rw [hkey]; exact hin⟩) hkey⟩, hin⟩
  · rintro ⟨⟨hx, hnewest⟩, hin⟩
    exact ⟨(hvis x).mpr ⟨hx, hin⟩, fun y hy hkey => hnewest y ((hvis y).mp hy).1 hkey⟩

end Tables

/-! ## Runs -/

/-- The condition on a call: a write fits, and the inputs of a compaction are read in order. -/
def Storable (e : Engine) (call : Calls.Call) : Prop :=
  (∀ w ∈ Calls.writes e call, Fits e w) ∧
    ∀ r ∈ Calls.compacted e call, e.nothingToCompact r.1 r.2 = false → Readable e r.1 r.2

instance decidableStorable (e : Engine) (call : Calls.Call) : Decidable (Storable e call) :=
  inferInstanceAs (Decidable ((∀ w ∈ Calls.writes e call, Fits e w) ∧
    ∀ r ∈ Calls.compacted e call, e.nothingToCompact r.1 r.2 = false → Readable e r.1 r.2))

instance decidableScannable (e : Engine) (lower upper : RangeBound) : Decidable (Scannable e lower upper) :=
  @decidable_of_iff _
    ((∀ m ∈ e.memtables, ∀ x ∈ m.entries, ∀ y ∈ m.entries,
        inBounds lower upper x.key = true → x.key = y.key → x = y) ∧
      (∀ md ∈ e.scanTables lower upper, ∀ f ∈ e.files md.filepath, SSTableIterator.InOrder f (e.blocksCached md)) ∧
      (e.scanTables lower upper).Pairwise (fun a b =>
        1 ≤ a.level → a.level = b.level → a.maxKey < b.minKey ∨ b.maxKey < a.minKey) ∧
      (∀ key ∈ lower.key, ∀ md ∈ e.scanTables lower upper, md.level = 0 →
        SSTableIterator.seekTarget md.firstKeys key = 0 ∨
          ∃ x ∈ e.tableEntries md, aboveLower lower x.key = true ∧ withinUpper upper x.key = false) ∧
      ∀ key ∈ lower.key, ∀ md ∈ e.scanTables lower upper, 1 ≤ md.level →
        key ≤ md.minKey ∧ ∀ md' ∈ e.scanTables lower upper, md'.level = md.level → md' = md)
    ⟨fun h => ⟨h.1, h.2.1, h.2.2.1, h.2.2.2.1, h.2.2.2.2⟩,
      fun h => ⟨h.oneVersion, h.inOrder, h.apart, h.levelZero, h.deep⟩⟩
    (@instDecidableAnd _ _ inferInstance (@instDecidableAnd _ _ inferInstance (@instDecidableAnd _ _ inferInstance
      (@instDecidableAnd _ _ inferInstance inferInstance))))

/-- Two tables merged into level 1, one table of level 0 and a memtable with a tombstone. -/
def scannedRun : List Calls.Call :=
  Calls.flushed [1] [2] ++ Calls.flushed [4] [3] ++ [.manualCompact 2 0 false] ++ Calls.flushed [2] [5] ++
    Calls.flushed [4] [6] ++ [.delete [4], .insert [7] [8]]

theorem scannedRun_storable : (Runs.checked Calls.step Storable (create smallConfig) scannedRun).isSome = true := by
  decide

def scannedEngine : Engine := (Runs.checked Calls.step Storable (create smallConfig) scannedRun).get scannedRun_storable

/-- A key is written twice. -/
def overwritten : List Calls.Call := [.insert [1] [2], .insert [1] [3]]

end Engine

end Kvdb
