import Kvdb.Engine.Tables
import Kvdb.SSTable.Iterate
import Kvdb.SSTable.Merge
import Kvdb.MemTable.Contents

/-! # Newer versions stand nearer to the writer

In a run without batches timestamps grow. The memtables are older from the active one to the first
frozen one, every table is older than every memtable, a table of a deeper level is older than one of a
higher level, and level 0 grows towards the back of the catalogue. No condition is needed: a flush
and a compaction only write entries that they have read. -/
namespace Kvdb.Engine
set_option autoImplicit false

/-- Every version of the first list is older than every version of the second. -/
def Older (xs ys : List KeyValuePair) : Prop := ∀ x ∈ xs, ∀ y ∈ ys, x.timestamp < y.timestamp

/-- The memtables from the oldest to the active one. -/
def memtables (e : Engine) : List MemTable := e.frozenMemtables ++ [e.activeMemtable]

structure Recent (e : Engine) : Prop where
  memtables : e.memtables.Pairwise fun a b => Older a.entries b.entries
  memtablesVisible : ∀ m ∈ e.memtables, ∀ x ∈ m.entries, x.timestamp ≤ e.globalTs
  tablesVisible : ∀ md ∈ e.sstableMetadata, ∀ x ∈ e.tableEntries md, x.timestamp ≤ e.globalTs
  tablesOlder : ∀ md ∈ e.sstableMetadata, ∀ m ∈ e.memtables, Older (e.tableEntries md) m.entries
  levels : ∀ a ∈ e.sstableMetadata, ∀ b ∈ e.sstableMetadata, a.level < b.level →
    Older (e.tableEntries b) (e.tableEntries a)
  levelZero : e.sstableMetadata.Pairwise fun a b => a.level = 0 → b.level = 0 →
    Older (e.tableEntries a) (e.tableEntries b)

variable {e e' : Engine}

theorem Recent.congr (h : Recent e) (hmem : e'.memtables = e.memtables) (hts : e'.globalTs = e.globalTs)
    (hcat : e'.sstableMetadata = e.sstableMetadata)
    (hentries : ∀ md ∈ e.sstableMetadata, e'.tableEntries md = e.tableEntries md) : Recent e' := by
  refine ⟨?_, ?_, ?_, ?_, ?_, ?_⟩
  · rw [hmem]
    exact h.memtables
  · rw [hmem, hts]
    exact h.memtablesVisible
  · rw [hcat, hts]
    intro md hmd
    rw [hentries md hmd]
    exact h.tablesVisible md hmd
  · rw [hcat, hmem]
    intro md hmd
    rw [hentries md hmd]
    exact h.tablesOlder md hmd
  · rw [hcat]
    intro a ha b hb
    rw [hentries a ha, hentries b hb]
    exact h.levels a ha b hb
  · rw [hcat]
    refine h.levelZero.imp_of_mem ?_
    intro a b ha hb hab
    rw [hentries a ha, hentries b hb]
    exact hab

/-! ## Writes -/

/-- A write before the memtable is checked for room. -/
def inserted (e : Engine) (key value : Bytes) (isTombstone : Bool) : Engine :=
  (e.tick.bufferWrite key value (e.globalTs + 1)).memInsert key value (e.globalTs + 1) isTombstone

theorem written_eq (e : Engine) (key value : Bytes) (isTombstone : Bool) :
    e.written key value isTombstone = (e.inserted key value isTombstone).freezeIfFull := rfl

/-- What a write and a rotation keep, and what does not depend on the key-value cache. -/
theorem written_rule {P : Engine → Prop} {key value : Bytes} {isTombstone : Bool} (kv : KVCache)
    (hinsert : P (e.inserted key value isTombstone)) (hrotate : ∀ e, P e → P e.rotate)
    (hkv : ∀ e kv, P e → P { e with kvCache := kv }) :
    P { e.written key value isTombstone with kvCache := kv } := by
  refine hkv _ kv ?_
  rw [written_eq, freezeIfFull]
  split
  · exact hrotate _ hinsert
  · exact hinsert

theorem Recent.inserted (h : Recent e) (key value : Bytes) (isTombstone : Bool) :
    Recent (e.inserted key value isTombstone) := by
  have hactive : e.activeMemtable ∈ e.memtables := List.mem_append_right _ List.mem_cons_self
  have hnew : ∀ x ∈ (e.activeMemtable.insert key value (e.globalTs + 1) isTombstone).entries,
      x ∈ e.activeMemtable.entries ∨ x.timestamp = e.globalTs + 1 := by
    intro x hx
    rcases MemTable.mem_insert hx with rfl | hx
    · exact .inr rfl
    · exact .inl hx
  have hmems : (e.inserted key value isTombstone).memtables =
      e.frozenMemtables ++ [e.activeMemtable.insert key value (e.globalTs + 1) isTombstone] := rfl
  have hpair := List.pairwise_append.mp h.memtables
  refine ⟨?_, ?_, ?_, ?_, h.levels, h.levelZero⟩
  · rw [hmems, List.pairwise_append]
    refine ⟨hpair.1, List.pairwise_singleton _ _, ?_⟩
    intro a ha b hb x hx y hy
    rw [List.mem_singleton] at hb
    subst hb
    rcases hnew y hy with hy | hy
    · exact hpair.2.2 a ha e.activeMemtable List.mem_cons_self x hx y hy
    · have := h.memtablesVisible a (List.mem_append_left _ ha) x hx
      omega
  · intro m hm x hx
    show x.timestamp ≤ e.globalTs + 1
    rw [hmems, List.mem_append, List.mem_singleton] at hm
    rcases hm with hm | rfl
    · have := h.memtablesVisible m (List.mem_append_left _ hm) x hx
      omega
    · rcases hnew x hx with hx | hx
      · have := h.memtablesVisible _ hactive x hx
        omega
      · omega
  · intro md hmd x hx
    exact Nat.le_succ_of_le (h.tablesVisible md hmd x hx)
  · intro md hmd m hm x hx y hy
    rw [hmems, List.mem_append, List.mem_singleton] at hm
    rcases hm with hm | rfl
    · exact h.tablesOlder md hmd m (List.mem_append_left _ hm) x hx y hy
    · rcases hnew y hy with hy | hy
      · exact h.tablesOlder md hmd _ hactive x hx y hy
      · have := h.tablesVisible md hmd x hx
        omega

theorem Recent.rotate (h : Recent e) : Recent e.rotate := by
  have hmems : e.rotate.memtables = e.frozenMemtables ++ [e.activeMemtable.freeze] ++
      [MemTable.new e.nextTableId e.cfg.memtableMaxBytes] := rfl
  have hpair := List.pairwise_append.mp h.memtables
  have hold : ∀ m ∈ e.frozenMemtables ++ [e.activeMemtable.freeze], ∃ m' ∈ e.memtables, m'.entries = m.entries := by
    intro m hm
    rcases List.mem_append.mp hm with hm | hm
    · exact ⟨m, List.mem_append_left _ hm, rfl⟩
    · rw [List.mem_singleton.mp hm]
      exact ⟨e.activeMemtable, List.mem_append_right _ List.mem_cons_self, rfl⟩
  refine ⟨?_, ?_, h.tablesVisible, ?_, h.levels, h.levelZero⟩
  · rw [hmems, List.pairwise_append, List.pairwise_append]
    refine ⟨⟨hpair.1, List.pairwise_singleton _ _, ?_⟩, List.pairwise_singleton _ _, ?_⟩
    · intro a ha b hb
      rw [List.mem_singleton.mp hb]
      exact hpair.2.2 a ha e.activeMemtable List.mem_cons_self
    · intro a _ b hb x _ y hy
      rw [List.mem_singleton.mp hb] at hy
      cases hy
  · intro m hm x hx
    rw [hmems, List.mem_append, List.mem_singleton] at hm
    rcases hm with hm | rfl
    · obtain ⟨m', hm', heq⟩ := hold m hm
      exact h.memtablesVisible m' hm' x (heq ▸ hx)
    · cases hx
  · intro md hmd m hm
    rw [hmems, List.mem_append, List.mem_singleton] at hm
    rcases hm with hm | rfl
    · obtain ⟨m', hm', heq⟩ := hold m hm
      exact heq ▸ h.tablesOlder md hmd m' hm'
    · intro x _ y hy
      cases hy

/-! ## Flushes -/

/-- A flush writes versions of its memtable only. -/
theorem flushFile_subset (e : Engine) (m : MemTable) : ∀ x ∈ (e.flushFile m).entries, x ∈ m.entries := by
  intro x hx
  rw [flushFile, SSTableFile.entries_writeFromWalk] at hx
  exact m.tree.memTableWalk_sublist.subset (SSTableFile.flushEntries_subset _ x hx)

section Flushed

variable {m : MemTable} {md : Metadata} {cache : Option SSTableCache}

theorem tableEntries_afterFlush_old (hf : Filed e) {md' : Metadata} (hmd' : md' ∈ e.sstableMetadata) :
    (e.afterFlush m md cache).tableEntries md' = e.tableEntries md' :=
  tableEntries_congr (if_neg (Nat.ne_of_lt (hf.below md' hmd')))

theorem tableEntries_afterFlush_new (hmd : Flushed e m md cache) :
    (e.afterFlush m md cache).tableEntries md = (e.flushFile m).entries := by
  have hfile : (e.afterFlush m md cache).files md.filepath = some (e.flushFile m) := if_pos hmd.filepath
  rw [tableEntries, hfile]
  rfl

end Flushed

/-- The memtable that has left `frozen_memtables_` is older than the memtables that stay. -/
theorem Recent.doFlush (h : Recent e) (hf : Filed e) {m : MemTable}
    (hvisible : ∀ x ∈ m.entries, x.timestamp ≤ e.globalTs)
    (holder : ∀ m' ∈ e.memtables, Older m.entries m'.entries)
    (htables : ∀ md ∈ e.sstableMetadata, Older (e.tableEntries md) m.entries) : Recent (e.doFlush m) := by
  rcases e.doFlush_cases m with ⟨-, heq⟩ | ⟨-, md, cache, hmd, heq⟩
  · rw [heq]
    exact h
  · rw [heq]
    have hcat : ∀ md' ∈ (e.afterFlush m md cache).sstableMetadata, md' ∈ e.sstableMetadata ∨ md' = md := by
      intro md' hmd'
      rcases List.mem_append.mp hmd' with hmd' | hmd'
      · exact .inl hmd'
      · exact .inr (List.mem_singleton.mp hmd')
    have hnew : ∀ x ∈ (e.afterFlush m md cache).tableEntries md, x ∈ m.entries := by
      rw [tableEntries_afterFlush_new hmd]
      exact e.flushFile_subset m
    refine ⟨h.memtables, h.memtablesVisible, ?_, ?_, ?_, ?_⟩
    · intro md' hmd' x hx
      rcases hcat md' hmd' with hmd' | rfl
      · rw [tableEntries_afterFlush_old hf hmd'] at hx
        exact h.tablesVisible md' hmd' x hx
      · exact hvisible x (hnew x hx)
    · intro md' hmd' m' hm' x hx
      rcases hcat md' hmd' with hmd' | rfl
      · rw [tableEntries_afterFlush_old hf hmd'] at hx
        exact h.tablesOlder md' hmd' m' hm' x hx
      · exact holder m' hm' x (hnew x hx)
    · intro a ha b hb hlevel y hy x hx
      rcases hcat b hb with hbold | hbnew
      · rw [tableEntries_afterFlush_old hf hbold] at hy
        rcases hcat a ha with haold | hanew
        · rw [tableEntries_afterFlush_old hf haold] at hx
          exact h.levels a haold b hbold hlevel y hy x hx
        · rw [hanew] at hx
          exact htables b hbold y hy x (hnew x hx)
      · rw [hbnew, hmd.level] at hlevel
        exact absurd hlevel (Nat.not_lt_zero _)
    · show (e.sstableMetadata ++ [md]).Pairwise _
      rw [List.pairwise_append]
      refine ⟨?_, List.pairwise_singleton _ _, ?_⟩
      · refine h.levelZero.imp_of_mem ?_
        intro a b ha hb hab
        rw [tableEntries_afterFlush_old hf ha, tableEntries_afterFlush_old hf hb]
        exact hab
      · intro a ha b hb _ _ x hx y hy
        rw [List.mem_singleton.mp hb] at hy
        rw [tableEntries_afterFlush_old hf ha] at hx
        exact htables a ha x hx y (hnew y hy)

/-- The memtable that the flush worker takes is older than those that stay and newer than the tables. -/
theorem Recent.popped (h : Recent e) {m : MemTable} {rest : List MemTable} (hfrozen : e.frozenMemtables = m :: rest) :
    Recent { e with frozenMemtables := rest } ∧ m ∈ e.memtables ∧
      ∀ m' ∈ ({ e with frozenMemtables := rest } : Engine).memtables, m' ∈ e.memtables ∧ Older m.entries m'.entries := by
  have hmems : e.memtables = m :: ({ e with frozenMemtables := rest } : Engine).memtables := by
    rw [Engine.memtables, hfrozen]
    rfl
  have hpair := h.memtables
  rw [hmems, List.pairwise_cons] at hpair
  have hrest : ∀ m' ∈ ({ e with frozenMemtables := rest } : Engine).memtables, m' ∈ e.memtables := by
    intro m' hm'
    rw [hmems]
    exact List.mem_cons_of_mem _ hm'
  refine ⟨?_, ?_, fun m' hm' => ⟨hrest m' hm', hpair.1 m' hm'⟩⟩
  · exact ⟨hpair.2, fun m' hm' => h.memtablesVisible m' (hrest m' hm'), h.tablesVisible,
      fun md hmd m' hm' => h.tablesOlder md hmd m' (hrest m' hm'), h.levels, h.levelZero⟩
  · rw [hmems]
    exact List.mem_cons_self

theorem Recent.flushWorker (h : Recent e) (hf : Filed e) : Recent e.flushWorker := by
  unfold Engine.flushWorker
  split
  · exact h
  · next m rest hfrozen =>
    obtain ⟨hpopped, hm, hrest⟩ := h.popped hfrozen
    have hfpopped : Filed { e with frozenMemtables := rest } := hf.congr rfl
    simp only []
    split
    · have hflushed := hpopped.doFlush hfpopped (h.memtablesVisible m hm) (fun m' hm' => (hrest m' hm').2)
        fun md hmd => h.tablesOlder md hmd m hm
      exact hflushed.congr rfl rfl rfl fun _ _ => rfl
    · exact hpopped

/-! ## Compactions -/

theorem mem_outputFiles {sizing : ℕ → ℕ × ℕ} {aborted : List ℕ} {seq : ℕ} {batches : List (List KeyValuePair)}
    {p : ℕ × SSTableFile} (hp : p ∈ Compaction.outputFiles sizing aborted seq batches) :
    ∃ batch ∈ batches, p.2 = SSTableFile.write sizing batch aborted := by
  induction batches generalizing seq with
  | nil => cases hp
  | cons batch batches ih =>
    rcases List.mem_cons.mp hp with rfl | hp
    · exact ⟨batch, List.mem_cons_self, rfl⟩
    · obtain ⟨b, hb, heq⟩ := ih hp
      exact ⟨b, List.mem_cons_of_mem _ hb, heq⟩

/-- The cached blocks of an input come from its file. -/
theorem Keyed.cachedFrom (hk : Keyed (· ≠ 0) e) {md : Metadata} (hmd : md ∈ e.sstableMetadata) {f : SSTableFile}
    (hfile : e.files md.filepath = some f) :
    SSTableIterator.CachedFrom f (cachedBlocks (e.sstCache.getD SSTableCache.empty) md.manifestSeq) := by
  intro i b hb
  unfold cachedBlocks at hb
  split at hb
  · cases hb
  · next hseq =>
    cases hcache : e.sstCache with
    | none =>
      rw [hcache] at hb
      cases hb
    | some c =>
      rw [hcache] at hb
      exact (hk.agrees c hcache md hmd hseq f hfile).blocks i b hb

section Compacted

variable {fromLevel topLevel : ℕ}

/-- The entries that a compaction reads are entries of its inputs. -/
theorem mem_sources (hf : Filed e) (hk : Keyed (· ≠ 0) e) {x : KeyValuePair}
    (hx : x ∈ (e.compactionJob fromLevel topLevel).sources.flatten) :
    ∃ i ∈ e.compactionInputs fromLevel topLevel, x ∈ e.tableEntries i := by
  obtain ⟨src, hsrc, hx⟩ := List.mem_flatten.mp hx
  obtain ⟨i, hi, rfl⟩ := List.mem_map.mp (List.mem_of_mem_filter hsrc)
  have hinput : i ∈ e.compactionInputs fromLevel topLevel := (List.mem_insertionSort _).mp hi
  have hicat := ((mem_compactionInputs e fromLevel topLevel i).mp hinput).1
  obtain ⟨f, hfile⟩ := hf.files i hicat
  have hfile' : (e.compactionJob fromLevel topLevel).files i.filepath = some f := hfile
  rw [hfile'] at hx
  refine ⟨i, hinput, ?_⟩
  rw [tableEntries, hfile]
  exact SSTableIterator.mem_stream (hk.cachedFrom hicat hfile) _ x hx

/-- The entries of an output are merged entries. -/
theorem output_entries (hwork : e.nothingToCompact fromLevel topLevel = false) {md : Metadata}
    (hmd : md ∈ (e.runCompact fromLevel topLevel).outputs) :
    ∃ batch ∈ (e.compactionJob fromLevel topLevel).batches,
      (e.compactLevel fromLevel topLevel).tableEntries md = batch := by
  obtain ⟨f, hout, -, hfile⟩ := output_file hwork hmd
  obtain ⟨batch, hbatch, heq⟩ := mem_outputFiles hout
  refine ⟨batch, hbatch, ?_⟩
  rw [tableEntries, hfile, Option.map_some, Option.getD_some]
  exact (congrArg SSTableFile.entries heq).trans (SSTableFile.entries_write _ _ _)

theorem mem_batches {batch : List KeyValuePair} (hbatch : batch ∈ (e.compactionJob fromLevel topLevel).batches)
    {x : KeyValuePair} (hx : x ∈ batch) : x ∈ (e.compactionJob fromLevel topLevel).merged := by
  have hflat : (e.compactionJob fromLevel topLevel).batches.flatten =
      (e.compactionJob fromLevel topLevel).merged := Pack.pack_flatten _ _ _ _
  rw [← hflat]
  exact List.mem_flatten.mpr ⟨batch, hbatch, hx⟩

theorem mem_output (hf : Filed e) (hk : Keyed (· ≠ 0) e)
    (hwork : e.nothingToCompact fromLevel topLevel = false) {md : Metadata}
    (hmd : md ∈ (e.runCompact fromLevel topLevel).outputs) {x : KeyValuePair}
    (hx : x ∈ (e.compactLevel fromLevel topLevel).tableEntries md) :
    x ∈ (e.compactionJob fromLevel topLevel).merged ∧
      ∃ i ∈ e.compactionInputs fromLevel topLevel, x ∈ e.tableEntries i := by
  obtain ⟨batch, hbatch, heq⟩ := output_entries hwork hmd
  rw [heq] at hx
  have hmerged := mem_batches hbatch hx
  exact ⟨hmerged, mem_sources hf hk (Compaction.mem_mergeLoop _ _ hmerged).1⟩

theorem tableEntries_survivor (hf : Filed e) (hwork : e.nothingToCompact fromLevel topLevel = false)
    {md : Metadata} (hmd : md ∈ e.survivors fromLevel topLevel) :
    (e.compactLevel fromLevel topLevel).tableEntries md = e.tableEntries md :=
  tableEntries_congr (compactLevel_files_of_lt hwork (hf.below md (Engine.mem_survivors.mp hmd).1))

theorem memtables_compactLevel (e : Engine) (fromLevel topLevel : ℕ) :
    (e.compactLevel fromLevel topLevel).memtables = e.memtables :=
  compactLevel_keeps Engine.memtables e fromLevel topLevel fun _ _ _ _ _ _ => rfl

theorem globalTs_compactLevel (e : Engine) (fromLevel topLevel : ℕ) :
    (e.compactLevel fromLevel topLevel).globalTs = e.globalTs :=
  compactLevel_keeps Engine.globalTs e fromLevel topLevel fun _ _ _ _ _ _ => rfl

/-- Every table after a compaction holds versions of a table before it, of a level that was not
compacted or of one that was. -/
theorem compacted_origin (hf : Filed e) (hk : Keyed (· ≠ 0) e)
    (hwork : e.nothingToCompact fromLevel topLevel = false) {md : Metadata}
    (hmd : md ∈ (e.compactLevel fromLevel topLevel).sstableMetadata) {x : KeyValuePair}
    (hx : x ∈ (e.compactLevel fromLevel topLevel).tableEntries md) :
    ∃ md' ∈ e.sstableMetadata, x ∈ e.tableEntries md' ∧
      ((md' = md ∧ ¬ (fromLevel ≤ md.level ∧ md.level ≤ topLevel)) ∨
        (md.level = topLevel + 1 ∧ fromLevel ≤ md'.level ∧ md'.level ≤ topLevel)) := by
  rw [compactLevel_survivors hwork, List.mem_append] at hmd
  rcases hmd with hmd | hmd
  · rw [tableEntries_survivor hf hwork hmd] at hx
    obtain ⟨hcat, hlevel⟩ := hf.mem_survivors.mp hmd
    exact ⟨md, hcat, hx, .inl ⟨rfl, hlevel⟩⟩
  · obtain ⟨-, i, hi, hx⟩ := mem_output hf hk hwork hmd hx
    obtain ⟨hicat, hilevel⟩ := (mem_compactionInputs e fromLevel topLevel i).mp hi
    exact ⟨i, hicat, hx, .inr ⟨(output_manifestSeq hmd).2, hilevel⟩⟩

theorem Recent.compactLevel (h : Recent e) (hf : Filed e) (hk : Keyed (· ≠ 0) e) (fromLevel topLevel : ℕ) :
    Recent (e.compactLevel fromLevel topLevel) := by
  cases hwork : e.nothingToCompact fromLevel topLevel with
  | true =>
    rw [compactLevel_of_nothing e fromLevel topLevel hwork]
    exact h
  | false =>
    have hmems := e.memtables_compactLevel fromLevel topLevel
    have hts := e.globalTs_compactLevel fromLevel topLevel
    refine ⟨?_, ?_, ?_, ?_, ?_, ?_⟩
    · rw [hmems]
      exact h.memtables
    · rw [hmems, hts]
      exact h.memtablesVisible
    · intro md hmd x hx
      obtain ⟨md', hmd', hx', -⟩ := compacted_origin hf hk hwork hmd hx
      rw [hts]
      exact h.tablesVisible md' hmd' x hx'
    · intro md hmd m hm x hx
      obtain ⟨md', hmd', hx', -⟩ := compacted_origin hf hk hwork hmd hx
      rw [hmems] at hm
      exact h.tablesOlder md' hmd' m hm x hx'
    · intro a ha b hb hlevel y hy x hx
      obtain ⟨a', ha', hx', hafrom⟩ := compacted_origin hf hk hwork ha hx
      obtain ⟨b', hb', hy', hbfrom⟩ := compacted_origin hf hk hwork hb hy
      refine h.levels a' ha' b' hb' ?_ y hy' x hx'
      rcases hafrom with ⟨rfl, ha⟩ | ⟨ha, hafrom, hatop⟩
      · rcases hbfrom with ⟨rfl, hb⟩ | ⟨hb, hbfrom, hbtop⟩
        · exact hlevel
        · omega
      · rcases hbfrom with ⟨rfl, hb⟩ | ⟨hb, hbfrom, hbtop⟩
        · omega
        · omega
    · rw [compactLevel_survivors hwork, List.pairwise_append]
      refine ⟨?_, ?_, ?_⟩
      · refine (h.levelZero.sublist List.filter_sublist).imp_of_mem ?_
        intro a b ha hb hab
        rw [tableEntries_survivor hf hwork ha, tableEntries_survivor hf hwork hb]
        exact hab
      · refine List.pairwise_of_forall_mem_list ?_
        intro a ha b _ hzero
        have hlevel := (output_manifestSeq ha).2
        omega
      · intro a _ b hb _ hzero
        have hlevel := (output_manifestSeq hb).2
        omega

end Compacted

/-! ## Runs -/

/-- The invariants of every run without batches. -/
structure Running (e : Engine) : Prop where
  filed : Filed e
  keyed : Keyed (· ≠ 0) e
  recent : Recent e

theorem Recent.drainFileGC (h : Recent e) (hf : Filed e) (ts : ℕ) : Recent (e.drainFileGC ts) :=
  h.congr rfl rfl rfl fun _ hmd => tableEntries_congr (hf.drain_files ts hmd)

theorem Recent.lookupAt (h : Recent e) (key : Bytes) (readTs : ℕ) : Recent (e.lookupAt key readTs).2 := by
  obtain ⟨kv, cache, heq, -⟩ := e.lookupAt_eq key readTs
  rw [heq]
  exact h.congr rfl rfl rfl fun _ _ => rfl

theorem Running.step (h : Running e) {call : Calls.Call} (hs : Calls.step e call = some e') : Running e' := by
  have hfiled := h.filed.step hs
  have hkeyed : Keyed (· ≠ 0) e' := h.keyed.step h.filed (fun _ _ _ _ hzero => absurd rfl hzero) hs
  refine ⟨hfiled, hkeyed, ?_⟩
  have hboth : Recent e' ∧ Filed e' := by
    refine Calls.step_rule (P := fun e => Recent e ∧ Filed e) hs ⟨h.recent, h.filed⟩ ?_ ?_ ?_ ?_ ?_ ?_ ?_
    · intro w kv _ _
      refine ⟨?_, h.filed.congr (tables_written e _ _ _ kv)⟩
      refine written_rule kv (h.recent.inserted w.key w.value w.isTombstone) (fun _ h1 => h1.rotate) ?_
      exact fun _ _ h1 => h1.congr rfl rfl rfl fun _ _ => rfl
    · exact fun _ => ⟨h.recent.rotate, h.filed.congr rfl⟩
    · exact ⟨h.recent.flushWorker h.filed, h.filed.flushWorker⟩
    · intro bottom top _
      exact ⟨h.recent.compactLevel h.filed h.keyed bottom top, h.filed.compactLevel bottom top⟩
    · exact fun e1 ts h1 => ⟨h1.1.drainFileGC h1.2 ts, h1.2.drainFileGC ts⟩
    · exact fun key readTs => ⟨h.recent.lookupAt key readTs, h.filed.lookupAt key readTs⟩
    · exact fun _ _ => ⟨h.recent.congr rfl rfl rfl fun _ _ => rfl, h.filed.withCache⟩
  exact hboth.1

theorem create_running (cfg : EngineConfig) : Running (create cfg) := by
  refine ⟨create_filed cfg, create_keyed _ cfg, ?_⟩
  refine ⟨List.pairwise_singleton _ _, ?_, ?_, ?_, ?_, List.Pairwise.nil⟩
  · intro m hm x hx
    rw [List.mem_singleton.mp hm] at hx
    cases hx
  · intro md hmd
    cases hmd
  · intro md hmd
    cases hmd
  · intro md hmd
    cases hmd

end Kvdb.Engine
