import Kvdb.Engine.CatalogueRecovery
import Kvdb.SSTable.Contents
import Kvdb.MemTable.Order

/-! # What the tables of the catalogue cover

A write is covered when some catalogued table holds a version of its key that is no older. Flushes
number the tables consecutively as long as nothing is compacted, so a flush overwrites no table and
what is covered stays covered; the versions of the memtable it writes become covered, except those
of the empty key. Replaying a log without batches covers every entry of the log. -/
namespace Kvdb.Engine
set_option autoImplicit false

/-- Some catalogued table holds a version of the key that is no older than `ts`. -/
def Covers (e : Engine) (key : Bytes) (ts : ℕ) : Prop :=
  ∃ md ∈ e.sstableMetadata, ∃ x ∈ e.tableEntries md, x.key = key ∧ ts ≤ x.timestamp

/-- The tables are the files `0, 1, …` up to `sstable_seq_`, and the MANIFEST records them. -/
structure Sequential (e : Engine) : Prop where
  inStep : InStep e
  paths : e.sstableMetadata.map Metadata.filepath = List.range e.sstableSeq

theorem Sequential.congr {e e' : Engine} (h : Sequential e) (hmanifest : e'.manifest = e.manifest)
    (hcat : e'.sstableMetadata = e.sstableMetadata) (hseq : e'.sstableSeq = e.sstableSeq) : Sequential e' :=
  ⟨h.inStep.congr hmanifest (by rw [hcat]), by rw [hcat, hseq, h.paths]⟩

theorem Sequential.below {e : Engine} (h : Sequential e) {md : Metadata} (hmd : md ∈ e.sstableMetadata) :
    md.filepath < e.sstableSeq := by
  have hin : md.filepath ∈ e.sstableMetadata.map Metadata.filepath := List.mem_map_of_mem hmd
  rw [h.paths] at hin
  exact List.mem_range.mp hin

theorem Sequential.doFlush {e : Engine} (h : Sequential e) (m : MemTable) : Sequential (e.doFlush m) := by
  refine ⟨h.inStep.doFlush m, ?_⟩
  rcases e.doFlush_cases m with ⟨-, heq⟩ | ⟨-, md, cache, hmd, heq⟩
  · rw [heq]
    exact h.paths
  · rw [heq]
    show (e.sstableMetadata ++ [md]).map Metadata.filepath = List.range (e.sstableSeq + 1)
    rw [List.map_append, h.paths, List.range_succ, List.map_singleton, hmd.filepath]

theorem Covers.congr {e e' : Engine} {key : Bytes} {ts : ℕ} (h : e.Covers key ts)
    (hcat : e'.sstableMetadata = e.sstableMetadata) (hfiles : e'.files = e.files) : e'.Covers key ts := by
  obtain ⟨md, hmd, x, hx, hrel⟩ := h
  refine ⟨md, by rw [hcat]; exact hmd, x, ?_, hrel⟩
  rw [tableEntries_congr (congrFun hfiles _)]
  exact hx

theorem Covers.doFlush {e : Engine} {key : Bytes} {ts : ℕ} (h : e.Covers key ts) (hseq : Sequential e)
    (m : MemTable) : (e.doFlush m).Covers key ts := by
  rcases e.doFlush_cases m with ⟨-, heq⟩ | ⟨-, md, cache, hmd, heq⟩
  · rw [heq]
    exact h
  · obtain ⟨md', hmd', x, hx, hrel⟩ := h
    rw [heq]
    refine ⟨md', List.mem_append_left _ hmd', x, ?_, hrel⟩
    rw [tableEntries_congr (if_neg (Nat.ne_of_lt (hseq.below hmd')))]
    exact hx

/-- A flush covers what the memtable holds, except the empty key. -/
theorem doFlush_covers (e : Engine) {m : MemTable} (hm : MemTable.Clean m) {x : KeyValuePair} (hx : x ∈ m.entries)
    (hkey : x.key ≠ []) : (e.doFlush m).Covers x.key x.timestamp := by
  rcases e.doFlush_cases m with ⟨hzero, -⟩ | ⟨-, md, cache, hmd, heq⟩
  · rw [hm.counted hzero] at hx
    cases hx
  · have hwalk : x ∈ m.tree.memTableWalk := by
      rw [BPlusTree.memTableWalk_eq hm.noAborted]
      exact hx
    obtain ⟨y, hy, hrel⟩ := SSTableFile.flushEntries_newest _ x hwalk hkey
    rw [heq]
    refine ⟨md, List.mem_append_right _ List.mem_cons_self, y, ?_, hrel⟩
    have hfile : (e.afterFlush m md cache).files md.filepath = some (e.flushFile m) := by
      rw [hmd.filepath]
      exact if_pos rfl
    rw [tableEntries, hfile, Option.map_some, Option.getD_some, flushFile, SSTableFile.entries_writeFromWalk]
    exact hy

/-! ## Opening a directory -/

theorem map_filepath_of_pathLevel {as bs : List Metadata}
    (h : as.map Manifest.pathLevel = bs.map Manifest.pathLevel) :
    as.map Metadata.filepath = bs.map Metadata.filepath := by
  have hfst := congrArg (List.map Prod.fst) h
  rw [List.map_map, List.map_map] at hfst
  exact hfst

theorem Sequential.recovered {e : Engine} (h : Sequential e) :
    (Manifest.recover e.manifest).map Metadata.filepath = e.sstableMetadata.map Metadata.filepath := by
  refine map_filepath_of_pathLevel ?_
  rw [Manifest.pathLevel_recover, Manifest.surviving_of_removed_nil _ h.inStep.removed, h.inStep.added]

theorem filepath_fillMetadata (files : ℕ → Option SSTableFile) (m : Metadata) :
    (fillMetadata files m).filepath = m.filepath := by
  unfold fillMetadata
  split <;> rfl

theorem Sequential.reopened {e : Engine} (h : Sequential e) (cfg : EngineConfig) :
    (openDirectory cfg e.directory).sstableMetadata.map Metadata.filepath =
      e.sstableMetadata.map Metadata.filepath := by
  rw [← h.recovered]
  show ((Manifest.recover e.manifest).map (fillMetadata e.files)).map Metadata.filepath = _
  rw [List.map_map]
  exact List.map_congr_left fun m _ => filepath_fillMetadata e.files m

theorem Sequential.openDirectory {e : Engine} (h : Sequential e) (cfg : EngineConfig) :
    Sequential (openDirectory cfg e.directory) := by
  refine ⟨openDirectory_inStep cfg e.directory, ?_⟩
  have hlen : (Manifest.recover e.manifest).length = e.sstableSeq := by
    have := congrArg List.length (h.recovered.trans h.paths)
    simpa using this
  rw [h.reopened cfg, h.paths]
  show List.range e.sstableSeq = List.range (Manifest.recover e.manifest).length
  rw [hlen]

theorem Covers.openDirectory {e : Engine} {key : Bytes} {ts : ℕ} (hc : e.Covers key ts) (h : Sequential e)
    (cfg : EngineConfig) : (openDirectory cfg e.directory).Covers key ts := by
  obtain ⟨md, hmd, x, hx, hrel⟩ := hc
  have hin : md.filepath ∈ (Engine.openDirectory cfg e.directory).sstableMetadata.map Metadata.filepath := by
    rw [h.reopened cfg]
    exact List.mem_map_of_mem hmd
  obtain ⟨md', hmd', hpath⟩ := List.mem_map.mp hin
  refine ⟨md', hmd', x, ?_, hrel⟩
  rw [tableEntries, hpath]
  exact hx

/-! ## Replaying a log without batches -/

/-- The engine at the start of the replay. -/
def replayStart (cfg : EngineConfig) (d : Directory) : Engine :=
  (WAL.recover d.wal).aborted.foldl markAborted
    ((openDirectory cfg d).raiseTs (WAL.recover d.wal).checkpointTs)

/-- Every insertion of the replay finds room in a page. -/
def ReplayKept : Engine → List KeyValuePair → Prop
  | _, [] => True
  | e, kv :: kvs => e.activeMemtable.tree.Kept kv ∧ ReplayKept (e.replayEntry kv) kvs

instance decidableReplayKept (e : Engine) (kvs : List KeyValuePair) : Decidable (ReplayKept e kvs) :=
  match kvs with
  | [] => isTrue trivial
  | kv :: kvs =>
    have := decidableReplayKept (e.replayEntry kv) kvs
    inferInstanceAs (Decidable (_ ∧ _))

/-- The engine between two entries of the replay of `file`. -/
structure Replaying (file : List WalRecord) (e : Engine) : Prop where
  quiet : e.batchInProgress = false
  unfrozen : e.activeMemtable.frozen = false
  clean : MemTable.Clean e.activeMemtable
  frozen : e.frozenMemtables = []
  tables : Sequential e
  logFile : e.wal.file = file
  buffered : ∀ r ∈ e.wal.writeBuf, ∃ ts, r = .checkpoint ts 0
  batchSeq : e.wal.batchSeq = e.wal.writeBuf.length
  syncedSeq : e.syncedSeq = 0

/-- The key has a version no older than `ts` in a table or in the active memtable. -/
def Holds (e : Engine) (key : Bytes) (ts : ℕ) : Prop :=
  e.Covers key ts ∨ ∃ x ∈ e.activeMemtable.entries, x.key = key ∧ ts ≤ x.timestamp

variable {file : List WalRecord} {e : Engine}

theorem Replaying.flushActive (h : Replaying file e) : Replaying file e.flushActive := by
  have hfresh : Sequential e.freshMemtable := h.tables.congr rfl rfl rfl
  refine ⟨?_, ?_, ?_, ?_, hfresh.doFlush _, ?_, ?_, ?_, ?_⟩
  · exact (doFlush_batchInProgress _ _).trans h.quiet
  · rw [Engine.flushActive, doFlush_activeMemtable]
    rfl
  · rw [Engine.flushActive, doFlush_activeMemtable]
    exact MemTable.clean_new _ _
  · exact (doFlush_frozenMemtables _ _).trans h.frozen
  · rw [Engine.flushActive, doFlush_wal]
    exact h.logFile
  · rw [Engine.flushActive, doFlush_wal]
    exact h.buffered
  · rw [Engine.flushActive, doFlush_wal]
    exact h.batchSeq
  · exact (doFlush_syncedSeq _ _).trans h.syncedSeq

theorem Replaying.flushActive_covers (h : Replaying file e) {key : Bytes} {ts : ℕ} (hkey : key ≠ [])
    (hh : e.Holds key ts) : e.flushActive.Covers key ts := by
  rcases hh with hcov | ⟨x, hx, hxkey, hxts⟩
  · have hfresh : e.freshMemtable.Covers key ts := hcov.congr rfl rfl
    exact hfresh.doFlush (h.tables.congr rfl rfl rfl) _
  · obtain ⟨md, hmd, y, hy, hykey, hyts⟩ :=
      doFlush_covers e.freshMemtable h.clean.freeze hx (hxkey ▸ hkey)
    exact ⟨md, hmd, y, hy, hykey.trans hxkey, Nat.le_trans hxts hyts⟩

theorem Replaying.writeCheckpoint (h : Replaying file e) : Replaying file e.writeCheckpoint := by
  refine ⟨h.quiet, h.unfrozen, h.clean, h.frozen, h.tables.congr rfl rfl rfl, h.logFile, ?_, ?_, h.syncedSeq⟩
  · intro r hr
    rcases List.mem_append.mp hr with hr | hr
    · exact h.buffered r hr
    · rw [h.quiet] at hr
      exact ⟨e.globalTs, List.mem_singleton.mp hr⟩
  · show e.wal.batchSeq + 1 = (e.wal.writeBuf ++ [_]).length
    rw [h.batchSeq, List.length_append, List.length_singleton]

/-- The engine after the insertion of a replayed entry, before the memtable is checked for room. -/
theorem Replaying.inserted (h : Replaying file e) (kv : KeyValuePair) :
    Replaying file ((e.memInsert kv.key kv.value kv.timestamp false).raiseTs kv.timestamp) :=
  ⟨h.quiet, (MemTable.insert_frozen _ _ _ _ _).trans h.unfrozen, h.clean.insert _ _ _ _, h.frozen,
    h.tables.congr rfl rfl rfl, h.logFile, h.buffered, h.batchSeq, h.syncedSeq⟩

theorem Replaying.inserted_holds (h : Replaying file e) {kv : KeyValuePair} (htomb : kv.isTombstone = false)
    (hkept : e.activeMemtable.tree.Kept kv) {key : Bytes} {ts : ℕ}
    (hh : e.Holds key ts ∨ (kv.key = key ∧ ts ≤ kv.timestamp)) :
    ((e.memInsert kv.key kv.value kv.timestamp false).raiseTs kv.timestamp).Holds key ts := by
  have hperm := MemTable.insert_perm h.unfrozen hkept
  rw [htomb] at hperm
  rcases hh with (hcov | ⟨x, hx, hrel⟩) | hkv
  · exact .inl (hcov.congr rfl rfl)
  · exact .inr ⟨x, hperm.symm.subset (List.mem_cons_of_mem _ hx), hrel⟩
  · exact .inr ⟨kv, hperm.symm.subset List.mem_cons_self, hkv⟩

theorem Replaying.replayEntry (h : Replaying file e) {kv : KeyValuePair} (htomb : kv.isTombstone = false)
    (hkept : e.activeMemtable.tree.Kept kv) :
    Replaying file (e.replayEntry kv) ∧
      ∀ key ts, key ≠ [] → (e.Holds key ts ∨ (kv.key = key ∧ ts ≤ kv.timestamp)) →
        (e.replayEntry kv).Holds key ts := by
  have hins := h.inserted kv
  unfold Engine.replayEntry
  simp only []
  split
  · refine ⟨hins.flushActive.writeCheckpoint, ?_⟩
    intro key ts hkey hh
    exact .inl ((hins.flushActive_covers hkey (h.inserted_holds htomb hkept hh)).congr rfl rfl)
  · refine ⟨hins, ?_⟩
    intro key ts hkey hh
    exact h.inserted_holds htomb hkept hh

theorem Replaying.replay (kvs : List KeyValuePair) (h : Replaying file e)
    (htomb : ∀ kv ∈ kvs, kv.isTombstone = false) (hkept : ReplayKept e kvs) :
    Replaying file (kvs.foldl Engine.replayEntry e) ∧
      ∀ key ts, key ≠ [] → (e.Holds key ts ∨ ∃ kv ∈ kvs, kv.key = key ∧ ts ≤ kv.timestamp) →
        (kvs.foldl Engine.replayEntry e).Holds key ts := by
  induction kvs generalizing e with
  | nil =>
    refine ⟨h, ?_⟩
    rintro key ts - (hh | ⟨kv, hkv, -⟩)
    · exact hh
    · cases hkv
  | cons kv kvs ih =>
    obtain ⟨hnext, hholds⟩ := h.replayEntry (htomb kv List.mem_cons_self) hkept.1
    obtain ⟨hend, hall⟩ := ih hnext (fun kv' hkv' => htomb kv' (List.mem_cons_of_mem _ hkv')) hkept.2
    refine ⟨hend, ?_⟩
    intro key ts hkey hh
    rcases hh with hh | ⟨kv', hkv', hrel⟩
    · exact hall key ts hkey (.inl (hholds key ts hkey (.inl hh)))
    · rcases List.mem_cons.mp hkv' with rfl | hkv'
      · exact hall key ts hkey (.inl (hholds key ts hkey (.inr hrel)))
      · exact hall key ts hkey (.inr ⟨kv', hkv', hrel⟩)

/-- An engine that has been constructed on a directory with the log `file`. -/
structure Restarted (file : List WalRecord) (e : Engine) : Prop where
  quiet : e.batchInProgress = false
  unfrozen : e.activeMemtable.frozen = false
  clean : MemTable.Clean e.activeMemtable
  frozen : e.frozenMemtables = []
  tables : Sequential e
  log : ∃ cs, e.wal.file = file ++ cs ∧ (∀ r ∈ cs, ∃ ts, r = .checkpoint ts 0) ∧ e.wal.writeBuf = [] ∧
    e.wal.batchSeq = cs.length
  syncedSeq : e.syncedSeq = 0

theorem sync_of_ne_nil {w : WAL} (h : w.writeBuf ≠ []) :
    (w.sync true).2 = (w.swapBuf.appendFile w.writeBuf).markSynced w.batchSeq := by
  rw [WAL.sync, if_neg (by simpa using h), if_neg (by simp [WAL.tooSmall])]

theorem Replaying.synced (h : Replaying file e) (hbuf : e.wal.writeBuf ≠ []) : Restarted file e.syncWal := by
  refine ⟨h.quiet, h.unfrozen, h.clean, h.frozen, h.tables.congr rfl rfl rfl, ?_, h.syncedSeq⟩
  refine ⟨e.wal.writeBuf, ?_, h.buffered, ?_, ?_⟩
  · rw [syncWal, sync_of_ne_nil hbuf, ← h.logFile]
    rfl
  · rw [syncWal, sync_of_ne_nil hbuf]
    rfl
  · rw [syncWal, sync_of_ne_nil hbuf]
    exact h.batchSeq

theorem Replaying.finishReplay (h : Replaying file e) :
    Restarted file e.finishReplay ∧
      ∀ key ts, key ≠ [] → e.Holds key ts → e.finishReplay.Covers key ts := by
  have hbuf : ∀ e' : Engine, e'.writeCheckpoint.wal.writeBuf ≠ [] := by
    intro e' hnil
    exact List.cons_ne_nil _ _ (List.append_eq_nil_iff.mp hnil).2
  unfold Engine.finishReplay
  split
  · refine ⟨h.flushActive.writeCheckpoint.synced (hbuf _), ?_⟩
    intro key ts hkey hh
    exact (h.flushActive_covers hkey hh).congr rfl rfl
  · next hempty =>
    refine ⟨h.writeCheckpoint.synced (hbuf _), ?_⟩
    rintro key ts - (hcov | ⟨x, hx, -⟩)
    · exact hcov.congr rfl rfl
    · have hzero : e.activeMemtable.entryCount = 0 := by omega
      rw [h.clean.counted hzero] at hx
      cases hx

/-- Construction on the directory of an engine with consecutive tables and a log without batches:
what the tables covered stays covered, and every replayed entry becomes covered. -/
theorem construct_covers (cfg : EngineConfig) (h : Sequential e) (hplain : ∀ r ∈ e.wal.file, WAL.Plain r)
    (hkept : ReplayKept (replayStart cfg e.directory) (WAL.recover e.wal.file).entries) :
    Restarted e.wal.file (construct cfg e.directory) ∧
      ∀ key ts, key ≠ [] →
        (e.Covers key ts ∨ ∃ kv ∈ (WAL.recover e.wal.file).entries, kv.key = key ∧ ts ≤ kv.timestamp) →
        (construct cfg e.directory).Covers key ts := by
  obtain ⟨haborted, hentries, -⟩ := WAL.recover_plain hplain
  have hstart : replayStart cfg e.directory =
      (openDirectory cfg e.directory).raiseTs (WAL.recover e.wal.file).checkpointTs := by
    show (WAL.recover e.wal.file).aborted.foldl _ _ = _
    rw [haborted]
    rfl
  have hopen : Replaying e.wal.file (replayStart cfg e.directory) := by
    rw [hstart]
    exact ⟨rfl, rfl, MemTable.clean_new _ _, rfl, (h.openDirectory cfg).congr rfl rfl rfl, rfl,
      (fun _ hr => by cases hr), rfl, rfl⟩
  have hcov : ∀ key ts, e.Covers key ts → (replayStart cfg e.directory).Covers key ts := by
    intro key ts hc
    rw [hstart]
    exact (hc.openDirectory h cfg).congr rfl rfl
  have hrec : (openDirectory cfg e.directory).recoverFromWAL =
      if (WAL.recover e.wal.file).entries.isEmpty then replayStart cfg e.directory
      else ((WAL.recover e.wal.file).entries.foldl Engine.replayEntry
        (replayStart cfg e.directory)).finishReplay := rfl
  have hconstruct : ∀ e', (openDirectory cfg e.directory).recoverFromWAL = e' →
      Restarted e.wal.file e' → Restarted e.wal.file (construct cfg e.directory) := by
    rintro e' rfl hr
    exact ⟨hr.quiet, hr.unfrozen, hr.clean, hr.frozen, hr.tables.congr rfl rfl rfl, hr.log, hr.syncedSeq⟩
  by_cases hempty : (WAL.recover e.wal.file).entries.isEmpty = true
  · rw [if_pos hempty] at hrec
    refine ⟨hconstruct _ hrec ?_, ?_⟩
    · refine ⟨hopen.quiet, hopen.unfrozen, hopen.clean, hopen.frozen, hopen.tables, ⟨[], ?_⟩, hopen.syncedSeq⟩
      rw [hstart]
      exact ⟨(List.append_nil _).symm, (fun _ hr => by cases hr), rfl, rfl⟩
    · rintro key ts - (hc | ⟨kv, hkv, -⟩)
      · refine (hcov key ts hc).congr ?_ ?_
        · rw [construct, hrec]
        · rw [construct, hrec]
      · rw [List.isEmpty_iff.mp hempty] at hkv
        cases hkv
  · rw [if_neg hempty] at hrec
    obtain ⟨hend, hholds⟩ := hopen.replay _ (fun kv hkv => (hentries kv hkv).1) hkept
    obtain ⟨hrestarted, hcovers⟩ := hend.finishReplay
    refine ⟨hconstruct _ hrec hrestarted, ?_⟩
    intro key ts hkey hh
    have hheld : (replayStart cfg e.directory).Holds key ts ∨
        ∃ kv ∈ (WAL.recover e.wal.file).entries, kv.key = key ∧ ts ≤ kv.timestamp :=
      hh.imp_left fun hc => .inl (hcov key ts hc)
    refine (hcovers key ts hkey (hholds key ts hkey hheld)).congr ?_ ?_
    · rw [construct, hrec]
    · rw [construct, hrec]

end Kvdb.Engine
