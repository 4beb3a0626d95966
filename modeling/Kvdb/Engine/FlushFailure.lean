import Kvdb.Engine.Recency
import Kvdb.Engine.ReopenedClock
import Kvdb.Engine.CatalogueRecovery

/-! # A flush that throws (`FlushWorkerLoop`, `DoFlush`)

The flush worker takes the memtable out of `frozen_memtables_`, and an exception of `DoFlush` is swallowed: the memtable
is dropped. When `DoFlush` has not reached the catalogue its versions are gone at once. When it fails at the MANIFEST,
the table is in the catalogue only, and the checkpoint of the next flush ends the life of the log records too. -/
namespace Kvdb.FlushFailure
set_option autoImplicit false

open Kvdb.Runs Kvdb.Engine
open Kvdb.WAL (Unmarked)

/-- Where `DoFlush` throws: in `WriteFromWalk`, in `ReadMetadata` or in `AddSSTable`. -/
inductive FlushStep where
  | write
  | readMetadata
  | manifest
  deriving DecidableEq

/-- What `DoFlush` has done when it throws. -/
def doFlushThrow (e : Engine) (m : MemTable) : FlushStep → Engine
  | .write => { e.reserveSeq 1 with files := fun n => if n = e.sstableSeq then none else e.files n }
  | .readMetadata => (e.reserveSeq 1).flushWrite m e.sstableSeq
  | .manifest => { e.doFlush m with manifest := e.manifest }

/-- A round of `FlushWorkerLoop` in which `DoFlush`, if it is called, throws. -/
def flushWorkerThrow (e : Engine) (stage : FlushStep) : Engine :=
  match e.frozenMemtables with
  | [] => e
  | m :: rest =>
    let popped := { e with frozenMemtables := rest }
    if 0 < m.entryCount then doFlushThrow popped m stage else popped

inductive Action where
  | call (c : Calls.Call)
  | startBatch
  | batchInsert (key value : Bytes)
  | batchDelete (key : Bytes)
  | commitBatchAsync
  | commitBatchFinalize
  | abortBatch
  | sync (force : Bool)
  | flushThrow (stage : FlushStep)

/-- The writes of a batch come between its start and its end. -/
def step (e : Engine) : Action → Option Engine
  | .call c => Calls.step e c
  | .startBatch => some e.startBatch.2
  | .batchInsert key value => if e.batchInProgress then Calls.returnedEngine (e.batchInsert key value) else none
  | .batchDelete key => if e.batchInProgress then Calls.returnedEngine (e.batchDelete key) else none
  | .commitBatchAsync => some e.commitBatchAsync.2
  | .commitBatchFinalize => some e.commitBatchFinalize.2
  | .abortBatch => some e.abortBatch.2
  | .sync force => some (e.syncWorker force)
  | .flushThrow stage => some (flushWorkerThrow e stage)

/-- The steps of a run in which nothing throws and no table is rewritten. -/
def Succeeds (_ : Engine) : Action → Prop
  | .flushThrow _ => False
  | .call (.manualCompact _ _ _) => False
  | .call .compactionWorker => False
  | _ => True

/-- The version is where a lookup searches behind the key-value cache: in a memtable or in a table of the catalogue. -/
def Stored (e : Engine) (w : KeyValuePair) : Prop :=
  (∃ m ∈ e.memtables, w ∈ m.entries) ∨ ∃ md ∈ e.sstableMetadata, w ∈ e.tableEntries md

/-- The version stays stored whatever succeeds later, and a crash with nothing left to sync does not lose it. -/
def Survives (cfg : EngineConfig) (e : Engine) (w : KeyValuePair) : Prop :=
  ∀ acts e', Run step Succeeds e acts e' →
    Stored e' w ∧ (e'.wal.writeBuf = [] → Stored (construct cfg e'.directory) w)

/-! ## The invariant of every run -/

/-- Every file is numbered below `sstable_seq_` and holds only versions older than those in memory. -/
def Settled (e : Engine) : Prop :=
  ∀ n f, e.files n = some f → n < e.sstableSeq ∧
    ∀ x ∈ f.entries, x.timestamp ≤ e.globalTs ∧ ∀ m ∈ e.memtables, ∀ y ∈ m.entries, x.timestamp < y.timestamp

/-- What holds beside `Running` as long as no batch has begun. -/
structure Kept (e : Engine) : Prop where
  settled : Settled e
  listed : ∀ md ∈ Manifest.added e.manifest, md.filepath < e.sstableSeq
  quiet : e.batchInProgress = false
  plain : ∀ r ∈ e.wal.log, WAL.Plain r
  unfrozen : e.activeMemtable.frozen = false
  active : e.activeMemtable.Counted
  counted : ∀ m ∈ e.frozenMemtables, m.entryCount ≠ 0

structure Sound (e : Engine) : Prop where
  running : Running e
  kept : Kept e

variable {e e' : Engine}

theorem sound_create (cfg : EngineConfig) : Sound (create cfg) where
  running := create_running cfg
  kept := {
    settled := fun _ _ hf => by cases hf
    listed := fun _ hmd => by cases hmd
    quiet := rfl
    plain := fun _ hr => by cases hr
    unfrozen := rfl
    active := MemTable.counted_new 0 cfg.memtableMaxBytes
    counted := fun _ hm => by cases hm }

theorem Kept.inserted (h : Kept e) (key value : Bytes) (isTombstone : Bool) :
    Kept (e.inserted key value isTombstone) ∧
      (e.inserted key value isTombstone).activeMemtable.entryCount ≠ 0 := by
  have hlog : (e.inserted key value isTombstone).wal.log = e.wal.log ++ [.entry key value (e.globalTs + 1)] :=
    ReopenedClock.log_append e.wal _ _
  refine ⟨⟨?_, h.listed, h.quiet, ?_, ?_, h.active.insert key value _ isTombstone, h.counted⟩, ?_⟩
  · intro n f hf
    obtain ⟨hlt, hentries⟩ := h.settled n f hf
    refine ⟨hlt, ?_⟩
    intro x hx
    obtain ⟨hle, hold⟩ := hentries x hx
    refine ⟨Nat.le_succ_of_le hle, ?_⟩
    intro m hm y hy
    rcases List.mem_append.mp hm with hfrozen | hactive
    · exact hold m (List.mem_append_left _ hfrozen) y hy
    · rw [List.mem_singleton.mp hactive] at hy
      rcases MemTable.mem_insert hy with rfl | hin
      · exact Nat.lt_succ_of_le hle
      · exact hold _ (List.mem_append_right _ List.mem_cons_self) y hin
  · intro r hr
    rw [hlog] at hr
    rcases List.mem_append.mp hr with hold | hnew
    · exact h.plain r hold
    · rw [List.mem_singleton.mp hnew]
      trivial
  · exact (MemTable.insert_frozen _ _ _ _ _).trans h.unfrozen
  · show (e.activeMemtable.insert key value (e.globalTs + 1) isTombstone).tree.count ≠ 0
    rw [MemTable.insert, if_neg (by simp [h.unfrozen])]
    exact BPlusTree.insert_count_ne_zero _ h.active

theorem Kept.rotate (h : Kept e) (hcount : e.activeMemtable.entryCount ≠ 0) : Kept e.rotate := by
  refine ⟨?_, h.listed, h.quiet, h.plain, rfl, MemTable.counted_new _ _, ?_⟩
  · intro n f hf
    obtain ⟨hlt, hentries⟩ := h.settled n f hf
    refine ⟨hlt, ?_⟩
    intro x hx
    obtain ⟨hle, hold⟩ := hentries x hx
    refine ⟨hle, ?_⟩
    intro m hm y hy
    rcases List.mem_append.mp hm with hfrozen | hactive
    · rcases List.mem_append.mp hfrozen with hin | hnew
      · exact hold m (List.mem_append_left _ hin) y hy
      · rw [List.mem_singleton.mp hnew] at hy
        exact hold _ (List.mem_append_right _ List.mem_cons_self) y hy
    · rw [List.mem_singleton.mp hactive] at hy
      cases hy
  · intro m hm
    rcases List.mem_append.mp hm with hin | hnew
    · exact h.counted m hin
    · rw [List.mem_singleton.mp hnew]
      exact hcount

theorem Kept.written (h : Kept e) (key value : Bytes) (isTombstone : Bool) (kv : KVCache) :
    Kept { e.written key value isTombstone with kvCache := kv } := by
  obtain ⟨hin, hcount⟩ := h.inserted key value isTombstone
  have hwritten : Kept (e.written key value isTombstone) := by
    rw [written_eq, freezeIfFull]
    split
    · exact hin.rotate hcount
    · exact hin
  exact ⟨hwritten.settled, hwritten.listed, hwritten.quiet, hwritten.plain, hwritten.unfrozen, hwritten.active,
    hwritten.counted⟩

/-- The memtable that the flush worker has taken lies between the files and the memtables that stay. -/
structure Popped (e : Engine) (m : MemTable) : Prop where
  running : Running e
  kept : Kept e
  visible : ∀ x ∈ m.entries, x.timestamp ≤ e.globalTs
  older : ∀ m' ∈ e.memtables, Older m.entries m'.entries
  newer : ∀ n f, e.files n = some f → Older f.entries m.entries

variable {m : MemTable} {rest : List MemTable}

theorem Sound.pop (h : Sound e) (hfrozen : e.frozenMemtables = m :: rest) :
    Popped { e with frozenMemtables := rest } m ∧ m.entryCount ≠ 0 := by
  obtain ⟨hrecent, hm, hrest⟩ := h.running.recent.popped hfrozen
  have hin : ∀ m' ∈ m :: rest, m'.entryCount ≠ 0 := fun m' hm' => h.kept.counted m' (hfrozen ▸ hm')
  refine ⟨⟨⟨h.running.filed.congr rfl, h.running.keyed.congr rfl, hrecent⟩, ?_,
    h.running.recent.memtablesVisible m hm, fun m' hm' => (hrest m' hm').2, ?_⟩, hin m List.mem_cons_self⟩
  · refine ⟨?_, h.kept.listed, h.kept.quiet, h.kept.plain, h.kept.unfrozen, h.kept.active,
      fun m' hm' => hin m' (List.mem_cons_of_mem m hm')⟩
    intro n f hf
    obtain ⟨hlt, hentries⟩ := h.kept.settled n f hf
    refine ⟨hlt, ?_⟩
    intro x hx
    exact ⟨(hentries x hx).1, fun m' hm' => (hentries x hx).2 m' (hrest m' hm').1⟩
  · intro n f hf x hx
    exact ((h.kept.settled n f hf).2 x hx).2 m hm

/-- A flush, complete or not, may leave a file of the memtable under its number. -/
theorem Popped.settled (h : Popped e m) (hseq : e'.sstableSeq = e.sstableSeq + 1) (hts : e'.globalTs = e.globalTs)
    (hmem : e'.memtables = e.memtables)
    (hfiles : ∀ n f, e'.files n = some f → e.files n = some f ∨
      (n = e.sstableSeq ∧ ∀ x ∈ f.entries, x ∈ m.entries)) : Settled e' := by
  intro n f hf
  rw [hseq, hts, hmem]
  rcases hfiles n f hf with hold | ⟨rfl, hnew⟩
  · obtain ⟨hlt, hentries⟩ := h.kept.settled n f hold
    exact ⟨Nat.lt_succ_of_lt hlt, hentries⟩
  · refine ⟨Nat.lt_succ_self _, ?_⟩
    intro x hx
    exact ⟨h.visible x (hnew x hx), fun m' hm' => h.older m' hm' x (hnew x hx)⟩

theorem Popped.doFlush (h : Popped e m) (hcount : m.entryCount ≠ 0) : Sound (e.doFlush m) := by
  have hrecent := h.running.recent.doFlush h.running.filed h.visible h.older ?_
  · refine ⟨⟨h.running.filed.doFlush m, h.running.keyed.doFlush h.running.filed m, hrecent⟩, ?_⟩
    rcases e.doFlush_cases m with ⟨hzero, -⟩ | ⟨-, md, cache, hmd, heq⟩
    · exact absurd hzero hcount
    · rw [heq]
      refine ⟨?_, ?_, h.kept.quiet, h.kept.plain, h.kept.unfrozen, h.kept.active, h.kept.counted⟩
      · refine h.settled rfl rfl rfl ?_
        intro n f hf
        by_cases hn : n = e.sstableSeq
        · have hnew : some (e.flushFile m) = some f := (if_pos hn).symm.trans hf
          cases hnew
          exact .inr ⟨hn, e.flushFile_subset m⟩
        · exact .inl ((if_neg hn).symm.trans hf)
      · intro md' hmd'
        have hmd'' : md' ∈ Manifest.added (Manifest.addSSTable e.manifest e.sstableSeq md) := hmd'
        rw [Manifest.added_addSSTable, List.mem_append, List.mem_singleton] at hmd''
        rcases hmd'' with hold | rfl
        · exact Nat.lt_succ_of_lt (h.kept.listed md' hold)
        · exact Nat.lt_succ_of_le (Nat.le_of_eq hmd.filepath)
  · intro md hmd
    obtain ⟨f, hf⟩ := h.running.filed.files md hmd
    rw [tableEntries, hf]
    exact h.newer md.filepath f hf

/-- A flush that has taken its number and may have written its file and cached its blocks. -/
structure Reserved (e e' : Engine) : Prop where
  sstableSeq : e'.sstableSeq = e.sstableSeq + 1
  catalogue : e'.sstableMetadata = e.sstableMetadata
  pendingGc : e'.pendingGc = e.pendingGc
  files : ∀ n, n ≠ e.sstableSeq → e'.files n = e.files n
  cache : ∀ c' ∈ e'.sstCache, ∃ c ∈ e.sstCache, SSTableCache.SameBut e.sstableSeq c c'

theorem Reserved.filed (h : Reserved e e') (hf : Filed e) : Filed e' := by
  have hbelow : ∀ md ∈ e.sstableMetadata, e'.files md.filepath = e.files md.filepath :=
    fun md hmd => h.files _ (Nat.ne_of_lt (hf.below md hmd))
  refine ⟨?_, ?_, ?_, ?_⟩
  · rw [h.catalogue]
    exact hf.nodup
  · rw [h.catalogue, h.sstableSeq]
    exact fun md hmd => Nat.lt_succ_of_lt (hf.below md hmd)
  · rw [h.catalogue]
    intro md hmd
    rw [hbelow md hmd]
    exact hf.files md hmd
  · rw [h.catalogue, h.pendingGc, h.sstableSeq]
    exact fun p hp => ⟨Nat.lt_succ_of_lt (hf.garbage p hp).1, (hf.garbage p hp).2⟩

theorem Reserved.keyed (h : Reserved e e') (hf : Filed e) (hk : Keyed (· ≠ 0) e) : Keyed (· ≠ 0) e' := by
  refine ⟨?_, ?_, ?_, fun hzero => absurd rfl hzero, ?_⟩
  · rw [h.catalogue]
    exact hk.distinct
  · rw [h.catalogue, h.sstableSeq]
    exact fun md hmd => Nat.lt_succ_of_lt (hk.below md hmd)
  · intro c' hc' seq hcaches
    obtain ⟨c, hc, hsame⟩ := h.cache c' hc'
    rw [h.sstableSeq]
    by_cases hseq : seq = e.sstableSeq
    · omega
    · exact Nat.lt_succ_of_lt (hk.cached c hc seq (hsame.caches hseq hcaches))
  · rw [h.catalogue]
    intro c' hc' md hmd hQ f hfile
    obtain ⟨c, hc, hsame⟩ := h.cache c' hc'
    rw [h.files _ (Nat.ne_of_lt (hf.below md hmd))] at hfile
    exact hsame.agrees (Nat.ne_of_lt (hk.below md hmd)) (hk.agrees c hc md hmd hQ f hfile)

theorem reserved_throw (e : Engine) (m : MemTable) {stage : FlushStep} (hstage : stage ≠ .manifest) :
    Reserved e (doFlushThrow e m stage) := by
  cases stage with
  | write => exact ⟨rfl, rfl, rfl, fun _ hn => if_neg hn, fun c hc => ⟨c, hc, SSTableCache.SameBut.refl _ c⟩⟩
  | readMetadata =>
    refine ⟨rfl, rfl, rfl, fun _ hn => if_neg hn, ?_⟩
    intro c' hc'
    obtain ⟨c, hc, rfl⟩ := Option.mem_map.mp hc'
    exact ⟨c, hc, SSTableCache.putBlocks_sameBut c _ _ _⟩
  | manifest => exact absurd rfl hstage

theorem Reserved.tableEntries (h : Reserved e e') (hf : Filed e) {md : Metadata} (hmd : md ∈ e.sstableMetadata) :
    e'.tableEntries md = e.tableEntries md :=
  tableEntries_congr (h.files _ (Nat.ne_of_lt (hf.below md hmd)))

theorem throw_files (e : Engine) (m : MemTable) (stage : FlushStep) (hstage : stage ≠ .manifest) (n : ℕ)
    (f : SSTableFile) (hf : (doFlushThrow e m stage).files n = some f) :
    e.files n = some f ∨ (n = e.sstableSeq ∧ ∀ x ∈ f.entries, x ∈ m.entries) := by
  by_cases hn : n = e.sstableSeq
  · cases stage with
    | write =>
      have hnone : none = some f := (if_pos hn).symm.trans hf
      cases hnone
    | readMetadata =>
      have hnew : some (e.flushFile m) = some f := (if_pos hn).symm.trans hf
      cases hnew
      exact .inr ⟨hn, e.flushFile_subset m⟩
    | manifest => exact absurd rfl hstage
  · rw [(reserved_throw e m hstage).files n hn] at hf
    exact .inl hf

theorem Popped.throw (h : Popped e m) (hcount : m.entryCount ≠ 0) (stage : FlushStep) :
    Sound (doFlushThrow e m stage) := by
  by_cases hstage : stage = .manifest
  · subst hstage
    obtain ⟨hrunning, hkept⟩ := h.doFlush hcount
    refine ⟨⟨hrunning.filed.congr rfl, hrunning.keyed.congr rfl, hrunning.recent.congr rfl rfl rfl fun _ _ => rfl⟩, ?_⟩
    refine ⟨hkept.settled, ?_, hkept.quiet, hkept.plain, hkept.unfrozen, hkept.active, hkept.counted⟩
    intro md hmd
    rcases e.doFlush_cases m with ⟨hzero, -⟩ | ⟨-, md', cache, -, heq⟩
    · exact absurd hzero hcount
    · show md.filepath < (e.doFlush m).sstableSeq
      rw [heq]
      exact Nat.lt_succ_of_lt (h.kept.listed md hmd)
  · have hreserved := reserved_throw e m hstage
    have hframe : (doFlushThrow e m stage).memtables = e.memtables ∧ (doFlushThrow e m stage).globalTs = e.globalTs ∧
        (doFlushThrow e m stage).manifest = e.manifest ∧ (doFlushThrow e m stage).wal = e.wal ∧
        (doFlushThrow e m stage).batchInProgress = e.batchInProgress ∧
        (doFlushThrow e m stage).activeMemtable = e.activeMemtable ∧
        (doFlushThrow e m stage).frozenMemtables = e.frozenMemtables := by
      cases stage with
      | write => exact ⟨rfl, rfl, rfl, rfl, rfl, rfl, rfl⟩
      | readMetadata => exact ⟨rfl, rfl, rfl, rfl, rfl, rfl, rfl⟩
      | manifest => exact absurd rfl hstage
    obtain ⟨hmem, hts, hmanifest, hwal, hbatch, hactive, hfrozen⟩ := hframe
    refine ⟨⟨hreserved.filed h.running.filed, hreserved.keyed h.running.filed h.running.keyed, ?_⟩, ?_⟩
    · exact h.running.recent.congr hmem hts hreserved.catalogue
        fun md hmd => hreserved.tableEntries h.running.filed hmd
    · refine ⟨h.settled hreserved.sstableSeq hts hmem (throw_files e m stage hstage), ?_, ?_, ?_, ?_, ?_, ?_⟩
      · rw [hmanifest, hreserved.sstableSeq]
        exact fun md hmd => Nat.lt_succ_of_lt (h.kept.listed md hmd)
      · rw [hbatch]
        exact h.kept.quiet
      · rw [hwal]
        exact h.kept.plain
      · rw [hactive]
        exact h.kept.unfrozen
      · rw [hactive]
        exact h.kept.active
      · rw [hfrozen]
        exact h.kept.counted

theorem Sound.flushThrow (h : Sound e) (stage : FlushStep) : Sound (flushWorkerThrow e stage) := by
  unfold flushWorkerThrow
  split
  · exact h
  · next m rest hfrozen =>
    obtain ⟨hpopped, hcount⟩ := h.pop hfrozen
    simp only [Nat.pos_of_ne_zero hcount, if_true]
    exact hpopped.throw hcount stage

/-! ## The calls -/

/-- A file after a compaction was there before or is the file of an output. -/
theorem compactLevel_file {fromLevel topLevel n : ℕ} {f : SSTableFile}
    (hwork : e.nothingToCompact fromLevel topLevel = false)
    (hf : (e.compactLevel fromLevel topLevel).files n = some f) :
    e.files n = some f ∨ ∃ md ∈ (e.runCompact fromLevel topLevel).outputs, md.filepath = n := by
  by_cases hin : n ∈ (e.runCompact fromLevel topLevel).files.map Prod.fst
  · obtain ⟨p, hp, rfl⟩ := List.mem_map.mp hin
    obtain ⟨md, hmd, hpath⟩ := List.mem_map.mp
      ((Compaction.compact_numbers (e.compactionJob fromLevel topLevel)).1 p hp)
    exact .inr ⟨md, hmd, hpath⟩
  · rw [compactLevel_eq e fromLevel topLevel hwork] at hf
    exact .inl ((writeOutputs_files_of_notMem e _ n hin).symm.trans hf)

theorem Settled.compactLevel (h : Settled e) (hf : Filed e) (hk : Keyed (· ≠ 0) e) {fromLevel topLevel : ℕ}
    (hwork : e.nothingToCompact fromLevel topLevel = false) : Settled (e.compactLevel fromLevel topLevel) := by
  have hseq := compactLevel_sstableSeq e fromLevel topLevel hwork
  intro n f hfile
  rw [globalTs_compactLevel, memtables_compactLevel]
  rcases compactLevel_file hwork hfile with hold | ⟨md, hmd, rfl⟩
  · obtain ⟨hlt, hentries⟩ := h n f hold
    exact ⟨by omega, hentries⟩
  · have hrange := output_ge hmd
    refine ⟨by omega, ?_⟩
    intro x hx
    have hin : x ∈ (e.compactLevel fromLevel topLevel).tableEntries md := by
      rw [tableEntries, hfile]
      exact hx
    obtain ⟨-, i, hi, hxi⟩ := mem_output hf hk hwork hmd hin
    obtain ⟨g, hg⟩ := hf.files i ((mem_compactionInputs e fromLevel topLevel i).mp hi).1
    rw [tableEntries, hg] at hxi
    exact (h i.filepath g hg).2 x hxi

theorem Kept.compactLevel (h : Kept e) (hf : Filed e) (hk : Keyed (· ≠ 0) e) (fromLevel topLevel : ℕ) :
    Kept (e.compactLevel fromLevel topLevel) := by
  by_cases hwork : e.nothingToCompact fromLevel topLevel = true
  · rw [compactLevel_of_nothing e fromLevel topLevel hwork]
    exact h
  · rw [Bool.not_eq_true] at hwork
    have hseq := compactLevel_sstableSeq e fromLevel topLevel hwork
    have hmanifest := compactLevel_manifest e fromLevel topLevel hwork
    have hsettled := h.settled.compactLevel hf hk hwork
    refine ⟨hsettled, ?_, ?_, ?_, ?_, ?_, ?_⟩
    · intro md hmd
      rw [hmanifest, compactionRecords, Manifest.added_append, Manifest.added_append,
        Manifest.added_addRecords (fun p : Metadata × ℕ => (p.2, p.1)), List.mem_append, List.mem_append] at hmd
      rcases hmd with (hold | hremoved) | hnew
      · exact Nat.lt_of_lt_of_le (h.listed md hold) (by omega)
      · rw [Manifest.added_removals] at hremoved
        cases hremoved
      · obtain ⟨p, hp, rfl⟩ := List.mem_map.mp hnew
        have hrange := output_ge (List.fst_mem_of_mem_zipIdx hp)
        show p.1.filepath < _
        omega
    all_goals rw [compactLevel_eq e fromLevel topLevel hwork]
    · exact h.quiet
    · exact h.plain
    · exact h.unfrozen
    · exact h.active
    · exact h.counted

theorem Kept.drainFileGC (h : Kept e) (ts : ℕ) : Kept (e.drainFileGC ts) := by
  refine ⟨?_, h.listed, h.quiet, h.plain, h.unfrozen, h.active, h.counted⟩
  intro n f hf
  apply h.settled n f
  have hfile : (if (e.pendingGc.filter fun p => decide (p.fenceTs ≤ ts)).any fun p => decide (p.filepath = n)
      then none else e.files n) = some f := hf
  split at hfile
  · cases hfile
  · exact hfile

theorem writeCheckpoint_log (e : Engine) : e.writeCheckpoint.wal.log =
    e.wal.log ++ [.checkpoint e.globalTs (if e.batchInProgress then e.batchTs else 0)] :=
  ReopenedClock.log_append e.wal _ _

theorem Kept.writeCheckpoint (h : Kept e) : Kept e.writeCheckpoint := by
  refine ⟨h.settled, h.listed, h.quiet, ?_, h.unfrozen, h.active, h.counted⟩
  intro r hr
  rw [writeCheckpoint_log, h.quiet] at hr
  rcases List.mem_append.mp hr with hold | hnew
  · exact h.plain r hold
  · rw [List.mem_singleton.mp hnew]
    exact rfl

theorem Sound.flushWorker (h : Sound e) : Kept e.flushWorker := by
  unfold Engine.flushWorker
  split
  · exact h.kept
  · next m rest hfrozen =>
    obtain ⟨hpopped, hcount⟩ := h.pop hfrozen
    simp only [Nat.pos_of_ne_zero hcount, if_true]
    exact (hpopped.doFlush hcount).kept.writeCheckpoint

theorem Kept.withCaches (h : Kept e) (kv : KVCache) (cache : Option SSTableCache) :
    Kept { e with kvCache := kv, sstCache := cache } :=
  ⟨h.settled, h.listed, h.quiet, h.plain, h.unfrozen, h.active, h.counted⟩

theorem Sound.call (h : Sound e) {c : Calls.Call} (hs : Calls.step e c = some e') : Sound e' := by
  refine ⟨h.running.step hs, ?_⟩
  refine Calls.step_rule hs h.kept ?_ ?_ h.flushWorker ?_ ?_ ?_ ?_
  · exact fun w kv _ _ => h.kept.written w.key w.value w.isTombstone kv
  · exact fun hcount => h.kept.rotate hcount
  · exact fun bottom top _ => h.kept.compactLevel h.running.filed h.running.keyed bottom top
  · exact fun _ ts h1 => h1.drainFileGC ts
  · intro key readTs
    obtain ⟨kv, cache, heq, -⟩ := e.lookupAt_eq key readTs
    rw [heq]
    exact h.kept.withCaches kv cache
  · exact fun _ _ => h.kept.withCaches e.kvCache _

theorem Sound.sync (h : Sound e) (force : Bool) : Sound (e.syncWorker force) := by
  refine ⟨⟨h.running.filed.congr rfl, h.running.keyed.congr rfl, h.running.recent.congr rfl rfl rfl fun _ _ => rfl⟩, ?_⟩
  refine ⟨h.kept.settled, h.kept.listed, h.kept.quiet, ?_, h.kept.unfrozen, h.kept.active, h.kept.counted⟩
  intro r hr
  have hlog : (e.syncWorker force).wal.log = e.wal.log := (WAL.sync_log e.wal force).1
  rw [hlog] at hr
  exact h.kept.plain r hr

/-! ## Every run -/

/-- A batch call, as the engine alone makes it. -/
def batchCall : Action → Option BatchIsolation.Action
  | .startBatch => some .startBatch
  | .batchInsert key value => some (.batchInsert key value)
  | .batchDelete key => some (.batchDelete key)
  | .commitBatchAsync => some .commitBatchAsync
  | .commitBatchFinalize => some .commitBatchFinalize
  | .abortBatch => some .abortBatch
  | _ => none

theorem batchCall_step {a : Action} {b : BatchIsolation.Action} (ha : batchCall a = some b)
    (hs : step e a = some e') : ∃ t, BatchIsolation.step ⟨e, []⟩ b = some t ∧ t.engine = e' := by
  cases a with
  | call c => cases ha
  | sync force => cases ha
  | flushThrow stage => cases ha
  | startBatch =>
    cases ha
    cases hs
    exact ⟨_, rfl, rfl⟩
  | commitBatchAsync =>
    cases ha
    cases hs
    exact ⟨_, rfl, rfl⟩
  | commitBatchFinalize =>
    cases ha
    cases hs
    exact ⟨_, rfl, rfl⟩
  | abortBatch =>
    cases ha
    cases hs
    exact ⟨_, rfl, rfl⟩
  | batchInsert key value =>
    cases ha
    have hret : Calls.returnedEngine (e.batchInsert key value) = some e' := by
      simp only [step] at hs
      split at hs
      · exact hs
      · cases hs
    obtain ⟨n, hret⟩ := Calls.returnedEngine_eq_some hret
    exact ⟨_, by rw [BatchIsolation.step, hret]; rfl, rfl⟩
  | batchDelete key =>
    cases ha
    have hret : Calls.returnedEngine (e.batchDelete key) = some e' := by
      simp only [step] at hs
      split at hs
      · exact hs
      · cases hs
    obtain ⟨n, hret⟩ := Calls.returnedEngine_eq_some hret
    exact ⟨_, by rw [BatchIsolation.step, hret]; rfl, rfl⟩

theorem flushThrow_wal (e : Engine) (stage : FlushStep) : (flushWorkerThrow e stage).wal = e.wal := by
  unfold flushWorkerThrow
  split
  · rfl
  · next m rest hfrozen =>
    simp only []
    split
    · cases stage with
      | write => rfl
      | readMetadata => rfl
      | manifest => exact doFlush_wal _ m
    · rfl

theorem call_log {c : Calls.Call} (hs : Calls.step e c = some e') : ∃ rs, e'.wal.log = e.wal.log ++ rs := by
  have hkeep : ∀ e1 : Engine, e1.wal = e.wal → ∃ rs, e1.wal.log = e.wal.log ++ rs :=
    fun e1 h1 => ⟨[], by rw [h1, List.append_nil]⟩
  refine Calls.step_rule (P := fun e1 => ∃ rs, e1.wal.log = e.wal.log ++ rs) hs (hkeep e rfl) ?_
    (fun _ => hkeep _ rfl) ?_ ?_ (fun _ _ h1 => h1) ?_ fun _ _ => hkeep _ rfl
  · intro w kv _ _
    have hwal : (e.written w.key w.value w.isTombstone).wal = e.wal.buffer w.key w.value (e.globalTs + 1) :=
      congrArg Prod.fst (ReopenedClock.logged_applyWrite e.tick w.key w.value w.isTombstone (e.globalTs + 1))
    refine ⟨[.entry w.key w.value (e.globalTs + 1)], ?_⟩
    show (e.written w.key w.value w.isTombstone).wal.log = _
    rw [hwal]
    exact ReopenedClock.log_append e.wal _ _
  · unfold Engine.flushWorker
    split
    · exact hkeep e rfl
    · next m rest hfrozen =>
      simp only []
      split
      · have hwal : ({ e with frozenMemtables := rest }.doFlush m).wal = e.wal := doFlush_wal _ m
        have hlog := writeCheckpoint_log ({ e with frozenMemtables := rest }.doFlush m)
        rw [hwal] at hlog
        exact ⟨_, hlog⟩
      · exact hkeep _ rfl
  · exact fun bottom top _ => hkeep _ (compactLevel_keeps Engine.wal e bottom top fun _ _ _ _ _ _ => rfl)
  · exact fun key readTs => hkeep _ (ReopenedClock.lookupAt_keeps Engine.wal e key readTs fun _ _ => rfl)

theorem log_grows {a : Action} (hs : step e a = some e') : ∃ rs, e'.wal.log = e.wal.log ++ rs := by
  cases hb : batchCall a with
  | some b =>
    obtain ⟨t, ht, rfl⟩ := batchCall_step hb hs
    obtain ⟨rs, hlog, -⟩ := ReopenedClock.call_log ht
    exact ⟨rs, hlog⟩
  | none =>
    cases a with
    | call c => exact call_log hs
    | sync force =>
      cases hs
      exact ⟨[], (WAL.sync_log e.wal force).1.trans (List.append_nil _).symm⟩
    | flushThrow stage =>
      cases hs
      exact ⟨[], by rw [flushThrow_wal, List.append_nil]⟩
    | startBatch => cases hb
    | batchInsert key value => cases hb
    | batchDelete key => cases hb
    | commitBatchAsync => cases hb
    | commitBatchFinalize => cases hb
    | abortBatch => cases hb

theorem tables_applyWrite (e : Engine) (key value : Bytes) (isTombstone : Bool) (ts : ℕ) :
    tables (e.applyWrite key value isTombstone ts) = e.tables := by
  rw [Engine.applyWrite, freezeIfFull]
  split <;> rfl

theorem filed_batch (h : Filed e) {b : BatchIsolation.Action} {t : BatchIsolation.State} {a : Action}
    (ha : batchCall a = some b) (hs : BatchIsolation.step ⟨e, []⟩ b = some t) : Filed t.engine := by
  cases a with
  | call c => cases ha
  | sync force => cases ha
  | flushThrow stage => cases ha
  | startBatch =>
    cases ha
    cases hs
    unfold Engine.startBatch
    split <;> exact h.congr rfl
  | batchInsert key value =>
    cases ha
    obtain ⟨e1, n, hret, rfl⟩ := BatchIsolation.afterWrite_eq_some hs
    rw [BatchIsolation.batchInsert_returned hret]
    exact h.congr (tables_applyWrite _ _ _ _ _)
  | batchDelete key =>
    cases ha
    obtain ⟨e1, n, hret, rfl⟩ := BatchIsolation.afterWrite_eq_some hs
    rw [BatchIsolation.batchDelete_returned hret]
    exact h.congr (tables_applyWrite _ _ _ _ _)
  | commitBatchAsync =>
    cases ha
    cases hs
    unfold Engine.commitBatchAsync
    split <;> exact h.congr rfl
  | commitBatchFinalize =>
    cases ha
    cases hs
    unfold Engine.commitBatchFinalize
    split <;> exact h.congr rfl
  | abortBatch =>
    cases ha
    cases hs
    unfold Engine.abortBatch
    split
    · split
      · refine Filed.relabel (g := fun md => { md with abortedBatchTs := e.batchTs :: md.abortedBatchTs }) h
          (fun _ => rfl) rfl rfl rfl rfl
      · exact h.congr rfl
    · exact h

theorem filed_throw (h : Filed e) (stage : FlushStep) : Filed (flushWorkerThrow e stage) := by
  unfold flushWorkerThrow
  split
  · exact h
  · next m rest hfrozen =>
    have hpopped : Filed { e with frozenMemtables := rest } := h.congr rfl
    simp only []
    split
    · by_cases hstage : stage = .manifest
      · subst hstage
        exact (hpopped.doFlush m).congr rfl
      · exact (reserved_throw _ m hstage).filed hpopped
    · exact hpopped

/-- What every run keeps: the catalogue has its files, and without a batch in the log nothing is out of order. -/
structure Inv (e : Engine) : Prop where
  filed : Filed e
  sound : Unmarked e.wal.log → Sound e

theorem Sound.quiet_batch (h : Sound e) {a : Action} {b : BatchIsolation.Action} (ha : batchCall a = some b)
    (hs : step e a = some e') (hunmarked : Unmarked e'.wal.log) : e' = e := by
  have hquiet := h.kept.quiet
  cases a with
  | call c => cases ha
  | sync force => cases ha
  | flushThrow stage => cases ha
  | startBatch =>
    cases hs
    simp only [Engine.startBatch, hquiet, Bool.false_eq_true, if_false] at hunmarked
    have hmark := hunmarked (.batchBegin ((e.globalTs + e.cfg.batchIncrementGap) % 2 ^ 64)) (by
      simp [WAL.log, WAL.bufferBatchBegin])
    cases hmark
  | batchInsert key value =>
    simp only [step, hquiet, Bool.false_eq_true, if_false] at hs
    cases hs
  | batchDelete key =>
    simp only [step, hquiet, Bool.false_eq_true, if_false] at hs
    cases hs
  | commitBatchAsync =>
    cases hs
    simp only [Engine.commitBatchAsync, hquiet, Bool.false_eq_true, if_false]
  | commitBatchFinalize =>
    cases hs
    simp only [Engine.commitBatchFinalize, hquiet, Bool.false_and, Bool.false_eq_true, if_false]
  | abortBatch =>
    cases hs
    simp only [Engine.abortBatch, hquiet, Bool.false_eq_true, if_false]

theorem Inv.step (h : Inv e) {a : Action} (hs : FlushFailure.step e a = some e') : Inv e' := by
  obtain ⟨rs, hlog⟩ := log_grows hs
  have hbefore : Unmarked e'.wal.log → Sound e := by
    intro hunmarked
    rw [hlog] at hunmarked
    exact h.sound (ReopenedClock.unmarked_left hunmarked)
  cases hb : batchCall a with
  | some b =>
    obtain ⟨t, ht, rfl⟩ := batchCall_step hb hs
    refine ⟨filed_batch h.filed hb ht, ?_⟩
    intro hunmarked
    rw [(hbefore hunmarked).quiet_batch hb hs hunmarked]
    exact hbefore hunmarked
  | none =>
    cases a with
    | call c => exact ⟨h.filed.step hs, fun hunmarked => (hbefore hunmarked).call hs⟩
    | sync force =>
      cases hs
      exact ⟨h.filed.congr rfl, fun hunmarked => (hbefore hunmarked).sync force⟩
    | flushThrow stage =>
      cases hs
      exact ⟨filed_throw h.filed stage, fun hunmarked => (hbefore hunmarked).flushThrow stage⟩
    | startBatch => cases hb
    | batchInsert key value => cases hb
    | batchDelete key => cases hb
    | commitBatchAsync => cases hb
    | commitBatchFinalize => cases hb
    | abortBatch => cases hb

theorem run_inv (cfg : EngineConfig) {acts : List Action} (hrun : Run step anyStep (create cfg) acts e) : Inv e :=
  Run.invariant (fun _ _ _ _ hs h => Inv.step h hs) hrun ⟨create_filed cfg, fun _ => sound_create cfg⟩

/-! ## The version is gone at once -/

theorem stored_throw (hf : Filed e) (hfrozen : e.frozenMemtables = m :: rest) {stage : FlushStep}
    (hstage : stage ≠ .manifest) (w : KeyValuePair) :
    Stored (flushWorkerThrow e stage) w ↔ Stored { e with frozenMemtables := rest } w := by
  have hpopped : Filed { e with frozenMemtables := rest } := hf.congr rfl
  have hreserved := reserved_throw { e with frozenMemtables := rest } m hstage
  have hmem : (doFlushThrow { e with frozenMemtables := rest } m stage).memtables =
      ({ e with frozenMemtables := rest } : Engine).memtables := by
    cases stage with
    | write => rfl
    | readMetadata => rfl
    | manifest => exact absurd rfl hstage
  simp only [flushWorkerThrow, hfrozen]
  split
  · rw [Stored, hmem, hreserved.catalogue]
    refine or_congr Iff.rfl (exists_congr fun md => and_congr_right fun hmd => ?_)
    rw [hreserved.tableEntries hpopped hmd]
  · exact Iff.rfl

theorem Popped.not_stored (h : Popped e m) {w : KeyValuePair} (hw : w ∈ m.entries) : ¬ Stored e w := by
  intro hstored
  rcases hstored with ⟨m', hm', hin⟩ | ⟨md, hmd, hin⟩
  · exact Nat.lt_irrefl _ (h.older m' hm' w hw w hin)
  · obtain ⟨f, hf⟩ := h.running.filed.files md hmd
    rw [tableEntries, hf] at hin
    exact Nat.lt_irrefl _ (h.newer md.filepath f hf w hin w hw)

/-! ## The version is gone after the next checkpoint -/

/-- No version under the timestamp is left in memory or in a table of the MANIFEST. -/
structure Lost (t : ℕ) (e : Engine) : Prop where
  past : t ≤ e.globalTs
  memtables : ∀ m ∈ e.memtables, ∀ x ∈ m.entries, x.timestamp ≠ t
  listed : ∀ md ∈ Manifest.added e.manifest, md.filepath < e.sstableSeq ∧ ∀ x ∈ e.tableEntries md, x.timestamp ≠ t

theorem Popped.lost (h : Popped e m) {w : KeyValuePair} (hw : w ∈ m.entries) :
    Lost w.timestamp (doFlushThrow e m .manifest) := by
  have hmem : (doFlushThrow e m .manifest).memtables = e.memtables := by
    show (e.doFlush m).frozenMemtables ++ [(e.doFlush m).activeMemtable] = _
    rw [doFlush_frozenMemtables, doFlush_activeMemtable]
    rfl
  have hts : (doFlushThrow e m .manifest).globalTs = e.globalTs :=
    doFlush_keeps Engine.globalTs e m fun _ _ => rfl
  have hfiles : e.sstableSeq ≤ (e.doFlush m).sstableSeq ∧
      ∀ n, n < e.sstableSeq → (e.doFlush m).files n = e.files n := by
    rcases e.doFlush_cases m with ⟨-, heq⟩ | ⟨-, md, cache, -, heq⟩
    · rw [heq]
      exact ⟨Nat.le_refl _, fun _ _ => rfl⟩
    · rw [heq]
      exact ⟨Nat.le_succ _, fun n hn => if_neg (Nat.ne_of_lt hn)⟩
  refine ⟨hts ▸ h.visible w hw, ?_, ?_⟩
  · rw [hmem]
    exact fun m' hm' x hx => Nat.ne_of_gt (h.older m' hm' w hw x hx)
  · intro md hmd
    have hpath := h.kept.listed md hmd
    refine ⟨Nat.lt_of_lt_of_le hpath hfiles.1, ?_⟩
    intro x hx
    have hsame : (doFlushThrow e m .manifest).tableEntries md = e.tableEntries md :=
      tableEntries_congr (hfiles.2 md.filepath hpath)
    rw [hsame, tableEntries] at hx
    cases hfile : e.files md.filepath with
    | none =>
      rw [hfile] at hx
      cases hx
    | some f =>
      rw [hfile] at hx
      exact Nat.ne_of_lt (h.newer md.filepath f hfile x hx w hw)

variable {t : ℕ}

theorem Lost.rotate (h : Lost t e) : Lost t e.rotate := by
  refine ⟨h.past, ?_, h.listed⟩
  intro m hm x hx
  rcases List.mem_append.mp hm with hfrozen | hactive
  · rcases List.mem_append.mp hfrozen with hin | hnew
    · exact h.memtables m (List.mem_append_left _ hin) x hx
    · rw [List.mem_singleton.mp hnew] at hx
      exact h.memtables _ (List.mem_append_right _ List.mem_cons_self) x hx
  · rw [List.mem_singleton.mp hactive] at hx
    cases hx

theorem Lost.written (h : Lost t e) (key value : Bytes) (isTombstone : Bool) (kv : KVCache) :
    Lost t { e.written key value isTombstone with kvCache := kv } := by
  refine written_rule kv ?_ (fun _ h1 => h1.rotate) fun _ _ h1 => ⟨h1.past, h1.memtables, h1.listed⟩
  refine ⟨Nat.le_succ_of_le h.past, ?_, h.listed⟩
  intro m hm x hx
  rcases List.mem_append.mp hm with hfrozen | hactive
  · exact h.memtables m (List.mem_append_left _ hfrozen) x hx
  · rw [List.mem_singleton.mp hactive] at hx
    rcases MemTable.mem_insert hx with rfl | hin
    · exact Nat.ne_of_gt (Nat.lt_succ_of_le h.past)
    · exact h.memtables _ (List.mem_append_right _ List.mem_cons_self) x hin

theorem Lost.doFlush (h : Lost t e) (hm : ∀ x ∈ m.entries, x.timestamp ≠ t) : Lost t (e.doFlush m) := by
  rcases e.doFlush_cases m with ⟨-, heq⟩ | ⟨-, md, cache, hmd, heq⟩
  · rw [heq]
    exact h
  · rw [heq]
    refine ⟨h.past, h.memtables, ?_⟩
    intro md' hmd'
    have hin : md' ∈ Manifest.added (Manifest.addSSTable e.manifest e.sstableSeq md) := hmd'
    rw [Manifest.added_addSSTable, List.mem_append, List.mem_singleton] at hin
    rcases hin with hold | rfl
    · obtain ⟨hlt, hentries⟩ := h.listed md' hold
      have hsame : (e.afterFlush m md cache).tableEntries md' = e.tableEntries md' :=
        tableEntries_congr (if_neg (Nat.ne_of_lt hlt))
      refine ⟨Nat.lt_succ_of_lt hlt, ?_⟩
      rw [hsame]
      exact hentries
    · refine ⟨Nat.lt_succ_of_le (Nat.le_of_eq hmd.filepath), ?_⟩
      intro x hx
      have hnew : (e.afterFlush m md cache).tableEntries md = (e.flushFile m).entries := tableEntries_afterFlush_new hmd
      exact hm x (e.flushFile_subset m x (hnew ▸ hx))

theorem Lost.flushWorker (h : Lost t e) : Lost t e.flushWorker := by
  unfold Engine.flushWorker
  split
  · exact h
  · next m rest hfrozen =>
    have hmems : ∀ m' ∈ m :: (rest ++ [e.activeMemtable]), ∀ x ∈ m'.entries, x.timestamp ≠ t := by
      intro m' hm'
      apply h.memtables
      rw [Engine.memtables, hfrozen]
      exact hm'
    have hpopped : Lost t { e with frozenMemtables := rest } :=
      ⟨h.past, fun m' hm' => hmems m' (List.mem_cons_of_mem m hm'), h.listed⟩
    simp only []
    split
    · have hflushed := hpopped.doFlush (hmems m List.mem_cons_self)
      exact ⟨hflushed.past, hflushed.memtables, hflushed.listed⟩
    · exact hpopped

/-- A log that ends in a checkpoint replays nothing. -/
theorem recover_checkpointed {log front : List WalRecord} {ts : ℕ} (hlog : log = front ++ [.checkpoint ts 0])
    (hplain : ∀ r ∈ log, WAL.Plain r) : (WAL.recover log).aborted = [] ∧ (WAL.recover log).entries = [] := by
  refine ⟨(WAL.recover_plain hplain).1, ?_⟩
  rcases WAL.lastCheckpoint_plain log ((0, 0), log) hplain with ⟨-, hnone⟩ | ⟨before, t, after, hsplit, heq, hnone⟩
  · have hlast := hnone (.checkpoint ts 0) (by simp [hlog])
    cases hlast
  · have hafter : after = [] := by
      rcases List.eq_nil_or_concat after with hnil | ⟨rs, r, hconcat⟩
      · exact hnil
      · rw [hlog, hconcat, List.concat_eq_append, ← List.cons_append, ← List.append_assoc] at hsplit
        have hr : r = .checkpoint ts 0 := (List.append_inj_right' hsplit rfl |> List.cons.inj).1.symm
        have hcheck := hnone r (by simp [hconcat])
        rw [hr] at hcheck
        cases hcheck
    simp only [WAL.recover, heq, hafter]
    rfl

/-- Such a directory brings back only the tables of its MANIFEST. -/
theorem construct_checkpointed (cfg : EngineConfig) {d : Directory} {front : List WalRecord} {ts : ℕ}
    (hlog : d.wal = front ++ [.checkpoint ts 0]) (hplain : ∀ r ∈ d.wal, WAL.Plain r) {w : KeyValuePair}
    (hw : Stored (construct cfg d) w) :
    ∃ md ∈ Manifest.added d.manifest, w ∈ ((d.files md.filepath).map SSTableFile.entries).getD [] := by
  obtain ⟨haborted, hentries⟩ := recover_checkpointed hlog hplain
  have hconstruct : construct cfg d = { (openDirectory cfg d).raiseTs (WAL.recover d.wal).checkpointTs with
      sstCache := some SSTableCache.empty } := by
    have hwal : (openDirectory cfg d).wal.file = d.wal := rfl
    simp only [construct, recoverFromWAL, hwal, haborted, hentries, List.foldl_nil, List.isEmpty_nil, if_true]
  rw [hconstruct] at hw
  rcases hw with ⟨m, hm, hin⟩ | ⟨md, hmd, hin⟩
  · rw [List.mem_singleton.mp hm] at hin
    cases hin
  · obtain ⟨md', hmd', rfl⟩ := List.mem_map.mp hmd
    obtain ⟨md'', hmd'', rfl⟩ := List.mem_map.mp hmd'
    have hpath := congrArg Prod.fst (pathLevel_fillMetadata d.files
      { md'' with abortedBatchTs := Manifest.abortedFor d.manifest md'' })
    refine ⟨md'', List.mem_of_mem_filter hmd'', ?_⟩
    rw [tableEntries] at hin
    rw [Manifest.pathLevel, Manifest.pathLevel] at hpath
    have hin' := hin
    simp only [] at hpath
    rw [hpath] at hin'
    exact hin'

theorem Kept.written_busy (h : Kept e) (key value : Bytes) (isTombstone : Bool) :
    (e.written key value isTombstone).frozenMemtables ≠ [] ∨
      (e.written key value isTombstone).activeMemtable.entryCount ≠ 0 := by
  rw [written_eq, freezeIfFull]
  split
  · exact .inl (List.concat_ne_nil _ _)
  · exact .inr (h.inserted key value isTombstone).2

/-- Some calls that succeed lead to a state with a memtable to flush. -/
theorem exists_frozen (h : Sound e) (hlost : Lost t e) :
    ∃ acts e', Run step Succeeds e acts e' ∧ Sound e' ∧ Lost t e' ∧ e'.frozenMemtables ≠ [] := by
  by_cases hfrozen : e.frozenMemtables = []
  · have hinsert : ∃ e1, Calls.step e (.insert [0] [0]) = some e1 ∧ Lost t e1 ∧
        (e1.frozenMemtables ≠ [] ∨ e1.activeMemtable.entryCount ≠ 0) := by
      have hfree : e.takeTimestamp = some (e.globalTs + 1, e.tick) := by
        simp [takeTimestamp, h.kept.quiet]
      have hkey : keyError [0] = none := by decide
      have hpair : pairError [0] [0] = none := by decide
      simp only [Calls.step, Engine.insert, hkey, hpair, hfree]
      exact ⟨_, rfl, hlost.written [0] [0] false _, h.kept.written_busy [0] [0] false⟩
    obtain ⟨e1, hstep, hlost1, hbusy⟩ := hinsert
    have hfirst : Run step Succeeds e [.call (.insert [0] [0])] e1 := .cons trivial hstep (.nil _)
    by_cases hnil : e1.frozenMemtables = []
    · have hrotate : Calls.step e1 .rotate = some e1.rotate := if_neg (hbusy.resolve_left fun hne => hne hnil)
      have hsecond : Run step Succeeds e1 [.call .rotate] e1.rotate := .cons trivial hrotate (.nil _)
      exact ⟨_, _, hfirst.append hsecond, (h.call hstep).call hrotate, hlost1.rotate, List.concat_ne_nil _ _⟩
    · exact ⟨_, _, hfirst, h.call hstep, hlost1, hnil⟩
  · exact ⟨[], e, .nil e, h, hlost, hfrozen⟩

theorem flushWorker_wal_log (h : Sound e) (hfrozen : e.frozenMemtables ≠ []) :
    ∃ ts, e.flushWorker.wal.log = e.wal.log ++ [.checkpoint ts 0] := by
  obtain ⟨m, rest, hfrozen⟩ := List.exists_cons_of_ne_nil hfrozen
  obtain ⟨hpopped, hcount⟩ := h.pop hfrozen
  have hwal : ({ e with frozenMemtables := rest }.doFlush m).wal = e.wal := doFlush_wal _ m
  have hlog := writeCheckpoint_log ({ e with frozenMemtables := rest }.doFlush m)
  rw [(hpopped.doFlush hcount).kept.quiet, hwal] at hlog
  simp only [Engine.flushWorker, hfrozen, Nat.pos_of_ne_zero hcount, if_true]
  exact ⟨_, hlog⟩

/-- The next flush and a sync, then a crash: the version is not recovered. -/
theorem Lost.not_survives (hlost : Lost t e) (h : Sound e) (cfg : EngineConfig) {w : KeyValuePair}
    (hw : w.timestamp = t) : ¬ Survives cfg e w := by
  intro hsurvives
  obtain ⟨acts, e1, hrun, hsound, hlost1, hfrozen⟩ := exists_frozen h hlost
  have hflush : Calls.step e1 .flushWorker = some e1.flushWorker := rfl
  have hlast : Run step Succeeds e1 [.call .flushWorker, .sync true] (e1.flushWorker.syncWorker true) :=
    .cons trivial hflush (.cons trivial rfl (.nil _))
  have hfile : (e1.flushWorker.syncWorker true).wal.file = e1.flushWorker.wal.log := WAL.sync_true_file _
  have hlog : (e1.flushWorker.syncWorker true).wal.log = e1.flushWorker.wal.log := (WAL.sync_log _ true).1
  have hsynced : (e1.flushWorker.syncWorker true).wal.writeBuf = [] := by
    rw [WAL.log, hfile] at hlog
    exact List.append_cancel_left (hlog.trans (List.append_nil _).symm)
  obtain ⟨ts, hcheck⟩ := flushWorker_wal_log hsound hfrozen
  have hkept : Sound e1.flushWorker := hsound.call hflush
  have hstored := (hsurvives _ _ (hrun.append hlast)).2 hsynced
  obtain ⟨md, hmd, hin⟩ := construct_checkpointed cfg (hfile.trans hcheck)
    (fun r hr => hkept.kept.plain r (hfile ▸ hr)) hstored
  exact (hlost1.flushWorker.listed md hmd).2 w hin hw

/-! ## Main results -/

/-- After every run the round that throws drops the memtable. Before the catalogue, the version stays readable exactly
when another memtable or table holds it too. Without a batch in the log none of the versions survives. -/
theorem thrown_flush_loses_versions (cfg cfg' : EngineConfig) (acts : List Action) (e : Engine)
    (hrun : Run step anyStep (create cfg) acts e) (m : MemTable) (rest : List MemTable)
    (hfrozen : e.frozenMemtables = m :: rest) (hcount : m.entryCount ≠ 0) (stage : FlushStep) :
    (stage ≠ .manifest → ∀ w, Stored (flushWorkerThrow e stage) w ↔ Stored { e with frozenMemtables := rest } w) ∧
      (Unmarked e.wal.log →
        ((∀ w ∈ m.entries, Survives cfg' (flushWorkerThrow e stage) w) ↔ m.entries = []) ∧
          ∀ w ∈ m.entries, ¬ Survives cfg' (flushWorkerThrow e stage) w) := by
  have hinv := run_inv cfg hrun
  refine ⟨fun hstage => stored_throw hinv.filed hfrozen hstage, ?_⟩
  intro hunmarked
  obtain ⟨hpopped, -⟩ := (hinv.sound hunmarked).pop hfrozen
  have hlost : ∀ w ∈ m.entries, ¬ Survives cfg' (flushWorkerThrow e stage) w := by
    intro w hw
    by_cases hstage : stage = .manifest
    · subst hstage
      have hthrow : flushWorkerThrow e .manifest = doFlushThrow { e with frozenMemtables := rest } m .manifest := by
        simp only [flushWorkerThrow, hfrozen, Nat.pos_of_ne_zero hcount, if_true]
      rw [hthrow]
      exact (hpopped.lost hw).not_survives (hpopped.throw hcount .manifest) cfg' rfl
    · intro hsurvives
      exact hpopped.not_stored hw ((stored_throw hinv.filed hfrozen hstage w).mp (hsurvives [] _ (.nil _)).1)
  refine ⟨⟨?_, ?_⟩, hlost⟩
  · intro hall
    by_contra hne
    obtain ⟨w, hw⟩ := List.exists_mem_of_ne_nil _ hne
    exact hlost w hw (hall w hw)
  · intro hnil w hw
    rw [hnil] at hw
    cases hw

/-! ## Runs in which a flush throws -/

instance decidableSucceeds (e : Engine) (a : Action) : Decidable (Succeeds e a) :=
  match a with
  | .flushThrow _ => isFalse id
  | .call (.manualCompact _ _ _) => isFalse id
  | .call .compactionWorker => isFalse id
  | .call (.insert _ _) => isTrue trivial
  | .call (.delete _) => isTrue trivial
  | .call .rotate => isTrue trivial
  | .call .flushWorker => isTrue trivial
  | .call (.drainFileGC _) => isTrue trivial
  | .call (.lookup _ _) => isTrue trivial
  | .call (.evict _ _) => isTrue trivial
  | .startBatch => isTrue trivial
  | .batchInsert _ _ => isTrue trivial
  | .batchDelete _ => isTrue trivial
  | .commitBatchAsync => isTrue trivial
  | .commitBatchFinalize => isTrue trivial
  | .abortBatch => isTrue trivial
  | .sync _ => isTrue trivial

/-- One write, in a memtable that is to be flushed. -/
def frozenRun : List Action := [.call (.insert [1] [2]), .call .rotate]

theorem frozenRun_enabled : (checked step anyStep (create smallConfig) frozenRun).isSome = true := by
  decide

def frozenState : Engine := (checked step anyStep (create smallConfig) frozenRun).get frozenRun_enabled

theorem frozenState_front : frozenState.frozenMemtables = [(oneEntry 0 1).freeze] := rfl

theorem thrown_flush_loses_versions_frozenRun :
    (oneEntry 0 1).freeze.entries = [⟨[1], [2], 1, false⟩] ∧
      ∀ stage, ∀ w ∈ (oneEntry 0 1).freeze.entries, ¬ Survives smallConfig (flushWorkerThrow frozenState stage) w := by
  have hrun : Run step anyStep (create smallConfig) frozenRun frozenState := Run.of_isSome _ _ frozenRun_enabled
  have hlog : frozenState.wal.log = [.entry [1] [2] 1] := by decide
  have hunmarked : Unmarked frozenState.wal.log := by
    intro r hr
    rw [hlog, List.mem_singleton] at hr
    rw [hr]
    rfl
  refine ⟨by decide, ?_⟩
  intro stage
  exact ((thrown_flush_loses_versions smallConfig smallConfig frozenRun frozenState hrun _ _ frozenState_front
    (by decide) stage).2 hunmarked).2

/-- Writes of other keys, which take the place of the first one in the key-value cache. -/
def otherWrites : List Action :=
  [.call (.insert [3] [3]), .call (.insert [4] [4]), .call (.insert [5] [5]), .call (.insert [6] [6])]

/-- A later flush with its checkpoint, and a sync. -/
def nextFlush : List Action := [.call (.insert [3] [3]), .call .rotate, .call .flushWorker, .sync true]

/-- The key is found before the flush throws. It is not found after four more writes, and not after the next flush
and a crash. -/
theorem thrown_flush_hides_key :
    Run step anyStep (create smallConfig) frozenRun frozenState ∧ (frozenState.lookup [1]).1 = some [2] ∧
      (∃ t, Run step Succeeds (flushWorkerThrow frozenState .readMetadata) otherWrites t ∧ (t.lookup [1]).1 = none) ∧
      ∃ t, Run step Succeeds (flushWorkerThrow frozenState .manifest) nextFlush t ∧ t.wal.writeBuf = [] ∧
        ((construct smallConfig t.directory).lookup [1]).1 = none ∧
        ((construct smallConfig t.directory).lookup [3]).1 = some [3] :=
  ⟨Run.of_isSome _ _ frozenRun_enabled, by decide, Run.exists_of_checked (by decide),
    Run.exists_of_checked (by decide)⟩

end Kvdb.FlushFailure
