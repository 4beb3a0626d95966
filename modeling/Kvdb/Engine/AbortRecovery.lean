import Kvdb.Engine.BatchIsolation

/-! # Aborted batches across a reopening

`AbortBatch` records a batch in the log, in the MANIFEST with a fence, and in the metadata of every table.
When the engine is reopened the MANIFEST gives each table the batches whose fence is at or above it, the
constructor then replaces that set by the one in the table's file, and the log adds the batches that it
reads as aborted. A table that was flushed before the abort has a file that knows nothing of it. -/
namespace Kvdb.AbortRecovery
set_option autoImplicit false

open Kvdb.Engine

/-! ## Histories -/

/-- A call, with the rounds of the background workers. A call that throws or waits changes nothing. -/
inductive Action where
  | call (a : BatchIsolation.Action)
  | flush
  | manualCompact (minSstables fromLevel : ℤ) (cascade : Bool)
  | compactionWorker
  | drainFileGC (minActiveTs : ℕ)
  | reopen (cfg : EngineConfig)
  | crash (cfg : EngineConfig)

def after (e : Engine) : Action → Engine
  | .call a => ((BatchIsolation.step ⟨e, []⟩ a).map BatchIsolation.State.engine).getD e
  | .flush => e.flush
  | .manualCompact minSstables fromLevel cascade => (e.manualCompact minSstables fromLevel cascade).1
  | .compactionWorker => e.compactionWorker
  | .drainFileGC minActiveTs => e.drainFileGC minActiveTs
  | .reopen cfg => construct cfg e.close.directory
  | .crash cfg => construct cfg e.directory

/-- The engine after a history, from an empty directory on. -/
def history (cfg : EngineConfig) (acts : List Action) : Engine := acts.foldl after (create cfg)

/-- The directory that a clean close leaves after a history. -/
def closed (cfg : EngineConfig) (acts : List Action) : Directory := (history cfg acts).close.directory

/-! ## The recovered tables -/

/-- The tables that the constructor takes from the MANIFEST; the flushes of the replay append to them. -/
def recoveredTables (cfg : EngineConfig) (d : Directory) : List Metadata :=
  (construct cfg d).sstableMetadata.take (Manifest.recover d.manifest).length

/-- Every recovered table knows the batches that the MANIFEST records as aborted with a fence at or above it. -/
def AbortsKept (cfg : EngineConfig) (d : Directory) : Prop :=
  ∀ t ∈ recoveredTables cfg d, ∀ ts ∈ Manifest.abortedFor d.manifest t, ts ∈ t.abortedBatchTs

/-- Every abort record of the MANIFEST that concerns one of its tables is known otherwise as well: the log
still gives the batch as aborted, or the file of the table names it, or that file cannot be read. -/
def KnownOtherwise (d : Directory) : Prop :=
  ∀ m ∈ Manifest.surviving d.manifest, ∀ ts ∈ Manifest.abortedFor d.manifest m,
    ts ∈ (WAL.recover d.wal).aborted ∨ ∀ f, d.files m.filepath = some f → ts ∈ f.abortedBatchTs

/-- The metadata after `markAborted` for each of the batches. -/
def withAborted (aborted : List ℕ) (m : Metadata) : Metadata :=
  { m with abortedBatchTs := aborted.reverse ++ m.abortedBatchTs }

theorem foldl_markAborted_catalogue (aborted : List ℕ) (e : Engine) :
    (aborted.foldl markAborted e).sstableMetadata = e.sstableMetadata.map (withAborted aborted) := by
  induction aborted generalizing e with
  | nil => exact (List.map_id' e.sstableMetadata).symm
  | cons ts aborted ih =>
    rw [List.foldl_cons, ih, Engine.markAborted, List.map_map]
    apply List.map_congr_left
    intro m _
    simp [withAborted]

/-- The tables of the MANIFEST stand at the front of the constructed catalogue. -/
theorem construct_catalogue_head (cfg : EngineConfig) (d : Directory) :
    (Manifest.recover d.manifest).map (fun m => withAborted (WAL.recover d.wal).aborted (fillMetadata d.files m)) <+:
      (construct cfg d).sstableMetadata := by
  apply construct_of_marked (P := fun e => (Manifest.recover d.manifest).map (fun m =>
    withAborted (WAL.recover d.wal).aborted (fillMetadata d.files m)) <+: e.sstableMetadata) cfg d
  · rw [foldl_markAborted_catalogue]
    simp only [Engine.raiseTs, openDirectory, List.map_map]
    exact List.prefix_rfl
  · intro e m hprefix
    rcases e.doFlush_cases m with ⟨-, heq⟩ | ⟨-, md, cache, -, heq⟩
    · rw [heq]
      exact hprefix
    · rw [heq]
      exact hprefix.trans (List.prefix_append e.sstableMetadata [md])
  · intro e e' _ hcat _ hprefix
    rw [hcat]
    exact hprefix

theorem recoveredTables_eq (cfg : EngineConfig) (d : Directory) :
    recoveredTables cfg d = (Manifest.recover d.manifest).map fun m =>
      withAborted (WAL.recover d.wal).aborted (fillMetadata d.files m) := by
  have htake := List.prefix_iff_eq_take.mp (construct_catalogue_head cfg d)
  rw [List.length_map] at htake
  exact htake.symm

/-! ## What a recovered table knows -/

theorem manifestSeq_fillMetadata (files : ℕ → Option SSTableFile) (m : Metadata) :
    (fillMetadata files m).manifestSeq = m.manifestSeq := by
  unfold fillMetadata
  split <;> rfl

theorem abortedBatchTs_fillMetadata (files : ℕ → Option SSTableFile) (m : Metadata) :
    (fillMetadata files m).abortedBatchTs =
      ((files m.filepath).map SSTableFile.abortedBatchTs).getD m.abortedBatchTs := by
  unfold fillMetadata readMetadata
  cases files m.filepath <;> rfl

/-- The set of a table of the MANIFEST: what its file says, or else what the MANIFEST says, and the log. -/
theorem mem_recovered {d : Directory} {m : Metadata} {ts : ℕ} (h : ts ∈ Manifest.abortedFor d.manifest m) :
    ts ∈ (withAborted (WAL.recover d.wal).aborted
        (fillMetadata d.files { m with abortedBatchTs := Manifest.abortedFor d.manifest m })).abortedBatchTs ↔
      ts ∈ (WAL.recover d.wal).aborted ∨ ∀ f, d.files m.filepath = some f → ts ∈ f.abortedBatchTs := by
  rw [withAborted, List.mem_append, List.mem_reverse, abortedBatchTs_fillMetadata]
  cases hfile : d.files m.filepath with
  | none => simp [h]
  | some f => simp

theorem abortsKept_iff (cfg : EngineConfig) (d : Directory) : AbortsKept cfg d ↔ KnownOtherwise d := by
  have hsame : ∀ m : Metadata, Manifest.abortedFor d.manifest (withAborted (WAL.recover d.wal).aborted
      (fillMetadata d.files { m with abortedBatchTs := Manifest.abortedFor d.manifest m })) =
        Manifest.abortedFor d.manifest m := by
    intro m
    unfold Manifest.abortedFor
    rw [withAborted, manifestSeq_fillMetadata]
  unfold AbortsKept KnownOtherwise
  rw [recoveredTables_eq, Manifest.recover, List.map_map]
  constructor
  · intro hkept m hm ts hts
    have hmem := hkept _ (List.mem_map_of_mem hm) ts ((hsame m).symm ▸ hts)
    exact (mem_recovered hts).mp hmem
  · intro hknown t ht ts hts
    obtain ⟨m, hm, rfl⟩ := List.mem_map.mp ht
    have hrecorded : ts ∈ Manifest.abortedFor d.manifest m := hsame m ▸ hts
    exact (mem_recovered hrecorded).mpr (hknown m hm ts hrecorded)

/-- After every history and a clean close, the reopened engine keeps the aborts of the MANIFEST exactly when
each of them is known from the log or from the file of the table as well. -/
theorem recovered_aborts_iff (cfg cfg' : EngineConfig) (acts : List Action) :
    AbortsKept cfg' (closed cfg acts) ↔ KnownOtherwise (closed cfg acts) :=
  abortsKept_iff cfg' (closed cfg acts)

def wideGap : EngineConfig := { smallConfig with batchIncrementGap := 3 }

/-- A batch whose entries are flushed before it is aborted, with a flush between its begin record and its
first entry: neither the files nor the part of the log that is read know of the abort. -/
def flushedThenAborted : List Action :=
  [.call .startBatch, .call (.insert [1] [2]), .flush, .call (.batchInsert [5] [6]), .flush, .call .abortBatch]

/-- The abort of that batch is recorded in the MANIFEST and lost to its table. -/
theorem recorded_abort_lost :
    ¬ ∀ (cfg cfg' : EngineConfig) (acts : List Action), AbortsKept cfg' (closed cfg acts) := by
  intro h
  have hlost : ¬ AbortsKept wideGap (closed wideGap flushedThenAborted) := by
    unfold AbortsKept
    decide
  exact hlost (h wideGap wideGap flushedThenAborted)

end Kvdb.AbortRecovery
