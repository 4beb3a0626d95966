import Kvdb.Engine.Interleaving
import Kvdb.Engine.WriteRace
import Kvdb.Engine.FlushFailure
import Kvdb.Engine.Batch

/-! # The frozen memtables that a `Lookup` copies

Any number of threads in `Insert`, `Delete`, `BatchInsert`, `BatchDelete`, `Flush` and `Lookup`, and the flush worker.
What a call does under `memtable_mutex_` is one step. `Lookup` copies `frozen_memtables_` and writes the ids of the copy
to an array of four. Nothing holds a writer back while the worker is busy: `max_pending_flushes_` is read nowhere. -/
namespace Kvdb.FrozenBound
set_option autoImplicit false

open Kvdb.Runs Kvdb.Engine
open Kvdb.Interleaving (accepts updateCache)
open Kvdb.WriteRace (insertAt isFrozen)
open Kvdb.FlushFailure (FlushStep doFlushThrow)

/-- A version on its way, by a call of the batch or not. -/
structure Write where
  version : KeyValuePair
  batch : Bool

/-- Where a thread stands in its call. The memtable that a writer has read is known by its id. -/
inductive Stage where
  | idle
  | taken (w : Write)
  | buffered (w : Write)
  | loaded (w : Write) (id : ℕ)
  | checked (w : Write) (id : ℕ)
  | inserted (w : Write)
  | rotated (w : Write)
  | flushing
  | looking (frozenSnapshot : List MemTable)

/-- Where the flush worker stands in its round. -/
inductive WorkerStage where
  | waiting
  | awake
  | holding (m : MemTable)
  | flushed

/-- `pendingRecycle` has the ids and fences of the memtables that were flushed. -/
structure State (n : ℕ) where
  engine : Engine
  threads : Fin n → Stage
  worker : WorkerStage
  pending : ℕ
  pendingRecycle : List (ℕ × ℕ)

def init (cfg : EngineConfig) (n : ℕ) : State n := ⟨Engine.create cfg, fun _ => .idle, .waiting, 0, []⟩

/-- What a thread does in its call; the first step of `Insert` and `Delete`, of `BatchInsert` and `BatchDelete`, of
`Flush` and of `Lookup` starts the call. -/
inductive CallAction where
  | startWrite (key value : Bytes) (isTombstone : Bool)
  | startBatchWrite (key value : Bytes) (isTombstone : Bool)
  | bufferWrite
  | loadActive
  | checkFrozen
  | treeInsert
  | freezeIfFull
  | finish
  | flush
  | flushReturn
  | copyFrozen
  | lookupReturn

inductive WorkerAction where
  | wake
  | pop
  | doFlush
  | doFlushThrow (stage : FlushStep)
  | release

inductive Action (n : ℕ) where
  | call (k : Fin n) (a : CallAction)
  | worker (a : WorkerAction)
  | startBatch
  | commitBatchAsync
  | commitBatchFinalize
  | abortBatch
  | drainRecycle (minActiveTs : ℕ)

variable {n : ℕ}

def State.at (s : State n) (k : Fin n) (stage : Stage) : State n :=
  { s with threads := Function.update s.threads k stage }

/-- The freeze section of a writer: a full memtable is frozen, and the flush worker is notified. -/
def freezeSection (s : State n) : State n :=
  if s.engine.activeMemtable.isFull then { s with engine := s.engine.rotate, pending := s.pending + 1 } else s

/-- `tree_.Insert` on the memtable with that id, wherever it is. -/
def treeInsert (s : State n) (id : ℕ) (w : KeyValuePair) : State n :=
  { s with
    engine := { s.engine with
      activeMemtable := insertAt id w s.engine.activeMemtable
      frozenMemtables := s.engine.frozenMemtables.map (insertAt id w) }
    worker := match s.worker with
      | .holding m => .holding (insertAt id w m)
      | stage => stage }

/-- `DrainRecyclePending`: what is found of these memtables in `frozen_memtables_` is erased. -/
def drainRecycle (s : State n) (minActiveTs : ℕ) : State n :=
  let ready := s.pendingRecycle.filter fun p => decide (p.2 ≤ minActiveTs)
  { s with
    engine := { s.engine with
      frozenMemtables := s.engine.frozenMemtables.filter fun m => !(ready.map Prod.fst).contains m.id }
    pendingRecycle := s.pendingRecycle.filter fun p => !decide (p.2 ≤ minActiveTs) }

/-- A step of the thread `k`. -/
def callStep (s : State n) (k : Fin n) : CallAction → Stage → Option (State n)
  | .startWrite key value isTombstone, .idle =>
    if accepts key value isTombstone then
      s.engine.takeTimestamp.map fun r =>
        { s with engine := r.2 }.at k
          (.taken ⟨⟨key, if isTombstone then [] else value, r.1, isTombstone⟩, false⟩)
    else none
  | .startBatchWrite key value isTombstone, .idle =>
    if accepts key value isTombstone then
      some ({ s with engine := { s.engine with batchTouched := true } }.at k
        (.taken ⟨⟨key, if isTombstone then [] else value, s.engine.batchTs, isTombstone⟩, true⟩))
    else none
  | .bufferWrite, .taken w =>
    some ({ s with
      engine := s.engine.bufferWrite w.version.key w.version.value w.version.timestamp }.at k (.buffered w))
  | .loadActive, .buffered w => some (s.at k (.loaded w s.engine.activeMemtable.id))
  | .checkFrozen, .loaded w id =>
    some (s.at k (if isFrozen s.engine id then .inserted w else .checked w id))
  | .treeInsert, .checked w id => some ((treeInsert s id w.version).at k (.inserted w))
  | .freezeIfFull, .inserted w => some ((freezeSection s).at k (.rotated w))
  | .finish, .rotated w =>
    some ({ s with
      engine := { s.engine with
        kvCache := if w.batch then s.engine.kvCache else updateCache s.engine.kvCache w.version } }.at k .idle)
  | .flush, .idle =>
    if s.engine.activeMemtable.entryCount = 0 then some s
    else some ({ s with engine := s.engine.rotate, pending := s.pending + 1 }.at k .flushing)
  | .flushReturn, .flushing => if s.pending = 0 then some (s.at k .idle) else none
  | .copyFrozen, .idle => some (s.at k (.looking s.engine.frozenMemtables))
  | .lookupReturn, .looking _ => some (s.at k .idle)
  | _, _ => none

/-- A round of `FlushWorkerLoop`: `pending` is positive, the front memtable is taken, it is flushed if it has entries
(what `DoFlush` throws is swallowed), and `pending` is counted down. -/
def workerStep (s : State n) : WorkerAction → WorkerStage → Option (State n)
  | .wake, .waiting => if 0 < s.pending then some { s with worker := .awake } else none
  | .pop, .awake =>
    match s.engine.frozenMemtables with
    | [] => some { s with worker := .flushed }
    | m :: rest => some { s with
        engine := { s.engine with frozenMemtables := rest }
        worker := if m.entryCount = 0 then .flushed else .holding m }
  | .doFlush, .holding m => some { s with
      engine := (s.engine.doFlush m).writeCheckpoint
      worker := .flushed
      pendingRecycle := s.pendingRecycle ++ [(m.id, s.engine.globalTs)] }
  | .doFlushThrow stage, .holding m => some { s with engine := doFlushThrow s.engine m stage, worker := .flushed }
  | .release, .flushed => some { s with pending := s.pending - 1, worker := .waiting }
  | _, _ => none

def step (s : State n) : Action n → Option (State n)
  | .call k a => callStep s k a (s.threads k)
  | .worker a => workerStep s a s.worker
  | .startBatch => some { s with engine := s.engine.startBatch.2 }
  | .commitBatchAsync => some { s with engine := s.engine.commitBatchAsync.2 }
  | .commitBatchFinalize => some { s with engine := s.engine.commitBatchFinalize.2 }
  | .abortBatch => some { s with engine := s.engine.abortBatch.2 }
  | .drainRecycle minActiveTs => some (drainRecycle s minActiveTs)

/-! ## The property and its condition -/

/-- The cells of `scanned_ids` that a `Lookup` writes. -/
def Stage.scannedIds : Stage → List ℕ
  | .looking frozenSnapshot => frozenSnapshot.map MemTable.id
  | _ => []

/-- At most four memtables are frozen, and every `Lookup` writes inside `scanned_ids[4]`. -/
def InBounds (s : State n) : Prop :=
  s.engine.frozenMemtables.length ≤ 4 ∧ ∀ k, (s.threads k).scannedIds.length ≤ 4

/-- The step freezes a memtable: the freeze section of a writer with a full memtable, or `Flush` with entries. -/
def Freezes (s : State n) : Action n → Prop
  | .call k .freezeIfFull => (∃ w, s.threads k = .inserted w) ∧ s.engine.activeMemtable.isFull = true
  | .call _ .flush => s.engine.activeMemtable.entryCount ≠ 0
  | _ => False

instance decidableFreezes (s : State n) (a : Action n) : Decidable (Freezes s a) := by
  cases a with
  | call k a =>
    cases a with
    | freezeIfFull =>
      cases hstage : s.threads k with
      | inserted w =>
        exact decidable_of_iff (s.engine.activeMemtable.isFull = true)
          ⟨fun h => ⟨⟨w, hstage⟩, h⟩, fun h => h.2⟩
      | _ => exact isFalse (by rintro ⟨⟨w, hw⟩, -⟩; simp [hstage] at hw)
    | flush => exact inferInstanceAs (Decidable (s.engine.activeMemtable.entryCount ≠ 0))
    | _ => exact isFalse id
  | _ => exact isFalse id

/-- The condition on a step: no memtable is frozen while four wait for the flush worker. -/
def Allowed (s : State n) (a : Action n) : Prop := Freezes s a → s.engine.frozenMemtables.length < 4

instance decidableAllowed (s : State n) (a : Action n) : Decidable (Allowed s a) :=
  inferInstanceAs (Decidable (_ → _))

/-! ## What a step changes -/

variable {s t : State n}

/-- The thread `j` stands where it stood, or holds no copy, or has copied the frozen memtables of this state. -/
def Copies (s t : State n) (j : Fin n) : Prop :=
  t.threads j = s.threads j ∨ (t.threads j).scannedIds = [] ∨ t.threads j = .looking s.engine.frozenMemtables

theorem copies_at {s' : State n} (k : Fin n) {stage : Stage} (h : s'.threads = s.threads)
    (hstage : stage.scannedIds = [] ∨ stage = .looking s.engine.frozenMemtables) (j : Fin n) :
    Copies s (s'.at k stage) j := by
  have hat : (s'.at k stage).threads j = if j = k then stage else s.threads j := by
    rw [← h]
    exact Function.update_apply s'.threads k stage j
  unfold Copies
  rw [hat]
  split
  · exact .inr hstage
  · exact .inl rfl

theorem freezeSection_threads (s : State n) : (freezeSection s).threads = s.threads := by
  unfold freezeSection
  split <;> rfl

theorem callStep_copies {k : Fin n} {a : CallAction} (h : callStep s k a (s.threads k) = some t) (j : Fin n) :
    Copies s t j := by
  unfold callStep at h
  split at h
  · split at h
    · obtain ⟨r, -, rfl⟩ := Option.map_eq_some_iff.mp h
      exact copies_at k (by rfl) (.inl rfl) j
    · cases h
  · split at h
    · cases h
      exact copies_at k rfl (.inl rfl) j
    · cases h
  · cases h
    exact copies_at k rfl (.inl rfl) j
  · cases h
    exact copies_at k rfl (.inl rfl) j
  · cases h
    refine copies_at k rfl (.inl ?_) j
    split <;> rfl
  · cases h
    exact copies_at k (by rfl) (.inl rfl) j
  · cases h
    exact copies_at k (freezeSection_threads s) (.inl rfl) j
  · cases h
    exact copies_at k rfl (.inl rfl) j
  · split at h
    · cases h
      exact .inl rfl
    · cases h
      exact copies_at k (by rfl) (.inl rfl) j
  · split at h
    · cases h
      exact copies_at k rfl (.inl rfl) j
    · cases h
  · cases h
    exact copies_at k rfl (.inr rfl) j
  · cases h
    exact copies_at k rfl (.inl rfl) j
  · cases h

/-- The number of frozen memtables grows by one where the step freezes, and nowhere else. -/
def Grows (s t : State n) (a : Action n) : Prop :=
  (Freezes s a ∧ t.engine.frozenMemtables.length = s.engine.frozenMemtables.length + 1) ∨
    (¬ Freezes s a ∧ t.engine.frozenMemtables.length ≤ s.engine.frozenMemtables.length)

theorem rotate_length (e : Engine) : e.rotate.frozenMemtables.length = e.frozenMemtables.length + 1 :=
  List.length_append

theorem callStep_grows {k : Fin n} {a : CallAction} (h : callStep s k a (s.threads k) = some t) :
    Grows s t (.call k a) := by
  unfold callStep at h
  split at h
  · split at h
    · obtain ⟨r, hr, rfl⟩ := Option.map_eq_some_iff.mp h
      rw [(takeTimestamp_eq_some hr).2]
      exact .inr ⟨id, Nat.le_refl _⟩
    · cases h
  · split at h
    · cases h
      exact .inr ⟨id, Nat.le_refl _⟩
    · cases h
  · cases h
    exact .inr ⟨id, Nat.le_refl _⟩
  · cases h
    exact .inr ⟨id, Nat.le_refl _⟩
  · cases h
    exact .inr ⟨id, Nat.le_refl _⟩
  · cases h
    exact .inr ⟨id, Nat.le_of_eq (List.length_map ..)⟩
  · next w hstage =>
    cases h
    by_cases hfull : s.engine.activeMemtable.isFull = true
    · left
      refine ⟨⟨⟨w, hstage⟩, hfull⟩, ?_⟩
      rw [freezeSection, if_pos hfull]
      exact rotate_length s.engine
    · right
      refine ⟨fun hfreeze => hfull hfreeze.2, ?_⟩
      rw [freezeSection, if_neg hfull]
      exact Nat.le_refl _
  · cases h
    exact .inr ⟨id, Nat.le_refl _⟩
  · split at h
    · next hempty =>
      cases h
      exact .inr ⟨fun hfreeze => hfreeze hempty, Nat.le_refl _⟩
    · next hentries =>
      cases h
      exact .inl ⟨hentries, rotate_length s.engine⟩
  · split at h
    · cases h
      exact .inr ⟨id, Nat.le_refl _⟩
    · cases h
  · cases h
    exact .inr ⟨id, Nat.le_refl _⟩
  · cases h
    exact .inr ⟨id, Nat.le_refl _⟩
  · cases h

theorem doFlushThrow_frozen (e : Engine) (m : MemTable) (stage : FlushStep) :
    (doFlushThrow e m stage).frozenMemtables = e.frozenMemtables := by
  cases stage with
  | write => rfl
  | readMetadata => rfl
  | manifest => exact doFlush_frozenMemtables e m

theorem workerStep_frozen {a : WorkerAction} (h : workerStep s a s.worker = some t) :
    t.threads = s.threads ∧ t.engine.frozenMemtables.length ≤ s.engine.frozenMemtables.length := by
  unfold workerStep at h
  split at h
  · split at h
    · cases h
      exact ⟨rfl, Nat.le_refl _⟩
    · cases h
  · split at h
    · next hnil =>
      cases h
      exact ⟨rfl, Nat.le_refl _⟩
    · next m rest hcons =>
      cases h
      rw [hcons]
      exact ⟨rfl, Nat.le_succ _⟩
  · cases h
    exact ⟨rfl, Nat.le_of_eq (congrArg List.length (doFlush_frozenMemtables _ _))⟩
  · cases h
    exact ⟨rfl, Nat.le_of_eq (congrArg List.length (doFlushThrow_frozen _ _ _))⟩
  · cases h
    exact ⟨rfl, Nat.le_refl _⟩
  · cases h

theorem startBatch_frozen (e : Engine) : e.startBatch.2.frozenMemtables = e.frozenMemtables := by
  unfold startBatch
  split <;> rfl

theorem commitBatchAsync_frozen (e : Engine) : e.commitBatchAsync.2.frozenMemtables = e.frozenMemtables := by
  unfold commitBatchAsync
  split <;> rfl

theorem commitBatchFinalize_frozen (e : Engine) :
    e.commitBatchFinalize.2.frozenMemtables = e.frozenMemtables := by
  unfold commitBatchFinalize
  split <;> rfl

theorem abortBatch_frozen (e : Engine) :
    e.abortBatch.2.frozenMemtables.length = e.frozenMemtables.length := by
  unfold abortBatch
  split
  · split
    · exact List.length_map ..
    · rfl
  · rfl

theorem step_cases {a : Action n} (h : step s a = some t) : Grows s t a ∧ ∀ j, Copies s t j := by
  cases a with
  | call k a => exact ⟨callStep_grows h, callStep_copies h⟩
  | worker a =>
    obtain ⟨hthreads, hle⟩ := workerStep_frozen h
    exact ⟨.inr ⟨id, hle⟩, fun j => .inl (congrFun hthreads j)⟩
  | startBatch =>
    cases h
    exact ⟨.inr ⟨id, Nat.le_of_eq (congrArg List.length (startBatch_frozen _))⟩, fun _ => .inl rfl⟩
  | commitBatchAsync =>
    cases h
    exact ⟨.inr ⟨id, Nat.le_of_eq (congrArg List.length (commitBatchAsync_frozen _))⟩, fun _ => .inl rfl⟩
  | commitBatchFinalize =>
    cases h
    exact ⟨.inr ⟨id, Nat.le_of_eq (congrArg List.length (commitBatchFinalize_frozen _))⟩, fun _ => .inl rfl⟩
  | abortBatch =>
    cases h
    exact ⟨.inr ⟨id, Nat.le_of_eq (abortBatch_frozen _)⟩, fun _ => .inl rfl⟩
  | drainRecycle minActiveTs =>
    cases h
    exact ⟨.inr ⟨id, List.length_filter_le ..⟩, fun _ => .inl rfl⟩

/-- A step from a state in bounds stays in bounds exactly if it is allowed. -/
theorem step_inBounds {a : Action n} (h : step s a = some t) (hs : InBounds s) : InBounds t ↔ Allowed s a := by
  obtain ⟨hgrows, hcopies⟩ := step_cases h
  obtain ⟨hlen, hids⟩ := hs
  have hthreads : ∀ j, (t.threads j).scannedIds.length ≤ 4 := by
    intro j
    rcases hcopies j with hsame | hnone | hcopy
    · rw [hsame]
      exact hids j
    · rw [hnone]
      exact Nat.zero_le _
    · rw [hcopy]
      exact Nat.le_trans (Nat.le_of_eq (List.length_map ..)) hlen
  rcases hgrows with ⟨hfreezes, hsucc⟩ | ⟨hcalm, hle⟩
  · refine ⟨fun ht _ => ?_, fun hallowed => ⟨?_, hthreads⟩⟩
    · have := ht.1
      omega
    · have := hallowed hfreezes
      omega
  · exact ⟨fun _ hfreezes => absurd hfreezes hcalm, fun _ => ⟨by omega, hthreads⟩⟩

theorem init_inBounds (cfg : EngineConfig) (n : ℕ) : InBounds (init cfg n) :=
  ⟨Nat.zero_le _, fun _ => Nat.zero_le _⟩

/-- In every interleaving: at most four memtables are frozen all the time, and every `Lookup` writes inside its array,
exactly if no step freezes a memtable while four are frozen. -/
theorem frozen_in_bounds_iff (cfg : EngineConfig) (n : ℕ) {acts : List (Action n)} {t : State n}
    (hrun : Run step anyStep (init cfg n) acts t) :
    (∀ as bs s, acts = as ++ bs → Run step anyStep (init cfg n) as s → InBounds s) ↔
      Run step Allowed (init cfg n) acts t :=
  Run.stays_iff (fun _ _ _ hstep hs => step_inBounds hstep hs) hrun (init_inBounds cfg n)

/-- Every write fills the memtable. -/
def tinyConfig : EngineConfig := { smallConfig with memtableMaxBytes := 1 }

/-- An `Insert` of the thread `k`, in which the memtable gets full. -/
def insertCall (k : Fin n) (key : Bytes) : List (Action n) :=
  [.startWrite key [0] false, .bufferWrite, .loadActive, .checkFrozen, .treeInsert, .freezeIfFull, .finish].map (.call k)

/-- Two writes of a thread with a round of the flush worker between them, and a `Lookup`. -/
def calmRun : List (Action 2) :=
  insertCall 0 [1] ++ [.worker .wake, .worker .pop] ++ insertCall 0 [2] ++
    [.worker .doFlush, .worker .release, .call 1 .copyFrozen]

theorem calmRun_allowed : (checked step Allowed (init tinyConfig 2) calmRun).isSome = true := by decide

theorem frozen_in_bounds_calmRun :
    ∃ t, Run step anyStep (init tinyConfig 2) calmRun t ∧
      ∀ as bs s, calmRun = as ++ bs → Run step anyStep (init tinyConfig 2) as s → InBounds s := by
  have hallowed := Run.of_isSome _ _ calmRun_allowed
  have hrun : Run step anyStep (init tinyConfig 2) calmRun _ := hallowed.mono fun _ _ _ => trivial
  exact ⟨_, hrun, (frozen_in_bounds_iff tinyConfig 2 hrun).mpr hallowed⟩

/-- Five writes while the flush worker does not run, then a `Lookup`. -/
def stalledRun : List (Action 2) :=
  insertCall 0 [1] ++ insertCall 0 [2] ++ insertCall 0 [3] ++ insertCall 0 [4] ++ insertCall 0 [5] ++
    [.call 1 .copyFrozen]

/-- The `Lookup` writes five ids into its array of four. -/
theorem scanned_ids_overflow :
    ∃ t, Run step anyStep (init tinyConfig 2) stalledRun t ∧ (t.threads 1).scannedIds = [0, 1, 2, 3, 4] ∧
      ¬ InBounds t := by
  have hexists : ∃ t, Run step anyStep (init tinyConfig 2) stalledRun t ∧
      (t.threads 1).scannedIds = [0, 1, 2, 3, 4] := Run.exists_of_checked (by decide)
  obtain ⟨t, hrun, hids⟩ := hexists
  refine ⟨t, hrun, hids, fun hbounds => ?_⟩
  have hlen := hbounds.2 1
  rw [hids] at hlen
  exact absurd hlen (by decide)

end Kvdb.FrozenBound
