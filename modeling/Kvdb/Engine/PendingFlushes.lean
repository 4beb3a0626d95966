import Kvdb.Engine.FrozenBound
import Mathlib.Data.List.Perm.Subperm

/-! # The counter of the memtables that wait to be flushed

`pending` of the flush state is raised under `memtable_mutex_` after the memtable has been put into `frozen_memtables_`,
and lowered by the flush worker under another mutex when the round is over. Here a freeze takes two steps: the memtable is
put into the list, and then it is counted and the active memtable replaced; no other step that needs `memtable_mutex_` is
taken meanwhile. `DrainRecyclePending` first takes entries out of `pending_recycle_` and then looks for each of them in
the list. All other steps are those of `FrozenBound`. -/
namespace Kvdb.PendingFlushes
set_option autoImplicit false

open Kvdb.Runs Kvdb.Engine
open Kvdb.WriteRace (insertAt)
open Kvdb.FrozenBound (WorkerStage)
open Kvdb.FlushFailure (FlushStep doFlushThrow)

/-- `freezing` is the thread inside a freeze, `recycling` the ids taken by calls of `DrainRecyclePending`. The logs have the
memtables as they were when their freeze was over, and the ids of those `DoFlush` has been called for. -/
structure State (n : ℕ) where
  base : FrozenBound.State n
  freezing : Option (Fin n)
  recycling : List ℕ
  frozenLog : List MemTable
  attempted : List ℕ

def init (cfg : EngineConfig) (n : ℕ) : State n := ⟨FrozenBound.init cfg n, none, [], [], []⟩

/-- `minActiveTs` is the result of `MinActiveTS` for the entry at `i`. -/
inductive Action (n : ℕ) where
  | base (a : FrozenBound.Action n)
  | freeze (k : Fin n)
  | count (k : Fin n)
  | recycleTake (i minActiveTs : ℕ)
  | recycleErase (i : ℕ)

variable {n : ℕ}

/-- The steps that need `memtable_mutex_` wait while a thread freezes, and a thread that freezes does nothing else. A
freeze is not one step here, nor is `DrainRecyclePending`. -/
def permitted (s : State n) : FrozenBound.Action n → Bool
  | .call _ .freezeIfFull => s.freezing.isNone && !s.base.engine.activeMemtable.isFull
  | .call _ .flush => s.freezing.isNone && decide (s.base.engine.activeMemtable.entryCount = 0)
  | .call _ .copyFrozen => s.freezing.isNone
  | .call k _ => decide (s.freezing ≠ some k)
  | .worker .pop => s.freezing.isNone
  | .abortBatch => s.freezing.isNone
  | .drainRecycle _ => false
  | _ => true

/-- The memtable for which the step calls `DoFlush`. -/
def attempts (s : State n) : FrozenBound.Action n → List ℕ
  | .worker .doFlush | .worker (.doFlushThrow _) =>
    match s.base.worker with
    | .holding m => [m.id]
    | _ => []
  | _ => []

/-- The thread freezes the active memtable: behind its insertion if the memtable is full, or in `Flush` if it has
entries. -/
def freezes (s : State n) (k : Fin n) : Bool :=
  match s.base.threads k with
  | .inserted _ => s.base.engine.activeMemtable.isFull
  | .idle => decide (s.base.engine.activeMemtable.entryCount ≠ 0)
  | _ => false

/-- `frozen->Freeze()` and `frozen_memtables_.push_back(frozen)`. -/
def pushFrozen (e : Engine) : Engine :=
  { e with
    activeMemtable := e.activeMemtable.freeze
    frozenMemtables := e.frozenMemtables ++ [e.activeMemtable.freeze] }

/-- The memtable that takes the place of the frozen one. -/
def renewActive (e : Engine) : Engine :=
  { e with
    activeMemtable := MemTable.new e.nextTableId e.cfg.memtableMaxBytes
    nextTableId := e.nextTableId + 1 }

/-- The end of a freeze, after which the thread stands at `stage`. -/
def counted (s : State n) (k : Fin n) (stage : FrozenBound.Stage) : State n :=
  { s with
    base := { s.base with
      engine := renewActive s.base.engine
      pending := s.base.pending + 1 }.at k stage
    freezing := none
    frozenLog := s.base.engine.activeMemtable :: s.frozenLog }

def step (s : State n) : Action n → Option (State n)
  | .base a =>
    if permitted s a then (FrozenBound.step s.base a).map fun b => { s with
      base := b
      attempted := attempts s a ++ s.attempted }
    else none
  | .freeze k =>
    if s.freezing.isNone && freezes s k then some { s with
      base := { s.base with engine := pushFrozen s.base.engine }
      freezing := some k }
    else none
  | .count k =>
    if s.freezing = some k then
      match s.base.threads k with
      | .inserted w => some (counted s k (.rotated w))
      | .idle => some (counted s k .flushing)
      | _ => none
    else none
  | .recycleTake i minActiveTs =>
    match s.base.pendingRecycle[i]? with
    | some p =>
      if p.2 ≤ minActiveTs then some { s with
        base := { s.base with pendingRecycle := s.base.pendingRecycle.eraseIdx i }
        recycling := p.1 :: s.recycling }
      else none
    | none => none
  | .recycleErase i =>
    match s.recycling[i]? with
    | some id =>
      if s.freezing.isNone then some { s with
        base := { s.base with
          engine := { s.base.engine with
            frozenMemtables := s.base.engine.frozenMemtables.eraseP fun m => decide (m.id = id) } }
        recycling := s.recycling.eraseIdx i }
      else none
    | none => none

/-- The memtables in `frozen_memtables_` whose freeze is over. -/
def settled (s : State n) : List MemTable :=
  if s.freezing.isSome then s.base.engine.frozenMemtables.dropLast else s.base.engine.frozenMemtables

/-- The memtable of the current round of the flush worker, from the time it is taken until it is counted down. -/
def held (s : State n) : ℕ :=
  match s.base.worker with
  | .holding _ | .flushed => 1
  | _ => 0

/-! ## What the steps change -/

/-- The memtables of an engine, and what decides about the next ones. -/
structure Tables where
  frozen : List MemTable
  active : MemTable
  nextId : ℕ
  maxBytes : ℕ

def tables (e : Engine) : Tables := ⟨e.frozenMemtables, e.activeMemtable, e.nextTableId, e.cfg.memtableMaxBytes⟩

structure View where
  tables : Tables
  pending : ℕ
  worker : WorkerStage
  recycled : List ℕ
  freezing : Bool
  frozenLog : List MemTable
  attempted : List ℕ

def State.view (s : State n) : View where
  tables := tables s.base.engine
  pending := s.base.pending
  worker := s.base.worker
  recycled := s.base.pendingRecycle.map Prod.fst ++ s.recycling
  freezing := s.freezing.isSome
  frozenLog := s.frozenLog
  attempted := s.attempted

/-- An insertion into the memtable with that id, wherever it is. -/
def insertInto (id : ℕ) (w : KeyValuePair) (v : View) : View :=
  { v with
    tables := { v.tables with
      frozen := v.tables.frozen.map (insertAt id w)
      active := insertAt id w v.tables.active }
    worker := match v.worker with
      | .holding m => .holding (insertAt id w m)
      | stage => stage }

inductive Change (v : View) : View → Prop
  | still : Change v v
  | insert (id : ℕ) (w : KeyValuePair) : Change v (insertInto id w v)
  | abort (ts : ℕ) (hfree : v.freezing = false) : Change v { v with
      tables := { v.tables with
        frozen := v.tables.frozen.map fun m => m.addAbortedBatch ts
        active := v.tables.active.addAbortedBatch ts } }
  | freeze (hfree : v.freezing = false) (hfreezes : v.tables.active.isFull = true ∨ v.tables.active.entryCount ≠ 0) :
      Change v { v with
        tables := { v.tables with
          frozen := v.tables.frozen ++ [v.tables.active.freeze]
          active := v.tables.active.freeze }
        freezing := true }
  | count (hfreezing : v.freezing = true) : Change v { v with
      tables := { v.tables with
        active := MemTable.new v.tables.nextId v.tables.maxBytes
        nextId := v.tables.nextId + 1 }
      pending := v.pending + 1
      freezing := false
      frozenLog := v.tables.active :: v.frozenLog }
  | wake (hworker : v.worker = .waiting) (hpending : 0 < v.pending) : Change v { v with worker := .awake }
  | popNone (hfree : v.freezing = false) (hworker : v.worker = .awake) (hnil : v.tables.frozen = []) :
      Change v { v with worker := .flushed }
  | pop (m : MemTable) (rest : List MemTable) (hfree : v.freezing = false) (hworker : v.worker = .awake)
      (hcons : v.tables.frozen = m :: rest) : Change v { v with
        tables := { v.tables with frozen := rest }
        worker := if m.entryCount = 0 then .flushed else .holding m }
  | flush (m : MemTable) (ids : List ℕ) (hworker : v.worker = .holding m) (hperm : ids.Perm (m.id :: v.recycled)) :
      Change v { v with
        worker := .flushed
        recycled := ids
        attempted := m.id :: v.attempted }
  | flushThrow (m : MemTable) (hworker : v.worker = .holding m) : Change v { v with
      worker := .flushed
      attempted := m.id :: v.attempted }
  | release (hworker : v.worker = .flushed) : Change v { v with
      pending := v.pending - 1
      worker := .waiting }
  | recycle (ids : List ℕ) (hperm : ids.Perm v.recycled) : Change v { v with recycled := ids }
  | erase (id : ℕ) (ids : List ℕ) (hfree : v.freezing = false) (hperm : (id :: ids).Perm v.recycled) : Change v { v with
      tables := { v.tables with frozen := v.tables.frozen.eraseP fun m => decide (m.id = id) }
      recycled := ids }

theorem tables_doFlush (e : Engine) (m : MemTable) : tables (e.doFlush m) = tables e :=
  doFlush_keeps tables e m fun _ _ => rfl

theorem tables_doFlushThrow (e : Engine) (m : MemTable) (stage : FlushStep) :
    tables (doFlushThrow e m stage) = tables e := by
  cases stage with
  | write => rfl
  | readMetadata => rfl
  | manifest => exact tables_doFlush e m

theorem tables_startBatch (e : Engine) : tables e.startBatch.2 = tables e := by
  unfold startBatch
  split <;> rfl

theorem tables_commitBatchAsync (e : Engine) : tables e.commitBatchAsync.2 = tables e := by
  unfold commitBatchAsync
  split <;> rfl

theorem tables_commitBatchFinalize (e : Engine) : tables e.commitBatchFinalize.2 = tables e := by
  unfold commitBatchFinalize
  split <;> rfl

variable {s t : State n}

/-- A step that leaves the memtables and the counter alone. -/
theorem still_of {b : FrozenBound.State n} (htables : tables b.engine = tables s.base.engine)
    (hpending : b.pending = s.base.pending) (hworker : b.worker = s.base.worker)
    (hrecycle : b.pendingRecycle = s.base.pendingRecycle) (log : List ℕ) (hlog : log = []) :
    Change s.view (State.view { s with
      base := b
      attempted := log ++ s.attempted }) := by
  have hsame : State.view { s with
      base := b
      attempted := log ++ s.attempted } = s.view := by
    simp only [State.view, htables, hpending, hworker, hrecycle, hlog, List.nil_append]
  rw [hsame]
  exact .still

theorem call_change {k : Fin n} {a : FrozenBound.CallAction} {b : FrozenBound.State n}
    (hpermitted : permitted s (.call k a) = true) (h : FrozenBound.callStep s.base k a (s.base.threads k) = some b) :
    Change s.view (State.view { s with
      base := b
      attempted := attempts s (.call k a) ++ s.attempted }) := by
  unfold FrozenBound.callStep at h
  split at h
  · split at h
    · obtain ⟨r, hr, rfl⟩ := Option.map_eq_some_iff.mp h
      obtain ⟨-, rfl⟩ := takeTimestamp_eq_some hr
      exact still_of rfl rfl rfl rfl _ rfl
    · cases h
  · split at h
    · cases h
      exact still_of rfl rfl rfl rfl _ rfl
    · cases h
  · cases h
    exact still_of rfl rfl rfl rfl _ rfl
  · cases h
    exact still_of rfl rfl rfl rfl _ rfl
  · cases h
    exact still_of rfl rfl rfl rfl _ rfl
  · next w id _ =>
    cases h
    exact .insert id w.version
  · cases h
    have hnot : s.base.engine.activeMemtable.isFull = false := by
      simpa [permitted] using (Bool.and_eq_true_iff.mp hpermitted).2
    have hsection : FrozenBound.freezeSection s.base = s.base := by
      rw [FrozenBound.freezeSection, if_neg (by simp [hnot])]
    rw [hsection]
    exact still_of rfl rfl rfl rfl _ rfl
  · cases h
    exact still_of rfl rfl rfl rfl _ rfl
  · have hempty : s.base.engine.activeMemtable.entryCount = 0 :=
      of_decide_eq_true (Bool.and_eq_true_iff.mp hpermitted).2
    rw [if_pos hempty] at h
    cases h
    exact still_of rfl rfl rfl rfl _ rfl
  · split at h
    · cases h
      exact still_of rfl rfl rfl rfl _ rfl
    · cases h
  · cases h
    exact still_of rfl rfl rfl rfl _ rfl
  · cases h
    exact still_of rfl rfl rfl rfl _ rfl
  · cases h

theorem worker_change {a : FrozenBound.WorkerAction} {b : FrozenBound.State n}
    (hpermitted : permitted s (.worker a) = true) (h : FrozenBound.workerStep s.base a s.base.worker = some b) :
    Change s.view (State.view { s with
      base := b
      attempted := attempts s (.worker a) ++ s.attempted }) := by
  generalize hworker : s.base.worker = worker at h
  unfold FrozenBound.workerStep at h
  split at h
  · split at h
    · next hpending =>
      cases h
      exact .wake hworker hpending
    · cases h
  · have hfree : s.freezing.isSome = false := by
      simpa [permitted] using hpermitted
    split at h
    · next hnil =>
      cases h
      exact .popNone hfree hworker hnil
    · next m rest hcons =>
      cases h
      exact .pop m rest hfree hworker hcons
  · next m =>
    cases h
    have hlog : attempts s (.worker .doFlush) = [m.id] := by rw [attempts, hworker]
    have hview : State.view { s with
        base := { s.base with
          engine := (s.base.engine.doFlush m).writeCheckpoint
          worker := .flushed
          pendingRecycle := s.base.pendingRecycle ++ [(m.id, s.base.engine.globalTs)] }
        attempted := attempts s (.worker .doFlush) ++ s.attempted } = { s.view with
          worker := .flushed
          recycled := (s.base.pendingRecycle ++ [(m.id, s.base.engine.globalTs)]).map Prod.fst ++ s.recycling
          attempted := m.id :: s.view.attempted } := by
      have htables : tables (s.base.engine.doFlush m).writeCheckpoint = tables s.base.engine := tables_doFlush _ m
      simp only [State.view, hlog, htables, List.singleton_append]
    rw [hview]
    refine .flush m _ hworker ?_
    rw [List.map_append, List.append_assoc]
    exact List.perm_middle
  · next stage m =>
    cases h
    have hlog : attempts s (.worker (.doFlushThrow stage)) = [m.id] := by rw [attempts, hworker]
    have hview : State.view { s with
        base := { s.base with
          engine := doFlushThrow s.base.engine m stage
          worker := .flushed }
        attempted := attempts s (.worker (.doFlushThrow stage)) ++ s.attempted } = { s.view with
          worker := .flushed
          attempted := m.id :: s.view.attempted } := by
      simp only [State.view, hlog, tables_doFlushThrow, List.singleton_append]
    rw [hview]
    exact .flushThrow m hworker
  · cases h
    exact .release hworker
  · cases h

theorem abort_change (hfree : s.freezing.isSome = false) : Change s.view (State.view { s with
    base := { s.base with engine := s.base.engine.abortBatch.2 }
    attempted := [] ++ s.attempted }) := by
  unfold abortBatch
  split
  · split
    · exact .abort s.base.engine.batchTs hfree
    · exact still_of rfl rfl rfl rfl _ rfl
  · exact still_of rfl rfl rfl rfl _ rfl

theorem perm_take {ids : List ℕ} {i id : ℕ} (h : ids[i]? = some id) : (id :: ids.eraseIdx i).Perm ids := by
  obtain ⟨hlt, rfl⟩ := List.getElem?_eq_some_iff.mp h
  exact List.getElem_cons_eraseIdx_perm hlt

theorem step_change {a : Action n} (h : step s a = some t) : Change s.view t.view := by
  cases a with
  | base a =>
    simp only [step] at h
    split at h
    · next hpermitted =>
      obtain ⟨b, hb, rfl⟩ := Option.map_eq_some_iff.mp h
      cases a with
      | call k a => exact call_change hpermitted hb
      | worker a => exact worker_change hpermitted hb
      | startBatch =>
        cases hb
        exact still_of (b := { s.base with engine := s.base.engine.startBatch.2 }) (tables_startBatch _) rfl rfl rfl _ rfl
      | commitBatchAsync =>
        cases hb
        exact still_of (b := { s.base with engine := s.base.engine.commitBatchAsync.2 }) (tables_commitBatchAsync _)
          rfl rfl rfl _ rfl
      | commitBatchFinalize =>
        cases hb
        exact still_of (b := { s.base with engine := s.base.engine.commitBatchFinalize.2 }) (tables_commitBatchFinalize _)
          rfl rfl rfl _ rfl
      | abortBatch =>
        cases hb
        exact abort_change (by simpa [permitted] using hpermitted)
      | drainRecycle minActiveTs => cases hpermitted
    · cases h
  | freeze k =>
    simp only [step] at h
    split at h
    · next hfreeze =>
      obtain ⟨hfree, hfreezes⟩ := Bool.and_eq_true_iff.mp hfreeze
      cases h
      refine .freeze (by simpa [State.view] using hfree) ?_
      unfold freezes at hfreezes
      split at hfreezes
      · exact .inl hfreezes
      · exact .inr (of_decide_eq_true hfreezes)
      · cases hfreezes
    · cases h
  | count k =>
    simp only [step] at h
    split at h
    · next hk =>
      have hfreezing : s.view.freezing = true := by simp [State.view, hk]
      split at h
      · cases h
        exact .count hfreezing
      · cases h
        exact .count hfreezing
      · cases h
    · cases h
  | recycleTake i minActiveTs =>
    simp only [step] at h
    split at h
    · next p hp =>
      split at h
      · cases h
        refine .recycle _ ?_
        have hid : (s.base.pendingRecycle.map Prod.fst)[i]? = some p.1 := by rw [List.getElem?_map, hp, Option.map_some]
        have htake := perm_take hid
        rw [List.eraseIdx_map] at htake
        exact List.perm_middle.trans (htake.append_right s.recycling)
      · cases h
    · cases h
  | recycleErase i =>
    simp only [step] at h
    split at h
    · next id hid =>
      split at h
      · next hfree =>
        cases h
        refine .erase id _ (by simpa [State.view] using hfree) ?_
        exact List.perm_middle.symm.trans ((perm_take hid).append_left _)
      · cases h
    · cases h

/-! ## The invariant -/

/-- Another value in the place of a memtable: the id is its own, and it has not lost its entries. -/
structure Follows (m m' : MemTable) : Prop where
  id : m'.id = m.id
  entries : m.entryCount ≠ 0 → m'.entryCount ≠ 0

theorem insertAt_follows (id : ℕ) (w : KeyValuePair) (m : MemTable) : Follows m (insertAt id w m) := by
  unfold insertAt
  split
  · refine ⟨rfl, fun hm => ?_⟩
    show (m.tree.insert w).count ≠ 0
    rw [BPlusTree.insert]
    simp only []
    split
    · exact hm
    · exact Nat.succ_ne_zero _
  · exact ⟨rfl, fun hm => hm⟩

theorem addAbortedBatch_follows (ts : ℕ) (m : MemTable) : Follows m (m.addAbortedBatch ts) := ⟨rfl, id⟩

namespace View

def held (v : View) : ℕ :=
  match v.worker with
  | .holding _ | .flushed => 1
  | _ => 0

def heldIds (v : View) : List ℕ :=
  match v.worker with
  | .holding m => [m.id]
  | _ => []

/-- The ids of all memtables that are still known somewhere. While a thread freezes the active one is in the list. -/
def ids (v : View) : List ℕ :=
  v.tables.frozen.map MemTable.id ++
    ((if v.freezing then [] else [v.tables.active.id]) ++ (v.heldIds ++ v.recycled))

/-- The memtable waits in the list with entries, or is with the flush worker, or `DoFlush` has been called for it. -/
def Accounted (v : View) (m : MemTable) : Prop :=
  (∃ x ∈ v.tables.frozen, x.id = m.id ∧ x.entryCount ≠ 0) ∨ (∃ x, v.worker = .holding x ∧ x.id = m.id) ∨
    m.id ∈ v.attempted

structure Inv (v : View) : Prop where
  counts : v.pending + (if v.freezing then 1 else 0) = v.tables.frozen.length + v.held
  awake : v.worker = .awake → 0 < v.pending
  last : v.freezing = true → ∃ rest, v.tables.frozen = rest ++ [v.tables.active]
  nodup : v.ids.Nodup
  below : ∀ id ∈ v.ids, id < v.tables.nextId
  fresh : ∀ m ∈ v.frozenLog, m.id < v.tables.nextId ∧ m.id ≠ v.tables.active.id
  logged : ∀ m ∈ v.frozenLog, m.entryCount ≠ 0 → v.Accounted m

variable {v v' : View}

/-- The worker with another value of the memtable it holds. -/
def mapHeld (g : MemTable → MemTable) : WorkerStage → WorkerStage
  | .holding m => .holding (g m)
  | stage => stage

/-- A step that puts another value in the place of each memtable. -/
theorem Inv.follow (h : v.Inv) (f g : MemTable → MemTable) (hf : ∀ m, Follows m (f m)) (hg : ∀ m, Follows m (g m)) :
    Inv { v with
        tables := { v.tables with
          frozen := v.tables.frozen.map f
          active := f v.tables.active }
        worker := mapHeld g v.worker } := by
  obtain ⟨tables, pending, stage, recycled, freezing, log, attempted⟩ := v
  obtain ⟨hcounts, hawake, hlast, hnodup, hbelow, hfresh, hlogged⟩ := h
  have hids : (tables.frozen.map f).map MemTable.id = tables.frozen.map MemTable.id := by
    rw [List.map_map]
    exact List.map_congr_left fun m _ => (hf m).id
  have hactive := (hf tables.active).id
  have hsame : ids ⟨{ tables with
      frozen := tables.frozen.map f
      active := f tables.active }, pending, mapHeld g stage, recycled, freezing, log, attempted⟩ =
      ids ⟨tables, pending, stage, recycled, freezing, log, attempted⟩ := by
    cases stage <;> simp only [ids, heldIds, mapHeld, hids, hactive, (hg _).id]
  refine ⟨?_, ?_, fun hfreezing => ?_, hsame ▸ hnodup, hsame ▸ hbelow,
    fun m hm => ⟨(hfresh m hm).1, hactive.symm ▸ (hfresh m hm).2⟩, fun m hm hentries => ?_⟩
  · cases stage <;> simpa only [held, mapHeld, List.length_map] using hcounts
  · cases stage <;> simp_all [mapHeld]
  · obtain ⟨rest, hrest⟩ := hlast hfreezing
    have hlist : tables.frozen = rest ++ [tables.active] := hrest
    refine ⟨rest.map f, ?_⟩
    show tables.frozen.map f = rest.map f ++ [f tables.active]
    rw [hlist, List.map_append]
    rfl
  · rcases hlogged m hm hentries with ⟨x, hx, hid, hcount⟩ | ⟨x, hx, hid⟩ | hdone
    · exact .inl ⟨f x, List.mem_map_of_mem hx, (hf x).id.trans hid, (hf x).entries hcount⟩
    · obtain rfl : stage = .holding x := hx
      exact .inr (.inl ⟨g x, rfl, (hg x).id.trans hid⟩)
    · exact .inr (.inr hdone)

theorem Inv.freeze (h : v.Inv) (hfree : v.freezing = false) : Inv { v with
    tables := { v.tables with
      frozen := v.tables.frozen ++ [v.tables.active.freeze]
      active := v.tables.active.freeze }
    freezing := true } := by
  obtain ⟨tables, pending, stage, recycled, freezing, log, attempted⟩ := v
  obtain rfl : freezing = false := hfree
  obtain ⟨hcounts, hawake, -, hnodup, hbelow, hfresh, hlogged⟩ := h
  have hsame : ids ⟨{ tables with
      frozen := tables.frozen ++ [tables.active.freeze]
      active := tables.active.freeze }, pending, stage, recycled, true, log, attempted⟩ =
      ids ⟨tables, pending, stage, recycled, false, log, attempted⟩ := by
    simp only [ids, List.map_append, List.append_assoc, if_true]
    rfl
  refine ⟨?_, hawake, fun _ => ⟨tables.frozen, rfl⟩, hsame ▸ hnodup, hsame ▸ hbelow, hfresh,
    fun m hm hentries => ?_⟩
  · have hold : pending + 0 = tables.frozen.length + held ⟨tables, pending, stage, recycled, false, log, attempted⟩ :=
      hcounts
    show pending + 1 = (tables.frozen ++ [tables.active.freeze]).length + held ⟨tables, pending, stage, recycled, false, log,
      attempted⟩
    rw [List.length_append, List.length_singleton]
    omega
  · rcases hlogged m hm hentries with ⟨x, hx, hfound⟩ | hheld | hdone
    · exact .inl ⟨x, List.mem_append_left _ hx, hfound⟩
    · exact .inr (.inl hheld)
    · exact .inr (.inr hdone)

theorem Inv.count (h : v.Inv) (hfreezing : v.freezing = true) : Inv { v with
    tables := { v.tables with
      active := MemTable.new v.tables.nextId v.tables.maxBytes
      nextId := v.tables.nextId + 1 }
    pending := v.pending + 1
    freezing := false
    frozenLog := v.tables.active :: v.frozenLog } := by
  obtain ⟨tables, pending, stage, recycled, freezing, log, attempted⟩ := v
  obtain rfl : freezing = true := hfreezing
  obtain ⟨hcounts, hawake, hlast, hnodup, hbelow, hfresh, hlogged⟩ := h
  obtain ⟨rest, hrest⟩ := hlast rfl
  have hperm : (ids ⟨{ tables with
      active := MemTable.new tables.nextId tables.maxBytes
      nextId := tables.nextId + 1 }, pending + 1, stage, recycled, false, tables.active :: log, attempted⟩).Perm
      (tables.nextId :: ids ⟨tables, pending, stage, recycled, true, log, attempted⟩) := List.perm_middle
  have hactive : tables.active.id < tables.nextId := by
    refine hbelow _ (List.mem_append_left _ (List.mem_map_of_mem (f := MemTable.id) ?_))
    show tables.active ∈ tables.frozen
    have hlist : tables.frozen = rest ++ [tables.active] := hrest
    rw [hlist]
    exact List.mem_append_right _ List.mem_cons_self
  refine ⟨hcounts, fun _ => Nat.succ_pos pending, nofun, ?_, fun id hid => ?_, fun m hm => ?_, fun m hm hentries => ?_⟩
  · exact hperm.nodup_iff.mpr (List.nodup_cons.mpr ⟨fun hmem => Nat.lt_irrefl _ (hbelow _ hmem), hnodup⟩)
  · rcases List.mem_cons.mp (hperm.mem_iff.mp hid) with rfl | hold
    · exact Nat.lt_succ_self _
    · exact Nat.lt_succ_of_lt (hbelow id hold)
  · rcases List.mem_cons.mp hm with rfl | hold
    · exact ⟨Nat.lt_succ_of_lt hactive, Nat.ne_of_lt hactive⟩
    · exact ⟨Nat.lt_succ_of_lt (hfresh m hold).1, Nat.ne_of_lt (hfresh m hold).1⟩
  · rcases List.mem_cons.mp hm with rfl | hold
    · refine .inl ⟨tables.active, ?_, rfl, hentries⟩
      show tables.active ∈ tables.frozen
      have hlist : tables.frozen = rest ++ [tables.active] := hrest
      rw [hlist]
      exact List.mem_append_right _ List.mem_cons_self
    · exact hlogged m hold hentries

/-- The worker takes the front memtable; one without entries is dropped. -/
theorem Inv.pop (h : v.Inv) (hfree : v.freezing = false) (hworker : v.worker = .awake) {m : MemTable}
    {rest : List MemTable} (hcons : v.tables.frozen = m :: rest) : Inv { v with
      tables := { v.tables with frozen := rest }
      worker := if m.entryCount = 0 then .flushed else .holding m } := by
  obtain ⟨⟨frozen, active, nextId, maxBytes⟩, pending, stage, recycled, freezing, log, attempted⟩ := v
  obtain rfl : freezing = false := hfree
  obtain rfl : stage = .awake := hworker
  obtain rfl : frozen = m :: rest := hcons
  obtain ⟨hcounts, -, -, hnodup, hbelow, hfresh, hlogged⟩ := h
  have hcounts' : pending + 0 = (m :: rest).length + 0 := hcounts
  rw [List.length_cons] at hcounts'
  have hold : ids ⟨⟨m :: rest, active, nextId, maxBytes⟩, pending, .awake, recycled, false, log, attempted⟩ =
      m.id :: (rest.map MemTable.id ++ ([active.id] ++ recycled)) := rfl
  rw [hold] at hnodup hbelow
  by_cases hempty : m.entryCount = 0
  · rw [if_pos hempty]
    refine ⟨?_, nofun, nofun, (List.nodup_cons.mp hnodup).2, fun id hid => hbelow id (List.mem_cons_of_mem _ hid),
      hfresh, fun x hx hentries => ?_⟩
    · show pending + 0 = rest.length + 1
      omega
    · rcases hlogged x hx hentries with ⟨y, hy, hid, hcount⟩ | ⟨y, hy, -⟩ | hdone
      · rcases List.mem_cons.mp hy with rfl | hin
        · exact absurd hempty hcount
        · exact .inl ⟨y, hin, hid, hcount⟩
      · cases hy
      · exact .inr (.inr hdone)
  · rw [if_neg hempty]
    have hperm : (ids ⟨⟨rest, active, nextId, maxBytes⟩, pending, .holding m, recycled, false, log, attempted⟩).Perm
        (m.id :: (rest.map MemTable.id ++ ([active.id] ++ recycled))) := by
      show (rest.map MemTable.id ++ ([active.id] ++ (m.id :: recycled))).Perm _
      rw [← List.append_assoc, ← List.append_assoc]
      exact List.perm_middle
    refine ⟨?_, nofun, nofun, hperm.nodup_iff.mpr hnodup, fun id hid => hbelow id (hperm.mem_iff.mp hid),
      hfresh, fun x hx hentries => ?_⟩
    · show pending + 0 = rest.length + 1
      omega
    · rcases hlogged x hx hentries with ⟨y, hy, hid, hcount⟩ | ⟨y, hy, -⟩ | hdone
      · rcases List.mem_cons.mp hy with rfl | hin
        · exact .inr (.inl ⟨y, rfl, hid⟩)
        · exact .inl ⟨y, hin, hid, hcount⟩
      · cases hy
      · exact .inr (.inr hdone)

theorem nodup_of_subperm {xs ys : List ℕ} (h : xs.Subperm ys) (hys : ys.Nodup) : xs.Nodup := by
  obtain ⟨zs, hperm, hsub⟩ := h
  exact hperm.nodup_iff.mp (hsub.nodup hys)

/-- `DoFlush` has been called; the memtable may or may not be left to be recycled. -/
theorem Inv.flushed (h : v.Inv) {m : MemTable} (hworker : v.worker = .holding m) {recycled : List ℕ}
    (hids : recycled.Perm (m.id :: v.recycled) ∨ recycled = v.recycled) : Inv { v with
      worker := .flushed
      recycled := recycled
      attempted := m.id :: v.attempted } := by
  obtain ⟨tables, pending, stage, old, freezing, log, attempted⟩ := v
  obtain rfl : stage = .holding m := hworker
  obtain ⟨hcounts, -, hlast, hnodup, hbelow, hfresh, hlogged⟩ := h
  have hsub : (ids ⟨tables, pending, .flushed, recycled, freezing, log, m.id :: attempted⟩).Subperm
      (ids ⟨tables, pending, .holding m, old, freezing, log, attempted⟩) := by
    refine (List.subperm_append_left _).mpr ((List.subperm_append_left _).mpr ?_)
    rcases hids with hperm | rfl
    · exact hperm.subperm
    · exact (List.sublist_cons_self _ _).subperm
  refine ⟨hcounts, nofun, hlast, nodup_of_subperm hsub hnodup, fun id hid => hbelow id (hsub.subset hid), hfresh,
    fun x hx hentries => ?_⟩
  rcases hlogged x hx hentries with hin | ⟨y, hy, hid⟩ | hdone
  · exact .inl hin
  · cases hy
    exact .inr (.inr (hid ▸ List.mem_cons_self))
  · exact .inr (.inr (List.mem_cons_of_mem _ hdone))

theorem Inv.release (h : v.Inv) (hworker : v.worker = .flushed) : Inv { v with
    pending := v.pending - 1
    worker := .waiting } := by
  obtain ⟨tables, pending, stage, recycled, freezing, log, attempted⟩ := v
  obtain rfl : stage = .flushed := hworker
  obtain ⟨hcounts, -, hlast, hnodup, hbelow, hfresh, hlogged⟩ := h
  have hcounts' : pending + (if freezing then 1 else 0) = tables.frozen.length + 1 := hcounts
  refine ⟨?_, nofun, hlast, hnodup, hbelow, hfresh, fun m hm hentries => ?_⟩
  · show pending - 1 + (if freezing then 1 else 0) = tables.frozen.length + 0
    cases freezing with
    | false =>
      simp only [Bool.false_eq_true, if_false] at hcounts' ⊢
      omega
    | true =>
      obtain ⟨rest, hrest⟩ := hlast rfl
      have hlist : tables.frozen = rest ++ [tables.active] := hrest
      rw [hlist, List.length_append, List.length_singleton, if_pos rfl] at hcounts' ⊢
      omega
  · rcases hlogged m hm hentries with hin | ⟨x, hx, -⟩ | hdone
    · exact .inl hin
    · cases hx
    · exact .inr (.inr hdone)

/-- What has been taken to be recycled is not found in the list. -/
theorem Inv.erase (h : v.Inv) {id : ℕ} {recycled : List ℕ} (hperm : (id :: recycled).Perm v.recycled) : Inv { v with
    tables := { v.tables with frozen := v.tables.frozen.eraseP fun m => decide (m.id = id) }
    recycled := recycled } := by
  obtain ⟨tables, pending, stage, old, freezing, log, attempted⟩ := v
  obtain ⟨hcounts, hawake, hlast, hnodup, hbelow, hfresh, hlogged⟩ := h
  have hsub : recycled.Sublist (id :: recycled) := List.sublist_cons_self _ _
  have hin : id ∈ old := hperm.mem_iff.mp List.mem_cons_self
  have hnot : ∀ m ∈ tables.frozen, m.id ≠ id := by
    intro m hm heq
    refine (List.nodup_append.mp hnodup).2.2 m.id (List.mem_map_of_mem hm) id ?_ heq
    exact List.mem_append_right _ (List.mem_append_right _ hin)
  have hsame : tables.frozen.eraseP (fun m => decide (m.id = id)) = tables.frozen :=
    List.eraseP_of_forall_not fun m hm => by simpa using hnot m hm
  have hless : (ids ⟨tables, pending, stage, recycled, freezing, log, attempted⟩).Subperm
      (ids ⟨tables, pending, stage, old, freezing, log, attempted⟩) :=
    (List.subperm_append_left _).mpr ((List.subperm_append_left _).mpr ((List.subperm_append_left _).mpr
      (hsub.subperm.trans hperm.subperm)))
  rw [hsame]
  exact ⟨hcounts, hawake, hlast, nodup_of_subperm hless hnodup, fun x hx => hbelow x (hless.subset hx), hfresh, hlogged⟩

theorem Inv.wake (h : v.Inv) (hworker : v.worker = .waiting) (hpending : 0 < v.pending) :
    Inv { v with worker := .awake } := by
  obtain ⟨tables, pending, stage, recycled, freezing, log, attempted⟩ := v
  obtain rfl : stage = .waiting := hworker
  obtain ⟨hcounts, -, hlast, hnodup, hbelow, hfresh, hlogged⟩ := h
  refine ⟨hcounts, fun _ => hpending, hlast, hnodup, hbelow, hfresh, fun m hm hentries => ?_⟩
  rcases hlogged m hm hentries with hin | ⟨x, hx, -⟩ | hdone
  · exact .inl hin
  · cases hx
  · exact .inr (.inr hdone)

theorem Inv.recycle (h : v.Inv) {recycled : List ℕ} (hperm : recycled.Perm v.recycled) :
    Inv { v with recycled := recycled } := by
  obtain ⟨tables, pending, stage, old, freezing, log, attempted⟩ := v
  obtain ⟨hcounts, hawake, hlast, hnodup, hbelow, hfresh, hlogged⟩ := h
  have hids : (ids ⟨tables, pending, stage, recycled, freezing, log, attempted⟩).Perm
      (ids ⟨tables, pending, stage, old, freezing, log, attempted⟩) :=
    ((hperm.append_left _).append_left _).append_left _
  exact ⟨hcounts, hawake, hlast, hids.nodup_iff.mpr hnodup, fun id hid => hbelow id (hids.mem_iff.mp hid), hfresh, hlogged⟩

theorem Inv.change (h : v.Inv) (hchange : Change v v') : v'.Inv := by
  cases hchange with
  | still => exact h
  | insert id w =>
    have hinsert := h.follow (insertAt id w) (insertAt id w) (insertAt_follows id w) (insertAt_follows id w)
    obtain ⟨tables, pending, stage, recycled, freezing, log, attempted⟩ := v
    cases stage <;> exact hinsert
  | abort ts hfree =>
    have habort := h.follow (fun m => m.addAbortedBatch ts) (fun m => m) (addAbortedBatch_follows ts)
      fun m => ⟨rfl, fun hm => hm⟩
    obtain ⟨tables, pending, stage, recycled, freezing, log, attempted⟩ := v
    cases stage <;> exact habort
  | freeze hfree _ => exact h.freeze hfree
  | count hfreezing => exact h.count hfreezing
  | wake hworker hpending => exact h.wake hworker hpending
  | popNone hfree hworker hnil =>
    -- The counter is positive, and nothing else than the list can account for it.
    have hcounts := h.counts
    have hpending := h.awake hworker
    rw [hfree, hnil, held, hworker] at hcounts
    simp only [Bool.false_eq_true, if_false, List.length_nil] at hcounts
    omega
  | pop m rest hfree hworker hcons => exact h.pop hfree hworker hcons
  | flush m ids hworker hperm => exact h.flushed hworker (.inl hperm)
  | flushThrow m hworker => exact h.flushed hworker (.inr rfl)
  | release hworker => exact h.release hworker
  | recycle ids hperm => exact h.recycle hperm
  | erase id ids _ hperm => exact h.erase hperm

/-! ## Memtables without entries -/

/-- The memtable is as it was made, but for aborted batches. -/
structure Blank (m : MemTable) : Prop where
  firstLeaf : m.tree.firstLeaf = ⟨[]⟩
  rest : m.tree.rest = []
  usage : m.tree.memoryUsage = 0

theorem insert_count {tree : BPlusTree} (hleaf : tree.firstLeaf = ⟨[]⟩) (hrest : tree.rest = []) (w : KeyValuePair) :
    (tree.insert w).count = tree.count + 1 := by
  rw [BPlusTree.insert, hleaf, hrest]
  rfl

/-- A memtable with a limit above zero has entries when it is full. -/
structure Filled (limit : ℕ) (v : View) : Prop where
  maxBytes : v.tables.maxBytes = limit
  active : v.tables.active.maxBytes = limit
  blank : v.tables.active.entryCount = 0 → Blank v.tables.active
  freezing : v.freezing = true → v.tables.active.entryCount ≠ 0
  log : ∀ m ∈ v.frozenLog, m.entryCount ≠ 0

theorem Filled.change {limit : ℕ} (hlimit : 0 < limit) (h : v.Filled limit) (hchange : Change v v') : v'.Filled limit := by
  obtain ⟨hmax, hactive, hblank, hfreezing, hlog⟩ := h
  cases hchange with
  | insert id w =>
    have hfollows := insertAt_follows id w v.tables.active
    refine ⟨hmax, ?_, fun hcount => ?_, fun hf => hfollows.entries (hfreezing hf), hlog⟩
    · show (insertAt id w v.tables.active).maxBytes = limit
      unfold insertAt
      split <;> exact hactive
    · have hold : v.tables.active.entryCount = 0 := by
        by_contra hne
        exact hfollows.entries hne hcount
      have hsame := hblank hold
      replace hcount : (insertAt id w v.tables.active).entryCount = 0 := hcount
      show Blank (insertAt id w v.tables.active)
      unfold insertAt at hcount ⊢
      split at hcount
      · have hone := insert_count hsame.firstLeaf hsame.rest w
        have hzero : (v.tables.active.tree.insert w).count = 0 := hcount
        omega
      · next hother =>
        rw [if_neg hother]
        exact hsame
  | abort ts _ =>
    refine ⟨hmax, hactive, fun hcount => ?_, hfreezing, hlog⟩
    obtain ⟨hleaf, hrest, husage⟩ := hblank hcount
    exact ⟨hleaf, hrest, husage⟩
  | freeze _ hfreezes =>
    have hentries : v.tables.active.entryCount ≠ 0 := by
      rcases hfreezes with hfull | hentries
      · intro hzero
        have husage := (hblank hzero).usage
        have hle : v.tables.active.maxBytes ≤ v.tables.active.tree.memoryUsage := of_decide_eq_true hfull
        omega
      · exact hentries
    exact ⟨hmax, hactive, fun hzero => absurd hzero hentries, fun _ => hentries, hlog⟩
  | count hf =>
    refine ⟨hmax, hmax, fun _ => ⟨rfl, rfl, rfl⟩, nofun, fun m hm => ?_⟩
    rcases List.mem_cons.mp hm with rfl | hold
    · exact hfreezing hf
    · exact hlog m hold
  | still | wake | popNone | pop | flush | flushThrow | release | recycle | erase =>
    exact ⟨hmax, hactive, hblank, hfreezing, hlog⟩

end View

theorem inv_init (cfg : EngineConfig) (n : ℕ) : (init cfg n).view.Inv where
  counts := rfl
  awake := nofun
  last := nofun
  nodup := List.nodup_singleton _
  below := fun id hid => by
    obtain rfl := List.mem_singleton.mp hid
    exact Nat.one_pos
  fresh := nofun
  logged := nofun

theorem filled_init (cfg : EngineConfig) (n : ℕ) : (init cfg n).view.Filled cfg.memtableMaxBytes :=
  ⟨rfl, rfl, fun _ => ⟨rfl, rfl, rfl⟩, nofun, nofun⟩

/-- With nothing pending, `DoFlush` has been called for all memtables that had entries when they were frozen. -/
theorem View.Inv.attempted_of_none {v : View} (h : v.Inv) (hnone : v.pending = 0) {m : MemTable} (hm : m ∈ v.frozenLog)
    (hentries : m.entryCount ≠ 0) : m.id ∈ v.attempted := by
  have hcounts := h.counts
  rcases h.logged m hm hentries with ⟨x, hx, hid, -⟩ | ⟨x, hx, -⟩ | hdone
  · exfalso
    have hpos := List.length_pos_of_mem hx
    cases hfreezing : v.freezing with
    | false =>
      rw [hfreezing] at hcounts
      simp only [Bool.false_eq_true, if_false] at hcounts
      omega
    | true =>
      -- The only memtable in the list is the one that a thread is freezing.
      obtain ⟨rest, hrest⟩ := h.last hfreezing
      rw [hfreezing, if_pos rfl, hrest, List.length_append, List.length_singleton] at hcounts
      obtain rfl : rest = [] := List.length_eq_zero_iff.mp (by omega)
      rw [hrest, List.nil_append, List.mem_singleton] at hx
      exact (h.fresh m hm).2 (hx ▸ hid.symm)
  · exfalso
    have hheld : v.held = 1 := by rw [View.held, hx]
    rw [hheld] at hcounts
    cases hfreezing : v.freezing with
    | false =>
      rw [hfreezing] at hcounts
      simp only [Bool.false_eq_true, if_false] at hcounts
      omega
    | true =>
      obtain ⟨rest, hrest⟩ := h.last hfreezing
      rw [hfreezing, if_pos rfl, hrest, List.length_append, List.length_singleton] at hcounts
      omega
  · exact hdone

/-- In every interleaving the counter is the number of the frozen memtables whose freeze is over and of the one that the
flush worker holds. Where it is zero, and `WaitForPendingFlushes` returns, `DoFlush` has been called for every frozen
memtable that had entries; a memtable without entries is frozen only if the limit of their size is zero. -/
theorem pending_counts (cfg : EngineConfig) {acts : List (Action n)} (h : Run step anyStep (init cfg n) acts s) :
    s.base.pending = (settled s).length + held s ∧
      (s.base.pending = 0 → (∀ m ∈ s.frozenLog, m.entryCount ≠ 0 → m.id ∈ s.attempted) ∧
        (0 < cfg.memtableMaxBytes → ∀ m ∈ s.frozenLog, m.id ∈ s.attempted)) := by
  have hinv := h.invariant (I := fun s => s.view.Inv) (fun _ _ _ _ hstep hs => hs.change (step_change hstep))
    (inv_init cfg n)
  refine ⟨?_, fun hnone => ⟨fun m hm hentries => hinv.attempted_of_none hnone hm hentries, fun hlimit m hm => ?_⟩⟩
  · have hcounts : s.base.pending + (if s.freezing.isSome then 1 else 0) =
        s.base.engine.frozenMemtables.length + held s := hinv.counts
    unfold settled
    cases hfreezing : s.freezing.isSome with
    | false =>
      rw [hfreezing] at hcounts
      exact hcounts
    | true =>
      obtain ⟨rest, hrest⟩ := hinv.last hfreezing
      have hlist : s.base.engine.frozenMemtables = rest ++ [s.base.engine.activeMemtable] := hrest
      rw [hfreezing, if_pos rfl, hlist, List.length_append, List.length_singleton] at hcounts
      rw [if_pos rfl, hlist, List.dropLast_concat]
      omega
  · have hfilled := h.invariant (I := fun s => s.view.Filled cfg.memtableMaxBytes)
      (fun _ _ _ _ hstep hs => hs.change hlimit (step_change hstep)) (filled_init cfg n)
    exact hinv.attempted_of_none hnone hm (hfilled.log m hm)

/-- An insertion by the thread `k` up to its freeze. -/
def insertSteps (k : Fin n) (key : Bytes) : List (Action n) :=
  [.startWrite key [0] false, .bufferWrite, .loadActive, .checkFrozen, .treeInsert].map fun a => .base (.call k a)

def workerSteps (as : List FrozenBound.WorkerAction) : List (Action n) := as.map fun a => .base (.worker a)

/-- An insertion fills the memtable, and the flush worker writes it. -/
def oneFlush : List (Action 2) :=
  insertSteps 0 [1] ++ [.freeze 0, .count 0] ++ workerSteps [.wake, .pop, .doFlush, .release]

theorem oneFlush_attempted : ∃ s, Run step anyStep (init FrozenBound.tinyConfig 2) oneFlush s ∧ s.base.pending = 0 ∧
    s.frozenLog.length = 1 ∧ ∀ m ∈ s.frozenLog, m.id ∈ s.attempted := by
  have hexists : ∃ s, Run step anyStep (init FrozenBound.tinyConfig 2) oneFlush s ∧ s.base.pending = 0 ∧
      s.frozenLog.length = 1 := Run.exists_of_checked (by decide)
  obtain ⟨s, hrun, hnone, hone⟩ := hexists
  exact ⟨s, hrun, hnone, hone, ((pending_counts FrozenBound.tinyConfig hrun).2 hnone).2 (by decide)⟩

/-- Two insertions into a memtable whose limit is zero: the second freeze finds a new memtable, which is full without an
entry. -/
def emptyFreeze : List (Action 2) :=
  insertSteps 0 [1] ++ insertSteps 1 [2] ++ [.freeze 0, .count 0, .freeze 1, .count 1] ++
    workerSteps [.wake, .pop, .doFlush, .release, .wake, .pop, .release]

/-- Nothing is pending, and `DoFlush` has not been called for one of the two frozen memtables. -/
theorem emptyFreeze_skipped : ∃ s, Run step anyStep (init { smallConfig with memtableMaxBytes := 0 } 2) emptyFreeze s ∧
    s.base.pending = 0 ∧ ¬ ∀ m ∈ s.frozenLog, m.id ∈ s.attempted :=
  Run.exists_of_checked (by decide)

end Kvdb.PendingFlushes
