import Kvdb.Engine.Provenance
import Kvdb.Engine.RangeIterator
import Kvdb.Lib.Runs

/-! # Isolation of a batch in progress

Batch writes, normal writes, flushes, lookups, commits and aborts in any order. What hides a batch
from readers is only that `global_ts_` stays below its timestamp. A normal write waits while
`global_ts_ + 1 > batch_ts_`, so it is let through when `global_ts_ + 1 = batch_ts_`, and readers then
see the batch. -/
namespace Kvdb.BatchIsolation
set_option autoImplicit false

open Kvdb.Runs Kvdb.Engine

/-- The engine, and every version written to it so far. -/
structure State where
  engine : Engine
  writes : List KeyValuePair

inductive Action where
  | insert (key value : Bytes)
  | delete (key : Bytes)
  | startBatch
  | batchInsert (key value : Bytes)
  | batchDelete (key : Bytes)
  | commitBatchAsync
  | commitBatchFinalize
  | abortBatch
  | sync (force : Bool)
  | rotate
  | flushWorker
  | lookup (key : Bytes)
  | evict (keepHeavy : ℕ → Bool) (keepBlock : ℕ → ℕ → Bool)

def init (cfg : EngineConfig) : State := ⟨Engine.create cfg, []⟩

/-- The state after a write that returned, with the version it wrote. -/
def afterWrite (s : State) (w : KeyValuePair) : Outcome (Engine × ℕ) → Option State
  | .returned (e, _) => some ⟨e, s.writes ++ [w]⟩
  | _ => none

def step (s : State) : Action → Option State
  | .insert key value =>
    afterWrite s ⟨key, value, s.engine.globalTs + 1, false⟩ (s.engine.insert key value)
  | .delete key => afterWrite s ⟨key, [], s.engine.globalTs + 1, true⟩ (s.engine.delete key)
  | .startBatch => some { s with engine := s.engine.startBatch.2 }
  | .batchInsert key value =>
    afterWrite s ⟨key, value, s.engine.batchTs, false⟩ (s.engine.batchInsert key value)
  | .batchDelete key => afterWrite s ⟨key, [], s.engine.batchTs, true⟩ (s.engine.batchDelete key)
  | .commitBatchAsync => some { s with engine := s.engine.commitBatchAsync.2 }
  | .commitBatchFinalize => some { s with engine := s.engine.commitBatchFinalize.2 }
  | .abortBatch => some { s with engine := s.engine.abortBatch.2 }
  | .sync force => some { s with engine := s.engine.syncWorker force }
  | .rotate => some { s with engine := s.engine.rotate }
  | .flushWorker => some { s with engine := s.engine.flushWorker }
  | .lookup key => some { s with engine := (s.engine.lookup key).2 }
  | .evict keepHeavy keepBlock =>
    some { s with engine := { s.engine with
      sstCache := s.engine.sstCache.map fun c => c.evict keepHeavy keepBlock } }

/-- No reader that starts now sees the batch: the timestamp it takes is below the batch's, so at any
later time its lookup returns the value of a version below the batch, and its scan yields only such
versions. -/
def Isolated (s : State) : Prop :=
  s.engine.batchInProgress = true →
    s.engine.globalTs < s.engine.batchTs ∧
    (∀ acts s', Run step anyStep s acts s' → ∀ key v,
      (s'.engine.lookupAt key s.engine.globalTs).1 = some v →
        ∃ w ∈ s'.writes, w.key = key ∧ w.value = v ∧ w.timestamp < s.engine.batchTs) ∧
    ∀ lower upper sources, ∀ w ∈ RangeIterator.results s.engine.globalTs lower upper sources,
      w.timestamp < s.engine.batchTs

/-- The condition on a step: the timestamp of a batch does not wrap, and during a batch a normal
write finds `global_ts_` at least two below the batch. -/
def Allowed (s : State) : Action → Prop
  | .insert _ _ => s.engine.batchInProgress = true → s.engine.globalTs + 1 < s.engine.batchTs
  | .delete _ => s.engine.batchInProgress = true → s.engine.globalTs + 1 < s.engine.batchTs
  | .startBatch => s.engine.batchInProgress = false →
      s.engine.globalTs + s.engine.cfg.batchIncrementGap < 2 ^ 64
  | _ => True

instance decidableAllowed (s : State) (a : Action) : Decidable (Allowed s a) := by
  cases a <;> unfold Allowed <;> infer_instance

/-! ## Provenance over a run -/

def Stem (s : State) : Prop := Stems (fun w => w ∈ s.writes) s.engine

/-- A step that writes nothing. -/
theorem Stems.congr {W : KeyValuePair → Prop} {e e' : Engine} (h : Stems W e)
    (hactive : e'.activeMemtable.entries = e.activeMemtable.entries)
    (hfrozen : ∀ m ∈ e'.frozenMemtables, ∃ m' ∈ e.frozenMemtables, m.entries = m'.entries)
    (hfiles : e'.files = e.files) (hcache : e'.sstCache = e.sstCache) (hkv : e'.kvCache = e.kvCache) :
    Stems W e' := by
  refine ⟨?_, ?_, ?_, ?_, ?_⟩
  · rw [hactive]
    exact h.active
  · intro m hm x hx
    obtain ⟨m', hm', heq⟩ := hfrozen m hm
    exact h.frozen m' hm' x (heq ▸ hx)
  · rw [hfiles]
    exact h.files
  · rw [hcache]
    exact h.cache
  · rw [hkv]
    exact h.kv

theorem Stem.extend {s : State} (h : Stem s) (w : KeyValuePair) :
    Stems (fun x => x ∈ s.writes ++ [w]) s.engine ∧ w ∈ s.writes ++ [w] :=
  ⟨Engine.Stems.mono h fun _ hx => List.mem_append_left _ hx, List.mem_append_right _ List.mem_cons_self⟩

theorem afterWrite_eq_some {s t : State} {w : KeyValuePair} {o : Outcome (Engine × ℕ)}
    (h : afterWrite s w o = some t) : ∃ e n, o = .returned (e, n) ∧ t = ⟨e, s.writes ++ [w]⟩ := by
  cases o with
  | returned r =>
    cases h
    exact ⟨r.1, r.2, rfl, rfl⟩
  | threw what => cases h
  | waiting => cases h

theorem batchInsert_returned {e e' : Engine} {key value : Bytes} {n : ℕ}
    (h : e.batchInsert key value = .returned (e', n)) : e' = e.batchWrite key value false := by
  unfold batchInsert at h
  split at h
  · cases h
  · split at h
    · cases h
    · cases h
      rfl

theorem batchDelete_returned {e e' : Engine} {key : Bytes} {n : ℕ}
    (h : e.batchDelete key = .returned (e', n)) : e' = e.batchWrite key [] true := by
  unfold batchDelete at h
  split at h
  · cases h
  · cases h
    rfl

theorem stems_batchWrite {W : KeyValuePair → Prop} {e : Engine} (h : Stems W e) (key value : Bytes)
    (isTombstone : Bool) (hW : W ⟨key, value, e.batchTs, isTombstone⟩) :
    Stems W (e.batchWrite key value isTombstone) :=
  Engine.Stems.applyWrite (e := { e with batchTouched := true })
    ⟨h.active, h.frozen, h.files, h.cache, h.kv⟩ key value isTombstone _ hW

theorem stems_abortBatch {W : KeyValuePair → Prop} {e : Engine} (h : Stems W e) :
    Stems W e.abortBatch.2 := by
  unfold abortBatch
  split
  · simp only []
    split
    · refine Stems.congr h rfl ?_ rfl rfl rfl
      intro m hm
      obtain ⟨m', hm', rfl⟩ := List.mem_map.mp hm
      exact ⟨m', hm', rfl⟩
    · exact Stems.congr h rfl (fun m hm => ⟨m, hm, rfl⟩) rfl rfl rfl
  · exact h

theorem Stem.step {s t : State} {a : Action} (h : Stem s) (hs : step s a = some t) : Stem t := by
  cases a with
  | insert key value =>
    obtain ⟨e, n, hret, rfl⟩ := afterWrite_eq_some hs
    obtain ⟨hext, hw⟩ := h.extend ⟨key, value, s.engine.globalTs + 1, false⟩
    exact hext.insert hret hw
  | delete key =>
    obtain ⟨e, n, hret, rfl⟩ := afterWrite_eq_some hs
    obtain ⟨hext, hw⟩ := h.extend ⟨key, [], s.engine.globalTs + 1, true⟩
    exact hext.delete hret hw
  | batchInsert key value =>
    obtain ⟨e, n, hret, rfl⟩ := afterWrite_eq_some hs
    obtain ⟨hext, hw⟩ := h.extend ⟨key, value, s.engine.batchTs, false⟩
    rw [Stem, batchInsert_returned hret]
    exact stems_batchWrite hext key value false hw
  | batchDelete key =>
    obtain ⟨e, n, hret, rfl⟩ := afterWrite_eq_some hs
    obtain ⟨hext, hw⟩ := h.extend ⟨key, [], s.engine.batchTs, true⟩
    rw [Stem, batchDelete_returned hret]
    exact stems_batchWrite hext key [] true hw
  | startBatch =>
    cases hs
    unfold Stem startBatch
    simp only []
    split
    · exact h
    · exact Stems.congr h rfl (fun m hm => ⟨m, hm, rfl⟩) rfl rfl rfl
  | commitBatchAsync =>
    cases hs
    unfold Stem commitBatchAsync
    simp only []
    split
    · exact Stems.congr h rfl (fun m hm => ⟨m, hm, rfl⟩) rfl rfl rfl
    · exact h
  | commitBatchFinalize =>
    cases hs
    unfold Stem commitBatchFinalize
    simp only []
    split
    · exact Stems.congr h rfl (fun m hm => ⟨m, hm, rfl⟩) rfl rfl rfl
    · exact h
  | abortBatch =>
    cases hs
    exact stems_abortBatch h
  | sync force =>
    cases hs
    exact Stems.congr h rfl (fun m hm => ⟨m, hm, rfl⟩) rfl rfl rfl
  | rotate =>
    cases hs
    exact Engine.Stems.rotate h
  | flushWorker =>
    cases hs
    exact Engine.Stems.flushWorker h
  | lookup key =>
    cases hs
    exact (Engine.Stems.lookupAt h key s.engine.globalTs).1
  | evict keepHeavy keepBlock =>
    cases hs
    exact ⟨h.active, h.frozen, h.files, h.cache.evict keepHeavy keepBlock, h.kv⟩

theorem init_stem (cfg : EngineConfig) : Stem (init cfg) := by
  refine ⟨?_, ?_, ?_, ?_, KVCache.new_holds _ _ _ _ _⟩
  · intro x hx
    cases hx
  · intro m hm
    cases hm
  · intro n f hf
    cases hf
  · intro c hc seq idx b hb
    cases hc
    cases hb

/-! ## The timestamp of a batch in progress -/

/-- The batch in progress lies above `global_ts_`. -/
structure Below (cfg : EngineConfig) (s : State) : Prop where
  cfg : s.engine.cfg = cfg
  lt : s.engine.batchInProgress = true → s.engine.globalTs < s.engine.batchTs

/-- The members that decide whether a batch is hidden. -/
def counters (e : Engine) : EngineConfig × Bool × ℕ × ℕ :=
  (e.cfg, e.batchInProgress, e.globalTs, e.batchTs)

theorem Below.congr {cfg : EngineConfig} {s t : State} (h : Below cfg s)
    (hc : counters t.engine = counters s.engine) : Below cfg t := by
  simp only [counters, Prod.mk.injEq] at hc
  refine ⟨hc.1.trans h.cfg, ?_⟩
  rw [hc.2.1, hc.2.2.1, hc.2.2.2]
  exact h.lt

theorem counters_applyWrite (e : Engine) (key value : Bytes) (isTombstone : Bool) (ts : ℕ) :
    counters (e.applyWrite key value isTombstone ts) = counters e := by
  unfold applyWrite freezeIfFull
  split <;> rfl

theorem counters_doFlush (e : Engine) (m : MemTable) : counters (e.doFlush m) = counters e := by
  rcases e.doFlush_cases m with ⟨-, heq⟩ | ⟨-, md, cache, -, heq⟩
  · rw [heq]
  · rw [heq]
    rfl

theorem counters_flushWorker (e : Engine) : counters e.flushWorker = counters e := by
  unfold flushWorker
  split
  · rfl
  · simp only []
    split
    · exact counters_doFlush _ _
    · rfl

theorem counters_lookupAt (e : Engine) (key : Bytes) (readTs : ℕ) :
    counters (e.lookupAt key readTs).2 = counters e := by
  unfold lookupAt
  split
  · rfl
  · split
    · split <;> rfl
    · rfl

theorem counters_written (e : Engine) (key value : Bytes) (isTombstone : Bool) :
    counters (e.written key value isTombstone) = (e.cfg, e.batchInProgress, e.globalTs + 1, e.batchTs) :=
  counters_applyWrite e.tick key value isTombstone (e.globalTs + 1)

theorem Below.write {cfg : EngineConfig} {s t : State} (h : Below cfg s)
    (hc : counters t.engine =
      (s.engine.cfg, s.engine.batchInProgress, s.engine.globalTs + 1, s.engine.batchTs))
    (hok : s.engine.batchInProgress = true → s.engine.globalTs + 1 < s.engine.batchTs) : Below cfg t := by
  simp only [counters, Prod.mk.injEq] at hc
  refine ⟨hc.1.trans h.cfg, ?_⟩
  rw [hc.2.1, hc.2.2.1, hc.2.2.2]
  exact hok

theorem Below.startBatch {cfg : EngineConfig} {s : State} (h : Below cfg s)
    (hgap : 1 ≤ cfg.batchIncrementGap)
    (hok : s.engine.batchInProgress = false →
      s.engine.globalTs + s.engine.cfg.batchIncrementGap < 2 ^ 64) :
    Below cfg { s with engine := s.engine.startBatch.2 } := by
  unfold Engine.startBatch
  split
  · exact h
  · next hfree =>
    refine ⟨h.cfg, ?_⟩
    intro _
    show s.engine.globalTs < (s.engine.globalTs + s.engine.cfg.batchIncrementGap) % 2 ^ 64
    rw [Nat.mod_eq_of_lt (hok (Bool.not_eq_true _ ▸ hfree)), h.cfg]
    omega

theorem Below.step {cfg : EngineConfig} {s t : State} {a : Action} (h : Below cfg s)
    (hgap : 1 ≤ cfg.batchIncrementGap) (hok : Allowed s a) (hs : step s a = some t) : Below cfg t := by
  cases a with
  | insert key value =>
    obtain ⟨e, n, hret, rfl⟩ := afterWrite_eq_some hs
    obtain ⟨-, -, rfl⟩ := insert_returned hret
    exact h.write (counters_written _ _ _ _) hok
  | delete key =>
    obtain ⟨e, n, hret, rfl⟩ := afterWrite_eq_some hs
    obtain ⟨-, -, rfl⟩ := delete_returned hret
    exact h.write (counters_written _ _ _ _) hok
  | batchInsert key value =>
    obtain ⟨e, n, hret, rfl⟩ := afterWrite_eq_some hs
    rw [batchInsert_returned hret]
    exact h.congr (counters_applyWrite _ _ _ _ _)
  | batchDelete key =>
    obtain ⟨e, n, hret, rfl⟩ := afterWrite_eq_some hs
    rw [batchDelete_returned hret]
    exact h.congr (counters_applyWrite _ _ _ _ _)
  | startBatch =>
    cases hs
    exact h.startBatch hgap hok
  | commitBatchAsync =>
    cases hs
    refine h.congr ?_
    unfold Engine.commitBatchAsync
    split <;> rfl
  | commitBatchFinalize =>
    cases hs
    unfold Engine.commitBatchFinalize
    split
    · exact ⟨h.cfg, fun hb => by cases hb⟩
    · exact h
  | abortBatch =>
    cases hs
    unfold Engine.abortBatch
    split
    · refine ⟨?_, fun hb => by cases hb⟩
      simp only []
      split <;> exact h.cfg
    · exact h
  | sync force =>
    cases hs
    exact h.congr rfl
  | rotate =>
    cases hs
    exact h.congr rfl
  | flushWorker =>
    cases hs
    exact h.congr (counters_flushWorker _)
  | lookup key =>
    cases hs
    exact h.congr (counters_lookupAt _ _ _)
  | evict keepHeavy keepBlock =>
    cases hs
    exact h.congr rfl

/-- In every run in which no normal write is made with `global_ts_` directly below a batch in
progress, and no batch timestamp wraps, no reader sees the batch before it is committed. -/
theorem batch_hidden_until_commit (cfg : EngineConfig) (hgap : 1 ≤ cfg.batchIncrementGap)
    (acts : List Action) (s : State) (hrun : Run step Allowed (init cfg) acts s) : Isolated s := by
  have hinv : Below cfg s ∧ Stem s := by
    refine hrun.invariant (I := fun s => Below cfg s ∧ Stem s) ?_ ⟨⟨rfl, fun hb => by cases hb⟩, init_stem cfg⟩
    rintro s a t hok hs ⟨hbelow, hstem⟩
    exact ⟨hbelow.step hgap hok hs, hstem.step hs⟩
  intro hbatch
  have hlt := hinv.1.lt hbatch
  refine ⟨hlt, ?_, ?_⟩
  · intro acts' s' hrun' key v hv
    have hstem : Stem s' := hrun'.invariant (fun _ _ _ _ hs h => Stem.step h hs) hinv.2
    obtain ⟨w, hw, hkey, hval, hts⟩ := (Engine.Stems.lookupAt hstem key s.engine.globalTs).2 v hv
    exact ⟨w, hw, hkey, hval, Nat.lt_of_le_of_lt hts hlt⟩
  · intro lower upper sources w hw
    exact Nat.lt_of_le_of_lt (RangeIterator.results_visible _ lower upper sources w hw) hlt

/-- A batch write, a normal write and a flush, with a gap of 3. -/
def hiddenRun : List Action := [.startBatch, .batchInsert [1] [9], .insert [2] [2], .rotate, .flushWorker]

theorem batch_hidden_with_gap_three :
    ∃ s, Run step Allowed (init { smallConfig with batchIncrementGap := 3 }) hiddenRun s ∧
      s.engine.batchInProgress = true ∧ Isolated s := by
  obtain ⟨s, hrun, hbatch⟩ : ∃ s, Run step Allowed (init { smallConfig with batchIncrementGap := 3 }) hiddenRun s ∧
      s.engine.batchInProgress = true := Run.exists_of_checked (by decide)
  exact ⟨s, hrun, hbatch, batch_hidden_until_commit _ (by decide) _ _ hrun⟩

/-- With a gap of 1, one normal write during a batch reaches the timestamp of the batch. -/
def exposingRun : List Action := [.startBatch, .batchInsert [1] [9], .insert [2] [2]]

theorem exposingRun_enabled : (checked step anyStep (init smallConfig) exposingRun).isSome = true := by
  decide

def exposedState : State := (checked step anyStep (init smallConfig) exposingRun).get exposingRun_enabled

/-- There the batch is in progress and a lookup returns the value that only the batch has written. -/
theorem gap_exhausted_exposes_batch :
    Run step anyStep (init smallConfig) exposingRun exposedState ∧
      exposedState.engine.batchInProgress = true ∧
      (exposedState.engine.lookup [1]).1 = some [9] ∧
      (∀ w ∈ exposedState.writes, w.key = [1] → w.timestamp = exposedState.engine.batchTs) ∧
      ¬ Isolated exposedState := by
  have hend : exposedState.engine.batchInProgress = true ∧ (exposedState.engine.lookup [1]).1 = some [9] ∧
      (∀ w ∈ exposedState.writes, w.key = [1] → w.timestamp = exposedState.engine.batchTs) ∧
      ¬ exposedState.engine.globalTs < exposedState.engine.batchTs := by
    decide
  obtain ⟨hbatch, hlookup, hwrites, hclock⟩ := hend
  exact ⟨Run.of_isSome _ _ exposingRun_enabled, hbatch, hlookup, hwrites, fun h => hclock (h hbatch).1⟩

end Kvdb.BatchIsolation
