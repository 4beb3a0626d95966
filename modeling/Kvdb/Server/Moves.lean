import Kvdb.Server.State
import Kvdb.Engine.BatchVisibility

/-! # What a step of the server can do

`Moved s a t` lists the ways in which a step leads from `s` to `t`: which lists a request leaves and enters, which
flags change, and what happens to the store. The invariants of the server are proved from this list. -/
namespace Kvdb.Server
set_option autoImplicit false

open Kvdb.Runs Kvdb.Engine
open Kvdb.Protocol (Request)

/-! ## Requests and their charges -/

/-- What a handler adds to the count for a request. -/
def charge (r : WriteRequest) : ℕ :=
  if r.isBatch then r.key.length + r.value.length + 64
  else if r.isCas then r.key.length + r.value.length + r.expectedValue.length
  else if r.isDelete then 64
  else r.key.length + r.value.length

/-- The request that a handler pushes to `write_queue_`. -/
def State.queued (s : State) (client : ℕ) : Request → Option WriteRequest
  | .write key value => some { s.request client key with value := value, awaited := true }
  | .delete key => some { s.request client key with isDelete := true, awaited := true }
  | .asyncWrite key value => some { s.request client key with value := value }
  | .asyncDelete key => some { s.request client key with isDelete := true }
  | .compareAndSwap key expected desired => some { s.request client key with
      value := desired
      expectedValue := expected
      isCas := true
      awaited := true }
  | _ => none

theorem State.handle_queued {s : State} {client : ℕ} {req : Request} {r : WriteRequest}
    (h : s.queued client req = some r) : s.handle client req = s.push r (charge r) := by
  cases req <;> first | cases h; rfl | cases h

theorem State.queued_isBatch {s : State} {client : ℕ} {req : Request} {r : WriteRequest}
    (h : s.queued client req = some r) : r.isBatch = false ∧ r.id = s.nextId := by
  cases req <;> first | cases h; exact ⟨rfl, rfl⟩ | cases h

/-! ## The store -/

/-- The batch of the engine. -/
def batchOf (e : Engine) : Bool × ℕ := (e.batchInProgress, e.batchTs)

/-- Neither the batch nor what was asked for changes. -/
structure Quiet (a b : BatchServing.State) : Prop where
  batch : batchOf b.engine = batchOf a.engine
  committed : b.committed = a.committed
  pending : b.pending = a.pending

theorem batchOf_applyWrite (e : Engine) (key value : Bytes) (isTombstone : Bool) (ts : ℕ) :
    batchOf (e.applyWrite key value isTombstone ts) = batchOf e := by
  unfold applyWrite freezeIfFull
  split
  · rfl
  · rfl

theorem batchOf_insert {e e' : Engine} {key value : Bytes} {n : ℕ} (h : e.insert key value = .returned (e', n)) :
    batchOf e' = batchOf e := by
  obtain ⟨-, -, rfl⟩ := insert_returned h
  exact batchOf_applyWrite e.tick key value false (e.globalTs + 1)

theorem batchOf_delete {e e' : Engine} {key : Bytes} {n : ℕ} (h : e.delete key = .returned (e', n)) :
    batchOf e' = batchOf e := by
  obtain ⟨-, -, rfl⟩ := delete_returned h
  exact batchOf_applyWrite e.tick key [] true (e.globalTs + 1)

theorem batchOf_batchWrite (e : Engine) (key value : Bytes) (isTombstone : Bool) :
    batchOf (e.batchWrite key value isTombstone) = batchOf e :=
  batchOf_applyWrite { e with batchTouched := true } key value isTombstone e.batchTs

theorem batchOf_lookup (e : Engine) (key : Bytes) : batchOf (e.lookup key).2 = batchOf e := by
  obtain ⟨kv, cache, heq, -⟩ := e.lookupAt_eq key e.globalTs
  have hlookup : (e.lookup key).2 = _ := heq
  rw [hlookup]
  rfl

theorem batchOf_compactLevel (e : Engine) (fromLevel topLevel : ℕ) :
    batchOf (e.compactLevel fromLevel topLevel) = batchOf e :=
  compactLevel_keeps batchOf e fromLevel topLevel fun _ _ _ _ _ _ => rfl

theorem batchOf_manualCompact (e : Engine) (minSstables fromLevel : ℤ) (cascade : Bool) :
    batchOf (e.manualCompact minSstables fromLevel cascade).1 = batchOf e := by
  unfold manualCompact
  split
  · rfl
  · exact batchOf_compactLevel e _ _

theorem batchOf_compactionWorker (e : Engine) : batchOf e.compactionWorker = batchOf e := by
  unfold compactionWorker
  split
  · rfl
  · exact batchOf_compactLevel e _ _

theorem batchOf_finishFlush (e : Engine) (m : MemTable) : batchOf (BatchServing.finishFlush e m) = batchOf e := by
  unfold BatchServing.finishFlush
  split
  · rcases e.doFlush_cases m with ⟨-, heq⟩ | ⟨-, md, cache, -, heq⟩
    · rw [heq]
      rfl
    · rw [heq]
      rfl
  · rfl

theorem batchOf_commitBatchAsync (e : Engine) : batchOf e.commitBatchAsync.2 = batchOf e := by
  unfold commitBatchAsync
  split
  · rfl
  · rfl

theorem quiet_background {a b : BatchServing.State} {act : Background} (h : BatchServing.step a act.action = some b) :
    Quiet a b := by
  cases act with
  | sync force =>
    cases h
    exact ⟨rfl, rfl, rfl⟩
  | flushPop =>
    simp only [Background.action, BatchServing.step] at h
    split at h
    · cases h
      exact ⟨rfl, rfl, rfl⟩
    · cases h
  | flushFinish =>
    obtain ⟨m, -, rfl⟩ := Option.map_eq_some_iff.mp h
    exact ⟨batchOf_finishFlush a.engine m, rfl, rfl⟩
  | compactionWorker =>
    cases h
    exact ⟨batchOf_compactionWorker a.engine, rfl, rfl⟩
  | evict keepHeavy keepBlock =>
    cases h
    exact ⟨rfl, rfl, rfl⟩

/-- A normal write with effect `x`. -/
structure Wrote (x : BatchServing.Effect) (a b : BatchServing.State) : Prop where
  batch : batchOf b.engine = batchOf a.engine
  committed : b.committed = x :: a.committed
  pending : b.pending = a.pending

/-- A write of the batch with effect `x`. -/
structure BatchWrote (x : BatchServing.Effect) (a b : BatchServing.State) : Prop where
  batch : batchOf b.engine = batchOf a.engine
  committed : b.committed = a.committed
  pending : b.pending = x :: a.pending

namespace State

variable {s : State}

theorem outcome_returned {f : Engine → BatchServing.State} {o : Outcome (Engine × ℕ)} {t : BatchServing.State × ℕ}
    (h : outcome f o = .returned t) : ∃ e n, o = .returned (e, n) ∧ t = (f e, n) := by
  cases o with
  | returned r =>
    cases h
    exact ⟨r.1, r.2, rfl, rfl⟩
  | threw what => cases h
  | waiting => cases h

theorem insert_wrote {key value : Bytes} {t : BatchServing.State × ℕ} (h : s.insert key value = .returned t) :
    Wrote ⟨key, shownValue value⟩ s.store t.1 := by
  obtain ⟨e, n, he, rfl⟩ := outcome_returned h
  exact ⟨batchOf_insert he, rfl, rfl⟩

/-- The effect of a request of `write_queue_`. -/
def effect (r : WriteRequest) : BatchServing.Effect := ⟨r.key, if r.isDelete then none else shownValue r.value⟩

theorem operation_wrote {r : WriteRequest} {t : BatchServing.State × ℕ} (h : s.operation r = .returned t) :
    Wrote (effect r) s.store t.1 := by
  unfold operation at h
  split at h
  · next hdel =>
    obtain ⟨e, n, he, rfl⟩ := outcome_returned h
    rw [effect, if_pos hdel]
    exact ⟨batchOf_delete he, rfl, rfl⟩
  · next hdel =>
    rw [effect, if_neg hdel]
    exact insert_wrote h

theorem batchOperation_wrote {r : WriteRequest} {t : BatchServing.State × ℕ} (h : s.batchOperation r = .returned t) :
    BatchWrote (effect r) s.store t.1 := by
  unfold batchOperation at h
  split at h
  · next hdel =>
    obtain ⟨e, n, he, rfl⟩ := outcome_returned h
    rw [effect, if_pos hdel, BatchIsolation.batchDelete_returned he]
    exact ⟨batchOf_batchWrite _ _ _ _, rfl, rfl⟩
  · next hdel =>
    obtain ⟨e, n, he, rfl⟩ := outcome_returned h
    rw [effect, if_neg hdel, BatchIsolation.batchInsert_returned he]
    exact ⟨batchOf_batchWrite _ _ _ _, rfl, rfl⟩

/-- Behind `checkAndFulfill` the writer holds no request. -/
theorem resume_cases (s : State) (next : Next) :
    (∃ count, s.resume next = .drain count) ∨ s.resume next = .collect ∨ s.resume next = .top := by
  cases next with
  | drain => exact .inl ⟨0, rfl⟩
  | applied count =>
    simp only [resume]
    split
    · split
      · exact .inr (.inl rfl)
      · exact .inl ⟨count + 1, rfl⟩
    · exact .inl ⟨count, rfl⟩
  | top => exact .inr (.inr rfl)

end State

theorem mini_append (s : State) : s.mini ++ s.batchQueue.drop s.mini.length = s.batchQueue := by
  unfold State.mini
  split
  · simp
  · rw [List.length_take]
    rcases Nat.le_total Config.defaultMiniBatchSize s.batchQueue.length with hle | hle
    · rw [Nat.min_eq_left hle, List.take_append_drop]
    · rw [Nat.min_eq_right hle, List.take_of_length_le hle, List.drop_length, List.append_nil]

/-! ## Steps -/

/-- One way for each step of a handler, of a thread of the engine and of the writer. -/
inductive Moved (s : State) : Action → State → Prop
  | queued {client : ℕ} {req : Request} {r : WriteRequest} (hreq : s.queued client req = some r) (hfits : req.Fits)
      (hrun : s.shouldStop = false) (hroom : hasRoom s.queueBytes (charge r) = true) :
      Moved s (.request client req) (s.enqueue r (charge r))
  | queuedBatch {client : ℕ} {key value : Bytes} (hfits : (Request.batchWrite key value).Fits)
      (hidle : s.handlers client = .idle) (hrun : s.shouldStop = false)
      (hroom : hasRoom s.batchQueueBytes (charge (s.batchRequest client key value)) = true) :
      Moved s (.request client (.batchWrite key value))
        (s.enqueueBatch (s.batchRequest client key value) (charge (s.batchRequest client key value)))
  | startBatch {client : ℕ} : Moved s (.request client .batchBegin) (s.startBatch client)
  | commitBatch {client : ℕ} : Moved s (.request client .batchCommit) (s.commitBatch client)
  | abortQueue {client : ℕ} : Moved s (.request client .batchAbort) (s.abortQueue client)
  | answer {client : ℕ} : Moved s (.answer client) (s.withHandler client .idle)
  | answerCommit {client : ℕ} (hcommit : s.handlers client = .committing)
      (hdone : s.commitPending = false ∨ s.shouldStop = true) :
      Moved s (.answerCommit client) (s.withHandler client .idle)
  | abortEngine {client : ℕ} (habort : s.handlers client = .aborting) (hbatch : s.store.engine.batchInProgress = true) :
      Moved s (.abortEngine client) { s.withHandler client .idle with store := s.store.abortedBatch, owner := none }
  | abortNothing {client : ℕ} (habort : s.handlers client = .aborting) :
      Moved s (.abortEngine client) (s.withHandler client .idle)
  | readCas {r : WriteRequest} (hcas : s.pendingCas = some ⟨r, none⟩) :
      Moved s .readCas { s with
        store := { s.store with engine := (s.store.engine.lookup r.key).2 }
        pendingCas := some ⟨r, some ((s.store.engine.lookup r.key).1.getD [])⟩ }
  | store {a : Action} {b : BatchServing.State} (hquiet : Quiet s.store b) : Moved s a { s with store := b }
  | stop : Moved s .stop { s with shouldStop := true }
  | swap {r : WriteRequest} {current : Bytes} {b : BatchServing.State × ℕ} (hw : s.writer = .top)
      (hcas : s.pendingCas = some ⟨r, some current⟩) (hswaps : State.swaps r current = true)
      (hwrote : Wrote ⟨r.key, shownValue r.value⟩ s.store b.1) :
      Moved s .writer { s.endCas r true with
        store := b.1
        pendingWrites := s.pendingWrites ++ [{ r with expectedValue := [], isCas := false, seq := b.2 }] }
  | noSwap {r : WriteRequest} {current : Bytes} (hw : s.writer = .top)
      (hcas : s.pendingCas = some ⟨r, some current⟩) : Moved s .writer ((s.endCas r false).resolve r false)
  | pass (hw : s.writer = .top) : Moved s .writer { s with writer := .stopTest }
  | requeue (hw : s.writer = .requeue) :
      Moved s .writer { s with writeQueue := s.writeQueue ++ s.deferred, deferred := [], writer := .top }
  | exit (hw : s.writer = .stopTest) (hexit : s.mayExit = true) : Moved s .writer { s with writer := .exited }
  | goOn (hw : s.writer = .stopTest) : Moved s .writer { s with writer := .fulfill .drain }
  | drained {count : ℕ} (hw : s.writer = .drain count) : Moved s .writer { s with writer := .collect }
  | defer {count : ℕ} {r : WriteRequest} {rest : List WriteRequest} (hw : s.writer = .drain count)
      (hfree : s.commitPending = false) (hqueue : s.writeQueue = r :: rest) (hdefers : s.defers r = true) :
      Moved s .writer { s with writeQueue := rest, deferred := s.deferred ++ [r] }
  | takeCas {count : ℕ} {r : WriteRequest} {rest : List WriteRequest} (hw : s.writer = .drain count)
      (hfree : s.commitPending = false) (hqueue : s.writeQueue = r :: rest) (hdefers : s.defers r = false) (hcas : r.isCas = true) :
      Moved s .writer { s with
        writeQueue := rest
        queueBytes := subBytes s.queueBytes (refund r)
        pendingCas := some ⟨r, none⟩ }
  | take {count : ℕ} {r : WriteRequest} {rest : List WriteRequest} (hw : s.writer = .drain count)
      (hfree : s.commitPending = false) (hqueue : s.writeQueue = r :: rest) (hdefers : s.defers r = false)
      (hcas : r.isCas = false) :
      Moved s .writer { s with
        writeQueue := rest
        queueBytes := subBytes s.queueBytes (refund r)
        writer := .apply r count }
  | applied {r : WriteRequest} {count : ℕ} {b : BatchServing.State × ℕ} (hw : s.writer = .apply r count)
      (hwrote : Wrote (State.effect r) s.store b.1) :
      Moved s .writer { s with
        executed := s.executed ++ [r]
        writer := .fulfill (.applied count)
        store := b.1
        pendingWrites := s.pendingWrites ++ [{ r with seq := b.2 }] }
  | refused {r : WriteRequest} {count : ℕ} (hw : s.writer = .apply r count) :
      Moved s .writer ({ s with executed := s.executed ++ [r], writer := .fulfill (.applied count) }.resolve r false)
  | collect (hw : s.writer = .collect) (hdue : s.triggered = true) : Moved s .writer { s with
      batchQueue := s.batchQueue.drop s.mini.length
      batchQueueBytes := s.mini.foldl (fun bytes r => subBytes bytes (refund r)) s.batchQueueBytes
      writer := .applyBatch [] s.mini s.commitPending }
  | nothingDue (hw : s.writer = .collect) : Moved s .writer { s with writer := .top }
  | miniDone {done : List WriteRequest} {commit : Bool} (hw : s.writer = .applyBatch done [] commit) :
      Moved s .writer { s with writer := .finish done commit }
  | miniApplied {done rest : List WriteRequest} {r : WriteRequest} {commit : Bool} {b : BatchServing.State × ℕ}
      (hw : s.writer = .applyBatch done (r :: rest) commit) (hwrote : BatchWrote (State.effect r) s.store b.1) :
      Moved s .writer { s with
        store := b.1
        applied := s.applied ++ [s.appliedRecord r]
        writer := .applyBatch (done ++ [{ r with seq := b.2 }]) rest commit }
  | miniRefused {done rest : List WriteRequest} {r : WriteRequest} {commit : Bool} {what : String}
      (hw : s.writer = .applyBatch done (r :: rest) commit) (hthrew : s.batchOperation r = .threw what) :
      Moved s .writer { s with
        resolved := s.resolved ++ (done ++ r :: rest).map fun q => (q.id, false)
        writer := .top }
  | finish {mini : List WriteRequest} {commit : Bool} (hw : s.writer = .finish mini commit) :
      Moved s .writer (s.finishMini mini commit)
  | fulfill {next : Next} (hw : s.writer = .fulfill next) : Moved s .writer (s.fulfill next)
  | finalized {next : Next} (hw : s.writer = .finalize next) (hcommit : s.commitFinalizing = true)
      (hdone : s.store.engine.commitBatchFinalize.1 = true) :
      Moved s .writer { s with
        store := s.store.committedBatch
        commitFinalizing := false
        commitPending := false
        owner := none
        writer := s.resume next }
  | unfinished {next : Next} (hw : s.writer = .finalize next) : Moved s .writer { s with writer := s.resume next }

theorem push_moved {s t : State} {client : ℕ} {req : Request} {r : WriteRequest}
    (hreq : s.queued client req = some r) (hfits : req.Fits) (h : s.handle client req = some t) :
    Moved s (.request client req) t := by
  rw [State.handle_queued hreq, State.push] at h
  split at h
  · cases h
  · next hfree =>
    simp only [Bool.or_eq_true, Bool.not_eq_eq_eq_not, Bool.not_true, not_or, Bool.not_eq_true, Bool.not_eq_false] at hfree
    cases h
    exact .queued hreq hfits hfree.1 hfree.2

theorem handle_moved {s t : State} {client : ℕ} {req : Request} (hidle : s.handlers client = .idle) (hfits : req.Fits)
    (h : s.handle client req = some t) : Moved s (.request client req) t := by
  cases req with
  | write key value => exact push_moved rfl hfits h
  | delete key => exact push_moved rfl hfits h
  | asyncWrite key value => exact push_moved rfl hfits h
  | asyncDelete key => exact push_moved rfl hfits h
  | compareAndSwap key expected desired => exact push_moved rfl hfits h
  | batchWrite key value =>
    simp only [State.handle, State.pushBatch] at h
    split at h
    · cases h
    · next hfree =>
      simp only [Bool.or_eq_true, Bool.not_eq_eq_eq_not, Bool.not_true, not_or, Bool.not_eq_true,
        Bool.not_eq_false] at hfree
      cases h
      exact .queuedBatch hfits hidle hfree.1 hfree.2
  | read key =>
    cases h
    exact .store ⟨batchOf_lookup s.store.engine key, rfl, rfl⟩
  | manualCompact minSstables fromLevel cascade =>
    cases h
    exact .store ⟨batchOf_manualCompact s.store.engine minSstables fromLevel cascade, rfl, rfl⟩
  | rangeScan lower upper =>
    cases h
    exact .store ⟨rfl, rfl, rfl⟩
  | prefixScan start =>
    cases h
    exact .store ⟨rfl, rfl, rfl⟩
  | levelCounts =>
    cases h
    exact .store ⟨rfl, rfl, rfl⟩
  | batchBegin =>
    cases h
    exact .startBatch
  | batchCommit =>
    cases h
    exact .commitBatch
  | batchAbort =>
    cases h
    exact .abortQueue

section Writer

variable {s t : State}

theorem completeCas_moved {r : WriteRequest} {current : Bytes} (hw : s.writer = .top)
    (hcas : s.pendingCas = some ⟨r, some current⟩) (h : s.completeCas r current = some t) : Moved s .writer t := by
  unfold State.completeCas at h
  split at h
  · next hswaps =>
    split at h
    · next b hinsert =>
      cases h
      exact .swap hw hcas hswaps (State.insert_wrote hinsert)
    · cases h
      exact .noSwap hw hcas
    · cases h
  · cases h
    exact .noSwap hw hcas

theorem drainNext_moved {count : ℕ} (hw : s.writer = .drain count) : Moved s .writer (s.drainNext count) := by
  unfold State.drainNext
  split
  · exact .drained hw
  · next hpending =>
    rw [Bool.not_eq_true] at hpending
    split
    · exact .drained hw
    · next r rest hqueue =>
      split
      · next hdefers =>
        split
        · exact .drained hw
        · exact .defer hw hpending hqueue hdefers
      · next hdefers =>
        rw [Bool.not_eq_true] at hdefers
        simp only []
        split
        · next hcas => exact .takeCas hw hpending hqueue hdefers hcas
        · next hcas => exact .take hw hpending hqueue hdefers (Bool.not_eq_true _ ▸ hcas)

theorem applyNormal_moved {r : WriteRequest} {count : ℕ} (hw : s.writer = .apply r count)
    (h : s.applyNormal r count = some t) : Moved s .writer t := by
  simp only [State.applyNormal] at h
  split at h
  · next b hreturned =>
    cases h
    exact .applied hw (State.operation_wrote hreturned)
  · cases h
    exact .refused hw
  · cases h

theorem applyMini_moved {done todo : List WriteRequest} {commit : Bool} (hw : s.writer = .applyBatch done todo commit)
    (h : s.applyMini done commit todo = some t) : Moved s .writer t := by
  cases todo with
  | nil =>
    cases h
    exact .miniDone hw
  | cons r rest =>
    simp only [State.applyMini] at h
    split at h
    · next b hreturned =>
      cases h
      exact .miniApplied hw (State.batchOperation_wrote hreturned)
    · next what hthrew =>
      cases h
      exact .miniRefused hw hthrew
    · cases h

theorem finalize_moved {next : Next} (hw : s.writer = .finalize next) : Moved s .writer (s.finalize next) := by
  unfold State.finalize
  split
  · next hboth =>
    obtain ⟨hcommit, hdone⟩ := Bool.and_eq_true_iff.mp hboth
    exact .finalized hw hcommit hdone
  · exact .unfinished hw

theorem writerStep_moved (h : s.writerStep = some t) : Moved s .writer t := by
  unfold State.writerStep at h
  split at h
  · next hw =>
    split at h
    · next r current hcas => exact completeCas_moved hw hcas h
    · cases h
      exact .pass hw
  · next hw =>
    cases h
    exact .requeue hw
  · next hw =>
    cases h
    by_cases hexit : s.mayExit = true
    · rw [if_pos hexit]
      exact .exit hw hexit
    · rw [if_neg hexit]
      exact .goOn hw
  · next count hw =>
    cases h
    exact drainNext_moved hw
  · next r count hw => exact applyNormal_moved hw h
  · next hw =>
    cases h
    unfold State.collectBatch
    split
    · next hdue => exact .collect hw hdue
    · exact .nothingDue hw
  · next done todo commit hw => exact applyMini_moved hw h
  · next mini commit hw =>
    cases h
    exact .finish hw
  · next next hw =>
    cases h
    exact .fulfill hw
  · next next hw =>
    cases h
    exact finalize_moved hw
  · cases h

end Writer

theorem step_moved {s t : State} {a : Action} (h : step s a = some t) : Moved s a t := by
  cases a with
  | request client req =>
    simp only [step] at h
    split at h
    · next hboth => exact handle_moved hboth.1 hboth.2 h
    · cases h
  | answer client =>
    simp only [step, State.answer] at h
    split at h
    · split at h
      · cases h
        exact .answer
      · cases h
    · cases h
  | answerCommit client =>
    simp only [step, State.answerCommit] at h
    split at h
    · next hboth =>
      cases h
      exact .answerCommit hboth.1 hboth.2
    · cases h
  | abortEngine client =>
    simp only [step, State.abortEngine] at h
    split at h
    · next habort =>
      split at h
      · next hdone =>
        cases h
        exact .abortEngine habort (BatchServing.abortBatch_eq hdone)
      · cases h
        exact .abortNothing habort
    · cases h
  | readCas =>
    simp only [step, State.readCas] at h
    split at h
    · next r hcas =>
      cases h
      exact .readCas hcas
    · cases h
  | background b =>
    obtain ⟨store, hstore, rfl⟩ := Option.map_eq_some_iff.mp h
    exact .store (quiet_background hstore)
  | stop =>
    cases h
    exact .stop
  | writer => exact writerStep_moved h

end Kvdb.Server
