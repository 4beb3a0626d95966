import Kvdb.Server.Protocol
import Kvdb.Engine.BatchServing

/-! # The server: its queues and its threads (`server.cpp`)

Client handlers push requests into `write_queue_` and `batch_queue_`, and one writer thread takes them to the engine. A
step is one critical section or one call of the engine by one thread: the handlers, the writer, the thread that reads
for a compare-and-swap and the background threads of the engine move in any order. The fields behind `nextId` only
record what has happened. -/
namespace Kvdb.Config
set_option autoImplicit false

def maxWriteQueueBytes : ℕ := 16 * 1024 * 1024
def defaultMiniBatchSize : ℕ := 1000
def maxCasDeferred : ℕ := 64

end Kvdb.Config

namespace Kvdb.Server
set_option autoImplicit false

open Kvdb.Runs Kvdb.Engine
open Kvdb.Protocol (Request)

/-! ## The state -/

/-- `WriteRequest`. `id` stands for its promise, and `awaited` says that the handler waits for it. -/
structure WriteRequest where
  id : ℕ
  client : ℕ
  key : Bytes
  value : Bytes
  expectedValue : Bytes
  isDelete : Bool
  isBatch : Bool
  isCas : Bool
  awaited : Bool
  seq : ℕ
  deriving DecidableEq, Repr

/-- `PendingCAS` while it is busy, with what its read has returned so far. -/
structure PendingCAS where
  request : WriteRequest
  readFuture : Option Bytes
  deriving DecidableEq

/-- Where `WriterLoop` goes on after `checkAndFulfill`. -/
inductive Next where
  | drain
  | applied (count : ℕ)
  | top
  deriving DecidableEq

/-- Where `WriterLoop` stands. -/
inductive Writer where
  | top
  | requeue
  | stopTest
  | drain (count : ℕ)
  | apply (r : WriteRequest) (count : ℕ)
  | collect
  | applyBatch (done todo : List WriteRequest) (commit : Bool)
  | finish (mini : List WriteRequest) (commit : Bool)
  | fulfill (next : Next)
  | finalize (next : Next)
  | exited
  deriving DecidableEq

/-- Where a handler stands. -/
inductive Handler where
  | idle
  | awaiting (id : ℕ)
  | committing
  | aborting
  deriving DecidableEq

/-- A batch operation that the engine has executed, with the batch it found. -/
structure Applied where
  request : WriteRequest
  batchTs : ℕ
  inProgress : Bool
  owner : Option ℕ
  deriving DecidableEq

/-- A compare-and-swap that has ended, with the committed value of its key before. -/
structure EndedCAS where
  request : WriteRequest
  before : Option Bytes
  inserted : Bool
  deriving DecidableEq

/-- The members of `Server` and, behind them, its threads. `pushed` and `executed` are the requests of `write_queue_` in
the order of their arrival and of their execution, and `resolved` are the promises that are set. `sent` has the batch
writes of each client since it last opened or aborted a batch, `opened` the client and the timestamp of every batch,
and `owner` is the client that opened the batch in progress. -/
structure State where
  store : BatchServing.State
  writeQueue : List WriteRequest
  batchQueue : List WriteRequest
  pendingWrites : List WriteRequest
  deferred : List WriteRequest
  queueBytes : ℕ
  batchQueueBytes : ℕ
  commitPending : Bool
  commitRequested : Bool
  commitFinalizing : Bool
  pendingCas : Option PendingCAS
  shouldStop : Bool
  writer : Writer
  handlers : ℕ → Handler
  nextId : ℕ
  pushed : List WriteRequest
  executed : List WriteRequest
  resolved : List (ℕ × Bool)
  ended : List EndedCAS
  sent : ℕ → List WriteRequest
  applied : List Applied
  opened : List (ℕ × ℕ)
  owner : Option ℕ

def init (cfg : EngineConfig) : State where
  store := BatchServing.init cfg
  writeQueue := []
  batchQueue := []
  pendingWrites := []
  deferred := []
  queueBytes := 0
  batchQueueBytes := 0
  commitPending := false
  commitRequested := false
  commitFinalizing := false
  pendingCas := none
  shouldStop := false
  writer := .top
  handlers := fun _ => .idle
  nextId := 0
  pushed := []
  executed := []
  resolved := []
  ended := []
  sent := fun _ => []
  applied := []
  opened := []
  owner := none

/-! ## Handlers -/

/-- Addition and subtraction of `size_t`. -/
def addBytes (bytes size : ℕ) : ℕ := (bytes + size) % 2 ^ 64

def subBytes (bytes size : ℕ) : ℕ := (bytes + (2 ^ 64 - size % 2 ^ 64)) % 2 ^ 64

def hasRoom (bytes size : ℕ) : Bool := decide (addBytes bytes size ≤ Config.maxWriteQueueBytes)

/-- What the writer takes off the count for a request. -/
def refund (r : WriteRequest) : ℕ := r.key.length + r.value.length

namespace State

variable (s : State)

def request (client : ℕ) (key : Bytes) : WriteRequest :=
  ⟨s.nextId, client, key, [], [], false, false, false, false, 0⟩

def withHandler (client : ℕ) (h : Handler) : State := { s with handlers := Function.update s.handlers client h }

def enqueue (r : WriteRequest) (size : ℕ) : State :=
  { s.withHandler r.client (if r.awaited then .awaiting r.id else .idle) with
    queueBytes := addBytes s.queueBytes size
    writeQueue := s.writeQueue ++ [r]
    nextId := s.nextId + 1
    pushed := s.pushed ++ [r] }

/-- A push to `write_queue_`, once there is room for it. -/
def push (r : WriteRequest) (size : ℕ) : Option State :=
  if s.shouldStop || !hasRoom s.queueBytes size then none else some (s.enqueue r size)

/-- A `std::string` after its contents have been moved. -/
def movedFrom (_ : Bytes) : Bytes := []

/-- The request of a batch write: `is_delete` is computed from `value` behind the move. -/
def batchRequest (client : ℕ) (key value : Bytes) : WriteRequest :=
  { s.request client key with value := value, isDelete := (movedFrom value).isEmpty, isBatch := true }

def enqueueBatch (r : WriteRequest) (size : ℕ) : State :=
  { s with
    batchQueueBytes := addBytes s.batchQueueBytes size
    batchQueue := s.batchQueue ++ [r]
    nextId := s.nextId + 1
    sent := Function.update s.sent r.client (s.sent r.client ++ [r]) }

def pushBatch (r : WriteRequest) (size : ℕ) : Option State :=
  if s.shouldStop || !hasRoom s.batchQueueBytes size then none else some (s.enqueueBatch r size)

def startBatch (client : ℕ) : State :=
  if s.store.engine.startBatch.1 then
    { s with
      store := { s.store with engine := s.store.engine.startBatch.2 }
      sent := Function.update s.sent client []
      opened := s.opened ++ [(client, s.store.engine.startBatch.2.batchTs)]
      owner := some client }
  else s

def commitBatch (client : ℕ) : State :=
  { s.withHandler client .committing with
    commitPending := true
    commitRequested := true }

/-- `CommitBatch` is answered when no commit is pending any more, or when the server stops. -/
def answerCommit (client : ℕ) : Option State :=
  if s.handlers client = .committing ∧ (s.commitPending = false ∨ s.shouldStop = true) then
    some (s.withHandler client .idle)
  else none

/-- The critical section of a batch abort. -/
def abortQueue (client : ℕ) : State :=
  { s.withHandler client .aborting with
    batchQueue := []
    batchQueueBytes := s.batchQueue.foldl (fun bytes r => subBytes bytes (refund r)) s.batchQueueBytes
    commitPending := false
    commitRequested := false
    sent := Function.update s.sent client [] }

/-- `engine_.AbortBatch()`, behind the critical section. -/
def abortEngine (client : ℕ) : Option State :=
  if s.handlers client = .aborting then
    if s.store.engine.abortBatch.1 then
      some { s.withHandler client .idle with store := s.store.abortedBatch, owner := none }
    else some (s.withHandler client .idle)
  else none

/-- `HandleClient` on a request. -/
def handle (client : ℕ) : Request → Option State
  | .write key value =>
    s.push { s.request client key with value := value, awaited := true } (key.length + value.length)
  | .read key => some { s with store := { s.store with engine := (s.store.engine.lookup key).2 } }
  | .delete key => s.push { s.request client key with isDelete := true, awaited := true } 64
  | .asyncWrite key value => s.push { s.request client key with value := value } (key.length + value.length)
  | .asyncDelete key => s.push { s.request client key with isDelete := true } 64
  | .batchWrite key value => s.pushBatch (s.batchRequest client key value) (key.length + value.length + 64)
  | .batchBegin => some (s.startBatch client)
  | .batchCommit => some (s.commitBatch client)
  | .batchAbort => some (s.abortQueue client)
  | .compareAndSwap key expected desired =>
    s.push { s.request client key with value := desired, expectedValue := expected, isCas := true, awaited := true }
      (key.length + desired.length + expected.length)
  | .rangeScan _ _ => some s
  | .prefixScan _ => some s
  | .levelCounts => some s
  | .manualCompact minSstables fromLevel cascade =>
    some { s with store := { s.store with engine := (s.store.engine.manualCompact minSstables fromLevel cascade).1 } }

/-- The answer to a request whose promise is resolved. -/
def answer (client : ℕ) : Option State :=
  match s.handlers client with
  | .awaiting id => if id ∈ s.resolved.map Prod.fst then some (s.withHandler client .idle) else none
  | _ => none

/-! ## The writer -/

/-- What an operation of the engine returns, as an outcome of the store. -/
def outcome (f : Engine → BatchServing.State) : Outcome (Engine × ℕ) → Outcome (BatchServing.State × ℕ)
  | .returned r => .returned (f r.1, r.2)
  | .threw what => .threw what
  | .waiting => .waiting

def insert (key value : Bytes) : Outcome (BatchServing.State × ℕ) :=
  outcome (s.store.written ⟨key, shownValue value⟩) (s.store.engine.insert key value)

def delete (key : Bytes) : Outcome (BatchServing.State × ℕ) :=
  outcome (s.store.written ⟨key, none⟩) (s.store.engine.delete key)

def batchInsert (key value : Bytes) : Outcome (BatchServing.State × ℕ) :=
  outcome (s.store.batchWritten ⟨key, shownValue value⟩) (s.store.engine.batchInsert key value)

def batchDelete (key : Bytes) : Outcome (BatchServing.State × ℕ) :=
  outcome (s.store.batchWritten ⟨key, none⟩) (s.store.engine.batchDelete key)

def resolve (r : WriteRequest) (ok : Bool) : State := { s with resolved := s.resolved ++ [(r.id, ok)] }

/-- `swapped`. -/
def swaps (r : WriteRequest) (current : Bytes) : Bool := !current.isEmpty && current == r.expectedValue

def endCas (r : WriteRequest) (inserted : Bool) : State :=
  { s with
    pendingCas := none
    executed := s.executed ++ [r]
    ended := s.ended ++ [⟨r, BatchServing.last s.store.committed r.key, inserted⟩]
    writer := .requeue }

/-- The end of a compare-and-swap whose read is there. -/
def completeCas (r : WriteRequest) (current : Bytes) : Option State :=
  if swaps r current then
    match s.insert r.key r.value with
    | .returned t => some { s.endCas r true with
        store := t.1
        pendingWrites := s.pendingWrites ++ [{ r with expectedValue := [], isCas := false, seq := t.2 }] }
    | .threw _ => some ((s.endCas r false).resolve r false)
    | .waiting => none
  else some ((s.endCas r false).resolve r false)

/-- A request that has to wait for the compare-and-swap under way. -/
def defers (r : WriteRequest) : Bool := s.pendingCas.any fun p => r.isCas || decide (r.key = p.request.key)

/-- One turn of the loop that drains `write_queue_`, up to the operation of the engine. -/
def drainNext (count : ℕ) : State :=
  if s.commitPending then { s with writer := .collect }
  else
    match s.writeQueue with
    | [] => { s with writer := .collect }
    | r :: rest =>
      if s.defers r then
        if Config.maxCasDeferred ≤ s.deferred.length then { s with writer := .collect }
        else { s with writeQueue := rest, deferred := s.deferred ++ [r] }
      else
        let taken := { s with writeQueue := rest, queueBytes := subBytes s.queueBytes (refund r) }
        if r.isCas then { taken with pendingCas := some ⟨r, none⟩ } else { taken with writer := .apply r count }

def operation (r : WriteRequest) : Outcome (BatchServing.State × ℕ) :=
  if r.isDelete then s.delete r.key else s.insert r.key r.value

def applyNormal (r : WriteRequest) (count : ℕ) : Option State :=
  let next := { s with executed := s.executed ++ [r], writer := .fulfill (.applied count) }
  match s.operation r with
  | .returned t => some { next with store := t.1, pendingWrites := s.pendingWrites ++ [{ r with seq := t.2 }] }
  | .threw _ => some (next.resolve r false)
  | .waiting => none

/-- A mini-batch is due. -/
def triggered : Bool :=
  decide (Config.defaultMiniBatchSize ≤ s.batchQueue.length) ||
    decide (Config.maxWriteQueueBytes / 2 ≤ s.batchQueueBytes) || s.commitRequested

/-- The mini-batch that is taken: everything when a commit is pending. -/
def mini : List WriteRequest :=
  if s.commitPending then s.batchQueue else s.batchQueue.take Config.defaultMiniBatchSize

def collectBatch : State :=
  if s.triggered then
    { s with
      batchQueue := s.batchQueue.drop s.mini.length
      batchQueueBytes := s.mini.foldl (fun bytes r => subBytes bytes (refund r)) s.batchQueueBytes
      writer := .applyBatch [] s.mini s.commitPending }
  else { s with writer := .top }

def batchOperation (r : WriteRequest) : Outcome (BatchServing.State × ℕ) :=
  if r.isDelete then s.batchDelete r.key else s.batchInsert r.key r.value

def appliedRecord (r : WriteRequest) : Applied :=
  ⟨r, s.store.engine.batchTs, s.store.engine.batchInProgress, s.owner⟩

/-- The next entry of a mini-batch. An exception drops the rest of it. -/
def applyMini (done : List WriteRequest) (commit : Bool) : List WriteRequest → Option State
  | [] => some { s with writer := .finish done commit }
  | r :: rest =>
    match s.batchOperation r with
    | .returned t => some { s with
        store := t.1
        applied := s.applied ++ [s.appliedRecord r]
        writer := .applyBatch (done ++ [{ r with seq := t.2 }]) rest commit }
    | .threw _ => some { s with
        resolved := s.resolved ++ (done ++ r :: rest).map fun q => (q.id, false)
        writer := .top }
    | .waiting => none

def finishMini (mini : List WriteRequest) (commit : Bool) : State :=
  { s with
    pendingWrites := s.pendingWrites ++ mini
    store := if commit then { s.store with engine := s.store.engine.commitBatchAsync.2 } else s.store
    commitFinalizing := commit || s.commitFinalizing
    commitRequested := !commit && s.commitRequested
    writer := .fulfill .top }

/-- The first half of `checkAndFulfill`. -/
def fulfill (next : Next) : State :=
  { s with
    pendingWrites := s.pendingWrites.dropWhile fun r => decide (r.seq ≤ s.store.engine.syncedSeq)
    resolved := s.resolved ++
      (s.pendingWrites.takeWhile fun r => decide (r.seq ≤ s.store.engine.syncedSeq)).map fun r => (r.id, true)
    writer := .finalize next }

/-- Where the writer goes on, with `drain_count` counted only while a compare-and-swap is pending. -/
def resume : Next → Writer
  | .drain => .drain 0
  | .applied count =>
    if s.pendingCas.isSome then if Config.maxCasDeferred ≤ count + 1 then .collect else .drain (count + 1)
    else .drain count
  | .top => .top

/-- The second half of `checkAndFulfill`. -/
def finalize (next : Next) : State :=
  if s.commitFinalizing && s.store.engine.commitBatchFinalize.1 then
    { s with
      store := s.store.committedBatch
      commitFinalizing := false
      commitPending := false
      owner := none
      writer := s.resume next }
  else { s with writer := s.resume next }

/-- The exit test of `WriterLoop`. -/
def mayExit : Bool :=
  s.shouldStop && s.writeQueue.isEmpty && s.batchQueue.isEmpty && !s.commitPending && s.pendingCas.isNone

/-- The next step of `WriterLoop`. -/
def writerStep : Option State :=
  match s.writer with
  | .top =>
    match s.pendingCas with
    | some ⟨r, some current⟩ => s.completeCas r current
    | _ => some { s with writer := .stopTest }
  | .requeue => some { s with writeQueue := s.writeQueue ++ s.deferred, deferred := [], writer := .top }
  | .stopTest => some { s with writer := if s.mayExit then .exited else .fulfill .drain }
  | .drain count => some (s.drainNext count)
  | .apply r count => s.applyNormal r count
  | .collect => some s.collectBatch
  | .applyBatch done todo commit => s.applyMini done commit todo
  | .finish mini commit => some (s.finishMini mini commit)
  | .fulfill next => some (s.fulfill next)
  | .finalize next => some (s.finalize next)
  | .exited => none

/-- The thread that looks the key of a compare-and-swap up. -/
def readCas : Option State :=
  match s.pendingCas with
  | some ⟨r, none⟩ => some { s with
      store := { s.store with engine := (s.store.engine.lookup r.key).2 }
      pendingCas := some ⟨r, some ((s.store.engine.lookup r.key).1.getD [])⟩ }
  | _ => none

end State

/-! ## Steps -/

/-- The threads of the engine. -/
inductive Background where
  | sync (force : Bool)
  | flushPop
  | flushFinish
  | compactionWorker
  | evict (keepHeavy : ℕ → Bool) (keepBlock : ℕ → ℕ → Bool)

def Background.action : Background → BatchServing.Action
  | .sync force => .sync force
  | .flushPop => .flushPop
  | .flushFinish => .flushFinish
  | .compactionWorker => .compactionWorker
  | .evict keepHeavy keepBlock => .evict keepHeavy keepBlock

inductive Action where
  | request (client : ℕ) (req : Request)
  | answer (client : ℕ)
  | answerCommit (client : ℕ)
  | abortEngine (client : ℕ)
  | readCas
  | background (b : Background)
  | stop
  | writer

instance decidableBoundFits (bound : RangeBound) : Decidable (Protocol.BoundFits bound) := by
  cases bound <;> unfold Protocol.BoundFits <;> infer_instance

instance decidableFits (req : Request) : Decidable req.Fits := by
  cases req <;> unfold Request.Fits <;> infer_instance

/-- A handler takes a request only when it has answered the one before. -/
def step (s : State) : Action → Option State
  | .request client req => if s.handlers client = .idle ∧ req.Fits then s.handle client req else none
  | .answer client => s.answer client
  | .answerCommit client => s.answerCommit client
  | .abortEngine client => s.abortEngine client
  | .readCas => s.readCas
  | .background b => (BatchServing.step s.store b.action).map fun t => { s with store := t }
  | .stop => some { s with shouldStop := true }
  | .writer => s.writerStep

end Kvdb.Server
