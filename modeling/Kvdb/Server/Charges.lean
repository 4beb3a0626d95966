import Kvdb.Server.Moves

/-! # The counts of queued bytes

A handler adds a charge to the count of its queue and the writer takes a refund off: the key and the value. The two agree
for a write. They differ for a delete, whose charge is 64 whatever its key, for a compare-and-swap, whose charge has the
expected value as well, and for a batch write, whose charge has 64 more. -/
namespace Kvdb.QueueCharges
set_option autoImplicit false

open Kvdb.Runs Kvdb.Engine Kvdb.Server
open Kvdb.Protocol (Request)

/-- The kinds of request that give back what was charged for them. -/
def Refunded (r : WriteRequest) : Prop :=
  r.isBatch = false ∧ (r.isCas = true → r.expectedValue = []) ∧
    (r.isCas = false → r.isDelete = true → r.key.length + r.value.length = 64)

instance decidableRefunded (r : WriteRequest) : Decidable (Refunded r) :=
  inferInstanceAs (Decidable (r.isBatch = false ∧ (r.isCas = true → r.expectedValue = []) ∧
    (r.isCas = false → r.isDelete = true → r.key.length + r.value.length = 64)))

theorem refund_eq_charge_iff (r : WriteRequest) : refund r = charge r ↔ Refunded r := by
  unfold refund charge Refunded
  cases r.isBatch <;> cases r.isCas <;> cases r.isDelete <;> simp

def total (rs : List WriteRequest) : ℕ := (rs.map charge).sum

@[simp] theorem total_nil : total [] = 0 := rfl

@[simp] theorem total_append (xs ys : List WriteRequest) : total (xs ++ ys) = total xs + total ys := by
  simp [total]

@[simp] theorem total_cons (r : WriteRequest) (rs : List WriteRequest) : total (r :: rs) = charge r + total rs := by
  simp [total]

/-- A request that the writer takes out of `write_queue_` gives its charge back, and no batch write leaves
`batch_queue_`. -/
def Allowed (s : State) : Action → Prop
  | .writer =>
    match s.writer with
    | .drain _ => s.commitPending = false → ∀ r ∈ s.writeQueue.head?, s.defers r = false → Refunded r
    | .collect => s.triggered = true → s.batchQueue = []
    | _ => True
  | .request _ .batchAbort => s.batchQueue = []
  | _ => True

instance decidableAllowed (s : State) (a : Action) : Decidable (Allowed s a) := by
  rcases a with ⟨_, ⟨⟩⟩ <;> unfold Allowed
  case writer =>
    generalize s.writer = w
    rcases w with ⟨⟩ <;> infer_instance
  all_goals infer_instance

/-- The counts are those of the requests in the queues, and within the limit: they have not wrapped. -/
structure Balanced (s : State) : Prop where
  queue : s.queueBytes = total (s.writeQueue ++ s.deferred)
  batch : s.batchQueueBytes = total s.batchQueue
  queueLe : s.queueBytes ≤ Config.maxWriteQueueBytes
  batchLe : s.batchQueueBytes ≤ Config.maxWriteQueueBytes

/-! ## The arithmetic -/

theorem addBytes_of_room {bytes size : ℕ} (hbytes : bytes ≤ Config.maxWriteQueueBytes) (hsize : size < 2 ^ 35)
    (hroom : hasRoom bytes size = true) :
    addBytes bytes size = bytes + size ∧ bytes + size ≤ Config.maxWriteQueueBytes := by
  have hle : addBytes bytes size ≤ Config.maxWriteQueueBytes := of_decide_eq_true hroom
  simp only [addBytes, Config.maxWriteQueueBytes] at *
  omega

theorem subBytes_of_le {bytes size : ℕ} (hbytes : bytes ≤ Config.maxWriteQueueBytes) (hsize : size ≤ bytes) :
    subBytes bytes size = bytes - size := by
  simp only [subBytes, Config.maxWriteQueueBytes] at *
  omega

theorem charge_queued {s : State} {client : ℕ} {req : Request} {r : WriteRequest} (hreq : s.queued client req = some r)
    (hfits : req.Fits) : charge r < 2 ^ 35 := by
  cases req <;> cases hreq <;> simp [Request.Fits, charge, State.request] at hfits ⊢ <;> omega

/-! ## Steps -/

variable {s t : State}

theorem Balanced.queued (h : Balanced s) {r : WriteRequest} (hsize : charge r < 2 ^ 35)
    (hroom : hasRoom s.queueBytes (charge r) = true) : Balanced (s.enqueue r (charge r)) := by
  obtain ⟨hadd, hle⟩ := addBytes_of_room h.queueLe hsize hroom
  refine ⟨?_, h.batch, ?_, h.batchLe⟩
  · show addBytes s.queueBytes (charge r) = total ((s.writeQueue ++ [r]) ++ s.deferred)
    rw [hadd, h.queue]
    simp only [total_append, total_cons, total_nil]
    omega
  · show addBytes s.queueBytes (charge r) ≤ _
    rw [hadd]
    exact hle

theorem Balanced.queuedBatch (h : Balanced s) {r : WriteRequest} (hsize : charge r < 2 ^ 35)
    (hroom : hasRoom s.batchQueueBytes (charge r) = true) : Balanced (s.enqueueBatch r (charge r)) := by
  obtain ⟨hadd, hle⟩ := addBytes_of_room h.batchLe hsize hroom
  refine ⟨h.queue, ?_, h.queueLe, ?_⟩
  · show addBytes s.batchQueueBytes (charge r) = total (s.batchQueue ++ [r])
    rw [hadd, h.batch, total_append, total_cons, total_nil]
    rfl
  · show addBytes s.batchQueueBytes (charge r) ≤ _
    rw [hadd]
    exact hle

/-- The request in front leaves `write_queue_`. -/
theorem Balanced.taken (h : Balanced s) {r : WriteRequest} {rest : List WriteRequest}
    (hqueue : s.writeQueue = r :: rest) (hr : Refunded r) :
    subBytes s.queueBytes (refund r) = total (rest ++ s.deferred) ∧
      subBytes s.queueBytes (refund r) ≤ Config.maxWriteQueueBytes := by
  have hbytes : s.queueBytes = refund r + total (rest ++ s.deferred) := by
    rw [h.queue, hqueue, List.cons_append, total_cons, (refund_eq_charge_iff r).mpr hr]
  have hle := h.queueLe
  rw [subBytes_of_le hle (by omega)]
  omega

theorem Balanced.step {a : Action} (h : Balanced s) (hok : Allowed s a) (hs : Server.step s a = some t) :
    Balanced t := by
  have hfront : ∀ {count : ℕ} {r : WriteRequest} {rest : List WriteRequest}, a = .writer → s.writer = .drain count →
      s.commitPending = false → s.writeQueue = r :: rest → s.defers r = false → Refunded r := by
    intro count r rest ha hw hfree hqueue hdefers
    rw [ha] at hok
    simp only [Allowed, hw, hqueue] at hok
    exact hok hfree r rfl hdefers
  cases step_moved hs with
  | queued hreq hfits hrun hroom => exact h.queued (charge_queued hreq hfits) hroom
  | queuedBatch hfits hidle hrun hroom =>
    refine h.queuedBatch ?_ hroom
    simp only [Request.Fits] at hfits
    simp only [charge, State.batchRequest, State.request, if_true]
    omega
  | startBatch =>
    unfold State.startBatch
    split <;> exact ⟨h.queue, h.batch, h.queueLe, h.batchLe⟩
  | @abortQueue client =>
    have hempty : s.batchQueue = [] := hok
    have hbytes : (s.abortQueue client).batchQueueBytes = s.batchQueueBytes := by
      simp only [State.abortQueue, hempty, List.foldl_nil]
    refine ⟨h.queue, ?_, h.queueLe, ?_⟩
    · rw [hbytes, h.batch, hempty]
      rfl
    · rw [hbytes]
      exact h.batchLe
  | requeue hw =>
    refine ⟨?_, h.batch, h.queueLe, h.batchLe⟩
    show s.queueBytes = total ((s.writeQueue ++ s.deferred) ++ [])
    rw [List.append_nil]
    exact h.queue
  | defer hw hfree hqueue hdefers =>
    refine ⟨?_, h.batch, h.queueLe, h.batchLe⟩
    show s.queueBytes = total (_ ++ (s.deferred ++ [_]))
    rw [h.queue, hqueue]
    simp only [List.cons_append, total_append, total_cons, total_nil]
    omega
  | takeCas hw hfree hqueue hdefers hcas =>
    obtain ⟨heq, hle⟩ := h.taken hqueue (hfront rfl hw hfree hqueue hdefers)
    exact ⟨heq, h.batch, hle, h.batchLe⟩
  | take hw hfree hqueue hdefers =>
    obtain ⟨heq, hle⟩ := h.taken hqueue (hfront rfl hw hfree hqueue hdefers)
    exact ⟨heq, h.batch, hle, h.batchLe⟩
  | collect hw hdue =>
    have hempty : s.batchQueue = [] := by
      simp only [Allowed, hw] at hok
      exact hok hdue
    have hmini : s.mini = [] := by
      simp [State.mini, hempty]
    refine ⟨h.queue, ?_, h.queueLe, ?_⟩
    · simp only [hmini, List.length_nil, List.drop_zero, List.foldl_nil]
      exact h.batch
    · simp only [hmini, List.foldl_nil]
      exact h.batchLe
  | _ => exact ⟨h.queue, h.batch, h.queueLe, h.batchLe⟩

/-- In every run in which each request that leaves `write_queue_` gives back its charge and no batch write leaves
`batch_queue_`, both counts are the sums of the charges of the requests in the queues, within the limit, and zero when
the queues are empty. -/
theorem counts_balanced (cfg : EngineConfig) (acts : List Action) (s : State)
    (hrun : Run Server.step Allowed (Server.init cfg) acts s) :
    Balanced s ∧ (s.writeQueue = [] → s.deferred = [] → s.queueBytes = 0) ∧
      (s.batchQueue = [] → s.batchQueueBytes = 0) := by
  have h : Balanced s := by
    refine hrun.invariant (I := Balanced) (fun _ _ _ hok hs h => h.step hok hs) ?_
    exact ⟨rfl, rfl, Nat.zero_le _, Nat.zero_le _⟩
  refine ⟨h, ?_, ?_⟩
  · intro hqueue hdeferred
    rw [h.queue, hqueue, hdeferred]
    rfl
  · intro hqueue
    rw [h.batch, hqueue]
    rfl

/-- A write and a compare-and-swap with an empty expected value; both leave the queue. -/
def evenRun : List Action :=
  ([.request 0 (.asyncWrite [1] [2]), .request 1 (.compareAndSwap [3] [] [4])] : List Action) ++
    List.replicate 9 Action.writer

theorem counts_balanced_evenRun :
    ∃ s, Run Server.step Allowed (Server.init smallConfig) evenRun s ∧ s.executed ≠ [] ∧ s.pendingCas.isSome = true ∧
      Balanced s := by
  have hend : ∃ s, Run Server.step Allowed (Server.init smallConfig) evenRun s ∧ s.executed ≠ [] ∧
      s.pendingCas.isSome = true := Run.exists_of_checked (by decide)
  obtain ⟨s, hrun, hexecuted, hcas⟩ := hend
  exact ⟨s, hrun, hexecuted, hcas, (counts_balanced _ _ _ hrun).1⟩

/-- A delete that is pushed and taken. -/
def deleteRun (key : Bytes) : List Action := .request 0 (.asyncDelete key) :: List.replicate 5 .writer

/-- After the delete of a short key 63 bytes remain charged to empty queues; after that of a key of 65 bytes the count
has wrapped. -/
theorem delete_unbalances_count :
    (∃ s, Run Server.step anyStep (Server.init smallConfig) (deleteRun [1]) s ∧ s.writeQueue = [] ∧ s.deferred = [] ∧
      s.queueBytes = 63) ∧
      ∃ s, Run Server.step anyStep (Server.init smallConfig) (deleteRun (List.replicate 65 1)) s ∧ s.writeQueue = [] ∧
        s.deferred = [] ∧ s.queueBytes = 2 ^ 64 - 1 :=
  ⟨Run.exists_of_checked (by decide), Run.exists_of_checked (by decide)⟩

end Kvdb.QueueCharges
