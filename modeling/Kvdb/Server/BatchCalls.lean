import Kvdb.Server.Batches

/-! # The operations of a batch on their way to the engine

`BatchPut` and `BatchDelete` of the client send the same request, a delete with an empty value. The server tells them
apart by `value.empty()`, which it asks behind `std::move(value)`: every operation of a batch reaches the engine as a
delete. -/
namespace Kvdb.BatchCalls
set_option autoImplicit false

open Kvdb.Runs Kvdb.Engine Kvdb.Server Kvdb.BatchCommits
open Kvdb.Protocol (Request encode recvRequest recvRequest_encode)

/-- An operation of a batch. -/
inductive BatchCall where
  | insert (key value : Bytes)
  | delete (key : Bytes)
  deriving DecidableEq

namespace BatchCall

/-- What the client sends for the operation. -/
def request : BatchCall → Request
  | .insert key value => .batchWrite key value
  | .delete key => .batchWrite key []

/-- A put has a value, and the strings fit their length words. -/
def WellFormed : BatchCall → Prop
  | .insert key value => key.length < 2 ^ 32 ∧ value.length < 2 ^ 32 ∧ value ≠ []
  | .delete key => key.length < 2 ^ 32

def IsDelete : BatchCall → Prop
  | .insert _ _ => False
  | .delete _ => True

instance decidableIsDelete (call : BatchCall) : Decidable call.IsDelete := by
  cases call <;> unfold IsDelete <;> infer_instance

/-- The call of the engine. -/
def run (e : Engine) : BatchCall → Outcome (Engine × ℕ)
  | .insert key value => e.batchInsert key value
  | .delete key => e.batchDelete key

end BatchCall

/-- The operation that a request was sent for. -/
def asked (r : WriteRequest) : BatchCall := if r.value.isEmpty then .delete r.key else .insert r.key r.value

/-- The operation that the writer calls for a request. -/
def received (r : WriteRequest) : BatchCall := if r.isDelete then .delete r.key else .insert r.key r.value

theorem batchOperation_eq (s : State) (r : WriteRequest) :
    s.batchOperation r = State.outcome (s.store.batchWritten (State.effect r)) ((received r).run s.store.engine) := by
  unfold State.batchOperation received State.effect
  split
  · rfl
  · rfl

variable {s t : State}

/-- The operations that a client has sent since it opened its batch, and those of them that the engine has received. -/
def askedCalls (s : State) (client : ℕ) : List BatchCall := (s.sent client).map asked

def receivedCalls (s : State) (client : ℕ) : List BatchCall :=
  (ofBatch (s.sent client) (s.applied.map Applied.request)).map received

theorem askedCalls_step {client : ℕ} {key value : Bytes}
    (hs : Server.step s (.request client (.batchWrite key value)) = some t) :
    askedCalls t client = askedCalls s client ++ [if value.isEmpty then .delete key else .insert key value] := by
  simp only [Server.step, State.handle, State.pushBatch] at hs
  split at hs
  · split at hs
    · cases hs
    · cases hs
      have hsent : (s.enqueueBatch (s.batchRequest client key value) (key.length + value.length + 64)).sent client =
          s.sent client ++ [s.batchRequest client key value] := sent_enqueueBatch _ _
      rw [askedCalls, hsent, List.map_append]
      rfl
  · cases hs

/-- The server reads the request that the client sent, and queues it for the operation that the client asked for. -/
theorem call_arrives {call : BatchCall} (h : call.WellFormed) (client : ℕ) (rest : Bytes) :
    recvRequest (encode call.request ++ rest) = some (call.request, rest) ∧
      ∀ t, Server.step s (.request client call.request) = some t →
        askedCalls t client = askedCalls s client ++ [call] := by
  cases call with
  | insert key value =>
    obtain ⟨hkey, hvalue, hne⟩ := h
    have hfits : (Request.batchWrite key value).Fits := ⟨hkey, hvalue⟩
    refine ⟨recvRequest_encode hfits rest, ?_⟩
    intro t hs
    rw [askedCalls_step hs, if_neg]
    rw [List.isEmpty_iff]
    exact hne
  | delete key =>
    have hfits : (Request.batchWrite key []).Fits := ⟨h, by decide⟩
    refine ⟨recvRequest_encode hfits rest, ?_⟩
    intro t hs
    rw [askedCalls_step hs]
    rfl

theorem received_eq_asked_iff {r : WriteRequest} (h : r.isDelete = true) : received r = asked r ↔ (asked r).IsDelete := by
  rw [received, if_pos h, asked]
  split
  · exact ⟨fun _ => trivial, fun _ => rfl⟩
  · exact ⟨fun heq => (by cases heq), fun hfalse => hfalse.elim⟩

/-- Every operation that a client sends is read as it was sent and queued behind the others of its batch. In every run
that commits whole batches, the engine has received the operations of a batch whose commit is answered, each as it was
asked for and in their order, exactly when none of them is a put. -/
theorem batch_received_iff (cfg : EngineConfig) (acts : List Action) (s t : State) (client : ℕ)
    (hrun : Run Server.step Allowed (Server.init cfg) acts s) (hok : Allowed s (.answerCommit client))
    (hs : Server.step s (.answerCommit client) = some t) :
    (∀ u : State, ∀ call : BatchCall, call.WellFormed → ∀ rest,
      recvRequest (encode call.request ++ rest) = some (call.request, rest) ∧
        ∀ u', Server.step u (.request client call.request) = some u' →
          askedCalls u' client = askedCalls u client ++ [call]) ∧
      (receivedCalls s client = askedCalls s client ↔ ∀ call ∈ askedCalls s client, call.IsDelete) := by
  have h := Commits.of_run hrun
  refine ⟨fun u call hcall rest => call_arrives hcall client rest, ?_⟩
  rw [receivedCalls, askedCalls, h.sent.applied_inOrder (h.answered hok hs), List.map_inj_left, List.forall_mem_map]
  refine forall_congr' fun r => forall_congr' fun hr => ?_
  exact received_eq_asked_iff (h.sent.client client r hr).2

/-- A batch with a delete only. -/
def deletesRun : List Action :=
  ([.request 1 .batchBegin, .request 1 (BatchCall.delete [1]).request, .request 1 .batchCommit] : List Action) ++
    List.replicate 9 Action.writer ++ ([.background (.sync true)] : List Action) ++ List.replicate 2 Action.writer

theorem batch_received_deletesRun :
    ∃ s, Run Server.step Allowed (Server.init smallConfig) deletesRun s ∧ askedCalls s 1 = [.delete [1]] ∧
      receivedCalls s 1 = askedCalls s 1 := by
  have hend : ∃ s, Run Server.step Allowed (Server.init smallConfig) deletesRun s ∧ s.handlers 1 = .committing ∧
      s.commitPending = false ∧ askedCalls s 1 = [.delete [1]] := Run.exists_of_checked (by decide)
  obtain ⟨s, hrun, hcommitting, hpending, hasked⟩ := hend
  have hs : Server.step s (.answerCommit 1) = some (s.withHandler 1 .idle) := if_pos ⟨hcommitting, .inl hpending⟩
  refine ⟨s, hrun, hasked, (batch_received_iff _ _ _ _ 1 hrun hpending hs).2.mpr ?_⟩
  rw [hasked]
  decide

/-- A batch with a put, and the answer to its commit. -/
def putRun : List Action :=
  ([.request 1 .batchBegin, .request 1 (BatchCall.insert [1] [2]).request, .request 1 .batchCommit] : List Action) ++
    List.replicate 9 Action.writer ++ ([.background (.sync true)] : List Action) ++ List.replicate 2 Action.writer ++
    ([.answerCommit 1] : List Action)

/-- The engine has received a delete, and the committed batch leaves no value for the key. -/
theorem put_received_as_delete :
    ∃ s, Run Server.step anyStep (Server.init smallConfig) putRun s ∧ s.handlers 1 = .idle ∧
      askedCalls s 1 = [.insert [1] [2]] ∧ receivedCalls s 1 = [.delete [1]] ∧
      (s.store.engine.lookup [1]).1 = none :=
  Run.exists_of_checked (by decide)

end Kvdb.BatchCalls
