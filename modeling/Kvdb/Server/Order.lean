import Kvdb.Server.Moves

/-! # The order of the requests on a key

The writer takes requests from the front of `write_queue_`, but while a compare-and-swap is pending it puts the requests
on its key, and every other compare-and-swap, aside in `deferred_requests_`. When the compare-and-swap has ended they go
back to the end of the queue, behind what has arrived since. -/
namespace Kvdb.Server
set_option autoImplicit false

open Kvdb.Runs Kvdb.Engine

/-- The request of the pending compare-and-swap. -/
def State.casRequest (s : State) : List WriteRequest := (s.pendingCas.map PendingCAS.request).toList

/-- The request that the writer has taken and not executed. -/
def applying : Writer → List WriteRequest
  | .apply r _ => [r]
  | _ => []

theorem applying_resume (s : State) (next : Next) : applying (s.resume next) = [] := by
  rcases s.resume_cases next with ⟨count, h⟩ | h | h <;> rw [h] <;> rfl

/-- Only a pending compare-and-swap has requests put aside, and the writer holds no other request on its key. -/
structure Deferring (s : State) : Prop where
  free : s.pendingCas = none → s.writer ≠ .requeue → s.deferred = []
  ended : s.writer = .requeue → s.pendingCas = none
  apart : ∀ r ∈ applying s.writer, ∀ q ∈ s.casRequest, q.key ≠ r.key

section Deferring

variable {s t : State}

theorem defers_eq_false {r q : WriteRequest} (h : s.defers r = false) (hq : q ∈ s.casRequest) :
    r.isCas = false ∧ q.key ≠ r.key := by
  unfold State.casRequest at hq
  unfold State.defers at h
  cases hcas : s.pendingCas with
  | none =>
    rw [hcas] at hq
    cases hq
  | some p =>
    rw [hcas] at hq h
    simp only [Option.map_some, Option.toList_some, List.mem_singleton] at hq
    simp only [Option.any_some, Bool.or_eq_false_iff, decide_eq_false_iff_not] at h
    rw [hq]
    exact ⟨h.1, fun heq => h.2 heq.symm⟩

theorem pendingCas_eq_none (h : s.casRequest = []) : s.pendingCas = none := by
  cases hcas : s.pendingCas with
  | none => rfl
  | some p => simp [State.casRequest, hcas] at h

/-- A compare-and-swap is taken only when none is pending. -/
theorem casRequest_of_taken {r : WriteRequest} (hdefers : s.defers r = false) (hcas : r.isCas = true) :
    s.pendingCas = none := by
  refine pendingCas_eq_none (List.eq_nil_iff_forall_not_mem.mpr ?_)
  intro q hq
  rw [(defers_eq_false hdefers hq).1] at hcas
  cases hcas

/-- A step of the writer that leaves the requests put aside alone and ends with no request in hand. -/
theorem Deferring.congr (h : Deferring s) (hdeferred : t.deferred = s.deferred) (hcas : t.casRequest = s.casRequest)
    (hbefore : s.writer ≠ .requeue) (hafter : t.writer ≠ .requeue) (hempty : applying t.writer = []) : Deferring t := by
  refine ⟨?_, fun hw => absurd hw hafter, ?_⟩
  · intro hnone _
    rw [hdeferred]
    refine h.free (pendingCas_eq_none ?_) hbefore
    rw [← hcas, State.casRequest, hnone]
    rfl
  · rw [hempty]
    exact fun r hr => (by cases hr)

theorem Deferring.step {a : Action} (h : Deferring s) (hs : Server.step s a = some t) : Deferring t := by
  cases step_moved hs with
  | startBatch =>
    unfold State.startBatch
    split <;> exact ⟨h.free, h.ended, h.apart⟩
  | readCas hcas =>
    have hw : s.writer ≠ .requeue := by
      intro hw
      rw [h.ended hw] at hcas
      cases hcas
    have hrequest : s.casRequest = _ := congrArg (fun p => (p.map PendingCAS.request).toList) hcas
    refine ⟨fun hnone => (by cases hnone), fun hw' => absurd hw' hw, ?_⟩
    intro r hr q hq
    refine h.apart r hr q ?_
    rw [hrequest]
    exact hq
  | swap hw hcas hswaps hwrote => exact ⟨fun _ hne => absurd rfl hne, fun _ => rfl, fun r hr => (by cases hr)⟩
  | noSwap hw hcas => exact ⟨fun _ hne => absurd rfl hne, fun _ => rfl, fun r hr => (by cases hr)⟩
  | requeue hw => exact ⟨fun _ _ => rfl, fun hw' => (by cases hw'), fun r hr => (by cases hr)⟩
  | defer hw hfree hqueue hdefers =>
    have hbusy : s.pendingCas ≠ none := by
      intro hnone
      rw [State.defers, hnone] at hdefers
      cases hdefers
    exact ⟨fun hnone => absurd hnone hbusy, h.ended, h.apart⟩
  | takeCas hw hfree hqueue hdefers hcas =>
    refine ⟨fun hnone => (by cases hnone), ?_, ?_⟩
    · intro hw'
      rw [hw] at hw'
      cases hw'
    · rw [hw]
      exact fun r hr => (by cases hr)
  | take hw hfree hqueue hdefers =>
    refine ⟨?_, fun hw' => (by cases hw'), ?_⟩
    · intro hnone _
      refine h.free hnone ?_
      rw [hw]
      exact fun hw' => (by cases hw')
    · intro r hr q hq
      cases List.mem_singleton.mp hr
      exact (defers_eq_false hdefers hq).2
  | finalized hw hcommit hdone | unfinished hw =>
    refine h.congr rfl rfl (by rw [hw]; exact fun hw' => (by cases hw')) ?_ (applying_resume s _)
    rcases s.resume_cases _ with ⟨count, heq⟩ | heq | heq <;> rw [heq] <;> exact fun hw' => (by cases hw')
  | queued | queuedBatch | commitBatch | abortQueue | answer | answerCommit | abortEngine | abortNothing | store | stop =>
    exact ⟨h.free, h.ended, h.apart⟩
  | _ hw => exact h.congr rfl rfl (by rw [hw]; exact fun hw' => (by cases hw')) (fun hw' => (by cases hw')) rfl

theorem deferring_init (cfg : EngineConfig) : Deferring (Server.init cfg) :=
  ⟨fun _ _ => rfl, fun hw => (by cases hw), fun _ hr => (by cases hr)⟩

end Deferring

end Kvdb.Server

namespace Kvdb.RequestOrder
set_option autoImplicit false

open Kvdb.Runs Kvdb.Engine Kvdb.Server

def onKey (key : Bytes) (rs : List WriteRequest) : List WriteRequest := rs.filter fun r => decide (r.key = key)

@[simp] theorem onKey_nil (key : Bytes) : onKey key [] = [] := rfl

@[simp] theorem onKey_append (key : Bytes) (xs ys : List WriteRequest) :
    onKey key (xs ++ ys) = onKey key xs ++ onKey key ys :=
  List.filter_append xs ys

/-- For each key, the requests are executed in the order in which they were pushed. -/
def Ordered (s : State) : Prop := ∀ key, onKey key s.executed <+: onKey key s.pushed

/-- No request overtakes one on its key that was put aside: neither by being taken, nor by standing in the queue when
those put aside go back. -/
def Allowed (s : State) : Action → Prop
  | .writer =>
    match s.writer with
    | .drain _ => s.commitPending = false → ∀ r ∈ s.writeQueue.head?, s.defers r = false → ∀ q ∈ s.deferred, q.key ≠ r.key
    | .requeue => ∀ q ∈ s.deferred, ∀ r ∈ s.writeQueue, q.key ≠ r.key
    | _ => True
  | _ => True

instance decidableAllowed (s : State) (a : Action) : Decidable (Allowed s a) := by
  rcases a with ⟨⟩ <;> unfold Allowed
  case writer =>
    generalize s.writer = w
    rcases w with ⟨⟩ <;> infer_instance
  all_goals infer_instance

theorem onKey_swap {xs ys : List WriteRequest} (h : ∀ x ∈ xs, ∀ y ∈ ys, x.key ≠ y.key) (key : Bytes) :
    onKey key (xs ++ ys) = onKey key (ys ++ xs) := by
  by_cases hx : ∃ x ∈ xs, x.key = key
  · obtain ⟨x, hx, hkey⟩ := hx
    have hys : onKey key ys = [] := by
      refine List.filter_eq_nil_iff.mpr ?_
      intro y hy hykey
      exact h x hx y hy (hkey.trans (of_decide_eq_true hykey).symm)
    rw [onKey_append, onKey_append, hys, List.append_nil, List.nil_append]
  · have hxs : onKey key xs = [] := by
      refine List.filter_eq_nil_iff.mpr ?_
      exact fun x hx' hxkey => hx ⟨x, hx', of_decide_eq_true hxkey⟩
    rw [onKey_append, onKey_append, hxs, List.append_nil, List.nil_append]

/-- The requests in the order in which they are executed when nothing overtakes. -/
def line (s : State) : List WriteRequest :=
  s.executed ++ s.casRequest ++ applying s.writer ++ s.deferred ++ s.writeQueue

structure InLine (s : State) : Prop where
  deferring : Deferring s
  same : ∀ key, onKey key (line s) = onKey key s.pushed

variable {s t : State}

/-- The front of the queue is taken past the requests that were put aside. -/
theorem onKey_taken {r : WriteRequest} {rest : List WriteRequest} (hqueue : s.writeQueue = r :: rest)
    (hapart : ∀ q ∈ s.deferred, q.key ≠ r.key) (key : Bytes) :
    onKey key ([r] ++ s.deferred ++ rest) = onKey key (s.deferred ++ s.writeQueue) := by
  have hswap : onKey key (s.deferred ++ [r]) = onKey key ([r] ++ s.deferred) := by
    refine onKey_swap ?_ key
    intro q hq x hx
    rw [List.mem_singleton.mp hx]
    exact hapart q hq
  rw [hqueue, onKey_append, ← hswap, ← onKey_append, List.append_assoc, List.singleton_append]

/-- The request in hand is executed before the pending compare-and-swap. -/
theorem onKey_executed (h : Deferring s) {r : WriteRequest} {count : ℕ} (hw : s.writer = .apply r count) (key : Bytes) :
    onKey key (s.executed ++ [r] ++ s.casRequest) = onKey key (s.executed ++ s.casRequest ++ applying s.writer) := by
  have hswap : onKey key (s.casRequest ++ [r]) = onKey key ([r] ++ s.casRequest) := by
    refine onKey_swap ?_ key
    intro q hq x hx
    rw [List.mem_singleton.mp hx]
    refine h.apart r ?_ q hq
    rw [hw]
    exact List.mem_singleton_self r
  rw [hw, List.append_assoc, List.append_assoc, onKey_append, ← hswap, ← onKey_append]
  rfl

theorem line_same {a : Action} (h : InLine s) (hok : Allowed s a) (hs : Server.step s a = some t) (key : Bytes) :
    onKey key (line t) = onKey key t.pushed := by
  have hsame := h.same key
  cases step_moved hs with
  | queued hreq hfits hrun hroom =>
    show onKey key (s.executed ++ s.casRequest ++ applying s.writer ++ s.deferred ++ (s.writeQueue ++ [_])) =
      onKey key (s.pushed ++ [_])
    rw [← List.append_assoc, onKey_append, onKey_append key s.pushed, ← hsame]
    rfl
  | startBatch =>
    unfold State.startBatch
    split <;> exact hsame
  | readCas hcas =>
    rw [line, State.casRequest, hcas] at hsame
    exact hsame
  | swap hw hcas hswaps hwrote | noSwap hw hcas =>
    rw [line, State.casRequest, hcas, hw] at hsame
    refine Eq.trans ?_ hsame
    show onKey key (s.executed ++ [_] ++ [] ++ [] ++ s.deferred ++ s.writeQueue) = _
    simp [applying]
  | requeue hw =>
    simp only [Allowed, hw] at hok
    have hswap := onKey_swap hok key
    rw [line, hw, List.append_assoc, onKey_append, hswap, ← onKey_append] at hsame
    rw [← hsame]
    simp [line, State.casRequest, applying]
  | defer hw hfree hqueue hdefers =>
    rw [line, hqueue] at hsame
    rw [← hsame]
    simp [line, State.casRequest]
  | takeCas hw hfree hqueue hdefers hcas =>
    have hnone := casRequest_of_taken hdefers hcas
    have hdeferred := h.deferring.free hnone (by rw [hw]; exact fun hw' => (by cases hw'))
    rw [line, hqueue, State.casRequest, hnone, hdeferred, hw] at hsame
    rw [← hsame]
    simp [line, State.casRequest, hdeferred, applying, hw]
  | take hw hfree hqueue hdefers =>
    simp only [Allowed, hw] at hok
    have htaken := onKey_taken hqueue (hok hfree _ (by rw [hqueue]; rfl) hdefers) key
    rw [line, hw, List.append_assoc, onKey_append, ← htaken] at hsame
    rw [← hsame]
    simp [line, State.casRequest, applying]
  | applied hw hwrote | refused hw =>
    have hexec := onKey_executed h.deferring hw key
    rw [line, List.append_assoc, onKey_append, ← hexec, ← onKey_append] at hsame
    refine Eq.trans ?_ hsame
    show onKey key (s.executed ++ [_] ++ s.casRequest ++ [] ++ s.deferred ++ s.writeQueue) = _
    simp
  | finalized hw hcommit hdone | unfinished hw =>
    rw [line, hw] at hsame
    rw [← hsame]
    simp only [line, State.casRequest, applying_resume]
    rfl
  | queuedBatch | commitBatch | abortQueue | answer | answerCommit | abortEngine | abortNothing | store | stop =>
    exact hsame
  | _ hw =>
    rw [line, hw] at hsame
    exact hsame

theorem InLine.step {a : Action} (h : InLine s) (hok : Allowed s a) (hs : Server.step s a = some t) : InLine t :=
  ⟨h.deferring.step hs, line_same h hok hs⟩

/-- In every run in which no request overtakes one on its key that was put aside, the requests on each key are executed
in the order of their arrival. -/
theorem executed_in_order (cfg : EngineConfig) (acts : List Action) (s : State)
    (hrun : Run Server.step Allowed (Server.init cfg) acts s) : Ordered s := by
  have h : InLine s :=
    hrun.invariant (I := InLine) (fun _ _ _ hok hs h => h.step hok hs) ⟨deferring_init cfg, fun _ => rfl⟩
  intro key
  rw [← h.same key, line, List.append_assoc, List.append_assoc, List.append_assoc, onKey_append]
  exact List.prefix_append _ _

/-- A compare-and-swap on a key, a write to it that is put aside, and the end of both. -/
def deferredRun : List Action :=
  ([.request 0 (.compareAndSwap [1] [5] [6]), .request 1 (.asyncWrite [1] [2])] : List Action) ++
    List.replicate 8 Action.writer ++
    ([.readCas] : List Action) ++ List.replicate 8 Action.writer

theorem executed_in_order_deferredRun :
    ∃ s, Run Server.step Allowed (Server.init smallConfig) deferredRun s ∧ s.executed.length = 2 ∧ Ordered s := by
  have hend : ∃ s, Run Server.step Allowed (Server.init smallConfig) deferredRun s ∧ s.executed.length = 2 :=
    Run.exists_of_checked (by decide)
  obtain ⟨s, hrun, hlength⟩ := hend
  exact ⟨s, hrun, hlength, executed_in_order _ _ _ hrun⟩

/-- The client writes to the key once more before those put aside go back to the queue. -/
def overtakenRun : List Action :=
  ([.request 0 (.compareAndSwap [1] [5] [6]), .request 1 (.asyncWrite [1] [2])] : List Action) ++
    List.replicate 8 Action.writer ++
    ([.readCas, .request 1 (.asyncWrite [1] [3])] : List Action) ++ List.replicate 12 Action.writer

/-- Its second write is executed before its first one, and the value of the first one stays. -/
theorem deferred_write_overtaken :
    ∃ s, Run Server.step anyStep (Server.init smallConfig) overtakenRun s ∧
      s.pushed.map WriteRequest.value = [[6], [2], [3]] ∧ s.executed.map WriteRequest.value = [[6], [3], [2]] ∧
      (s.store.engine.lookup [1]).1 = some [2] ∧ ¬ Ordered s := by
  have hend : ∃ s, Run Server.step anyStep (Server.init smallConfig) overtakenRun s ∧
      s.pushed.map WriteRequest.value = [[6], [2], [3]] ∧ s.executed.map WriteRequest.value = [[6], [3], [2]] ∧
      (s.store.engine.lookup [1]).1 = some [2] ∧ (onKey [1] s.executed).isPrefixOf (onKey [1] s.pushed) = false :=
    Run.exists_of_checked (by decide)
  obtain ⟨s, hrun, hpushed, hexecuted, hlookup, hprefix⟩ := hend
  refine ⟨s, hrun, hpushed, hexecuted, hlookup, fun h => ?_⟩
  rw [List.isPrefixOf_iff_prefix.mpr (h [1])] at hprefix
  cases hprefix

end Kvdb.RequestOrder
