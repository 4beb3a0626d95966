import Kvdb.Server.Promises

/-! # Compare-and-swap

A thread of its own reads the key while the writer goes on with other requests. Those on the key wait, but a batch does
not: when it is committed between the read and the insert, the insert replaces a value that was never compared. -/
namespace Kvdb.CompareAndSwap
set_option autoImplicit false

open Kvdb.Runs Kvdb.Engine Kvdb.Server
open Kvdb.BatchServing (Effect last last_cons last_append)

/-- The read finds the committed value, and no batch with a write to the key is committed between the read and the
insert. -/
def Allowed (s : State) : Action → Prop
  | .readCas => ∀ p ∈ s.pendingCas, (s.store.engine.lookup p.request.key).1 = last s.store.committed p.request.key
  | .writer =>
    match s.writer with
    | .finalize _ => s.commitFinalizing = true → s.store.engine.commitBatchFinalize.1 = true →
        ∀ p ∈ s.pendingCas, p.readFuture.isSome = true → p.request.key ∉ s.store.pending.map Effect.key
    | _ => True
  | _ => True

instance decidableAllowed (s : State) (a : Action) : Decidable (Allowed s a) := by
  rcases a with ⟨⟩ <;> unfold Allowed
  case writer =>
    generalize s.writer = w
    rcases w with ⟨⟩ <;> infer_instance
  all_goals infer_instance

/-- The compare-and-swap requests that were answered: a success found the expected value committed and was inserted, a
failure was not inserted. -/
def Answered (s : State) : Prop :=
  ∀ r ∈ s.pushed, r.isCas = true →
    ((r.id, true) ∈ s.resolved → ⟨r, some r.expectedValue, true⟩ ∈ s.ended) ∧
      ((r.id, false) ∈ s.resolved → ∃ before, ⟨r, before, false⟩ ∈ s.ended)

/-- What a read has returned is committed, and each compare-and-swap that has ended has the answer that belongs to what
it did. -/
structure Atomic (s : State) : Prop where
  deferring : Deferring s
  accounted : Accounted s
  read : ∀ r current, s.pendingCas = some ⟨r, some current⟩ → current = (last s.store.committed r.key).getD []
  compared : ∀ c ∈ s.ended, c.inserted = true → c.before = some c.request.expectedValue
  inserted : ∀ c ∈ s.ended, c.inserted = true →
    c.request.id ∈ s.pendingWrites.map WriteRequest.id ∨ (c.request.id, true) ∈ s.resolved
  failed : ∀ c ∈ s.ended, c.inserted = false → (c.request.id, false) ∈ s.resolved
  placed : ∀ r ∈ s.pushed, r.isCas = true →
    r ∈ s.writeQueue ++ s.deferred ++ s.casRequest ∨ r ∈ s.ended.map EndedCAS.request

variable {s t : State}

theorem read_step {a : Action} (h : Atomic s) (hok : Allowed s a) (hs : Server.step s a = some t) :
    ∀ r current, t.pendingCas = some ⟨r, some current⟩ → current = (last t.store.committed r.key).getD [] := by
  have hread := h.read
  cases step_moved hs with
  | startBatch =>
    unfold State.startBatch
    split <;> exact hread
  | @readCas q hcas =>
    intro r current heq
    cases heq
    exact congrArg (fun v => Option.getD v []) (hok ⟨q, none⟩ hcas)
  | store hquiet =>
    intro r current heq
    rw [hread r current heq, hquiet.committed]
  | swap hw hcas hswaps hwrote => exact fun r current heq => (by cases heq)
  | noSwap hw hcas => exact fun r current heq => (by cases heq)
  | takeCas hw hfree hqueue hdefers hcas => exact fun r current heq => (by cases heq)
  | @applied q count b hw hwrote =>
    intro r current heq
    have hne : r.key ≠ q.key := by
      refine h.deferring.apart q ?_ r ?_
      · rw [hw]
        exact List.mem_singleton_self q
      · rw [State.casRequest, show s.pendingCas = some ⟨r, some current⟩ from heq]
        exact List.mem_singleton_self r
    rw [hread r current heq, hwrote.committed, last_cons, if_neg]
    exact fun hkey => hne hkey.symm
  | miniApplied hw hwrote =>
    intro r current heq
    rw [hread r current heq, hwrote.committed]
  | @finish mini commit hw =>
    intro r current heq
    rw [hread r current heq]
    unfold State.finishMini
    cases commit <;> rfl
  | finalized hw hcommit hdone =>
    intro r current heq
    simp only [Allowed, hw] at hok
    have hapart := hok hcommit hdone ⟨r, some current⟩ heq rfl
    rw [hread r current heq]
    exact congrArg (fun v => Option.getD v []) (last_append hapart s.store.committed).symm
  | _ => exact hread

/-- A swap found the expected value committed. -/
theorem Atomic.swapped (h : Atomic s) {r : WriteRequest} {current : Bytes}
    (hcas : s.pendingCas = some ⟨r, some current⟩) (hswaps : State.swaps r current = true) :
    last s.store.committed r.key = some r.expectedValue := by
  simp only [State.swaps, Bool.and_eq_true, Bool.not_eq_eq_eq_not, Bool.not_true, List.isEmpty_eq_false_iff,
    beq_iff_eq] at hswaps
  have hread := h.read r current hcas
  cases hlast : last s.store.committed r.key with
  | none =>
    rw [hlast] at hread
    exact absurd hread hswaps.1
  | some v =>
    rw [hlast] at hread
    rw [← hswaps.2, hread]
    rfl

/-! ## Ended requests -/

/-- A step ends at most one compare-and-swap. One that is not inserted leaves the store as it is. -/
theorem ended_step {a : Action} (hs : Server.step s a = some t) :
    t.ended = s.ended ∨
      ∃ r current inserted, s.pendingCas = some ⟨r, some current⟩ ∧
        t.ended = s.ended ++ [⟨r, last s.store.committed r.key, inserted⟩] ∧
        ((inserted = true ∧ State.swaps r current = true ∧ r.id ∈ t.pendingWrites.map WriteRequest.id ∧
          t.store.committed = ⟨r.key, shownValue r.value⟩ :: s.store.committed) ∨
        (inserted = false ∧ (r.id, false) ∈ t.resolved ∧ t.store = s.store)) := by
  cases step_moved hs with
  | startBatch =>
    unfold State.startBatch
    split <;> exact .inl rfl
  | @swap r current b hw hcas hswaps hwrote =>
    refine .inr ⟨r, current, true, hcas, rfl, .inl ⟨rfl, hswaps, ?_, hwrote.committed⟩⟩
    exact List.mem_map.mpr ⟨_, List.mem_append_right _ (List.mem_singleton_self _), rfl⟩
  | @noSwap r current hw hcas =>
    refine .inr ⟨r, current, false, hcas, rfl, .inr ⟨rfl, ?_, rfl⟩⟩
    exact List.mem_append_right _ (List.mem_singleton_self _)
  | _ => exact .inl rfl

theorem resolved_step {a : Action} (hs : Server.step s a = some t) : s.resolved ⊆ t.resolved := by
  cases step_moved hs with
  | startBatch =>
    unfold State.startBatch
    split <;> exact fun _ hx => hx
  | noSwap | refused | miniRefused | fulfill => exact List.subset_append_left _ _
  | _ => exact fun _ hx => hx

/-- A request leaves `pending_writes_` with its promise set to success. -/
theorem pendingWrites_step {a : Action} (hs : Server.step s a = some t) {i : ℕ}
    (hi : i ∈ s.pendingWrites.map WriteRequest.id) :
    i ∈ t.pendingWrites.map WriteRequest.id ∨ (i, true) ∈ t.resolved := by
  cases step_moved hs with
  | startBatch =>
    unfold State.startBatch
    split <;> exact .inl hi
  | swap | applied | finish =>
    refine .inl ?_
    obtain ⟨r, hr, hid⟩ := List.mem_map.mp hi
    exact List.mem_map.mpr ⟨r, List.mem_append_left _ hr, hid⟩
  | fulfill hw =>
    obtain ⟨r, hr, hid⟩ := List.mem_map.mp hi
    have hsplit :=
      List.takeWhile_append_dropWhile (p := fun r => decide (r.seq ≤ s.store.engine.syncedSeq)) (l := s.pendingWrites)
    rw [← hsplit] at hr
    rcases List.mem_append.mp hr with hr | hr
    · refine .inr (List.mem_append_right _ ?_)
      exact List.mem_map.mpr ⟨r, hr, congrArg (fun i => (i, true)) hid⟩
    · exact .inl (List.mem_map.mpr ⟨r, hr, hid⟩)
  | _ => exact .inl hi

theorem placed_step {a : Action} (hs : Server.step s a = some t)
    (h : ∀ r ∈ s.pushed, r.isCas = true →
      r ∈ s.writeQueue ++ s.deferred ++ s.casRequest ∨ r ∈ s.ended.map EndedCAS.request) :
    ∀ r ∈ t.pushed, r.isCas = true →
      r ∈ t.writeQueue ++ t.deferred ++ t.casRequest ∨ r ∈ t.ended.map EndedCAS.request := by
  cases step_moved hs with
  | startBatch =>
    unfold State.startBatch
    split <;> exact h
  | @queued client req q hreq hfits hrun hroom =>
    intro r hr hcas
    show r ∈ (s.writeQueue ++ [q]) ++ s.deferred ++ s.casRequest ∨ _
    have hold := h r
    simp only [State.enqueue, List.mem_append, List.mem_singleton] at hr hold ⊢
    tauto
  | @readCas q hcas =>
    intro r hr hrcas
    have hold := h r hr hrcas
    rw [State.casRequest, hcas] at hold
    exact hold
  | @swap q current b hw hcas hswaps hwrote =>
    intro r hr hrcas
    have hold := h r hr hrcas
    simp only [State.casRequest, State.endCas, hcas, Option.map_some, Option.map_none, Option.toList_some,
      Option.toList_none, List.mem_append, List.mem_singleton, List.map_append, List.map_cons, List.map_nil,
      List.not_mem_nil] at hold ⊢
    tauto
  | @noSwap q current hw hcas =>
    intro r hr hrcas
    have hold := h r hr hrcas
    simp only [State.casRequest, State.endCas, State.resolve, hcas, Option.map_some, Option.map_none, Option.toList_some,
      Option.toList_none, List.mem_append, List.mem_singleton, List.map_append, List.map_cons, List.map_nil,
      List.not_mem_nil] at hold ⊢
    tauto
  | requeue hw =>
    intro r hr hrcas
    have hold := h r hr hrcas
    simp only [State.casRequest, List.mem_append, List.not_mem_nil] at hold ⊢
    tauto
  | defer hw hfree hqueue hdefers =>
    intro r hr hrcas
    have hold := h r hr hrcas
    simp only [State.casRequest, hqueue, List.mem_append, List.mem_cons, List.not_mem_nil] at hold ⊢
    tauto
  | takeCas hw hfree hqueue hdefers hcas =>
    intro r hr hrcas
    have hold := h r hr hrcas
    simp only [State.casRequest, hqueue, casRequest_of_taken hdefers hcas, Option.map_some, Option.map_none,
      Option.toList_some, Option.toList_none, List.mem_append, List.mem_cons, List.not_mem_nil] at hold ⊢
    tauto
  | take hw hfree hqueue hdefers hcas =>
    intro r hr hrcas
    have hold := h r hr hrcas
    have hne : r ≠ _ := fun heq => absurd (hcas.symm.trans (heq ▸ hrcas)) (by decide)
    simp only [State.casRequest, hqueue, List.mem_append, List.mem_cons] at hold ⊢
    tauto
  | _ => exact h

/-- What holds of the requests that have ended and of the one that ends, holds after the step. -/
theorem ended_rule {P : EndedCAS → Prop} {a : Action} (hs : Server.step s a = some t) (hold : ∀ c ∈ s.ended, P c)
    (hswap : ∀ r current, s.pendingCas = some ⟨r, some current⟩ → State.swaps r current = true →
      r.id ∈ t.pendingWrites.map WriteRequest.id → P ⟨r, last s.store.committed r.key, true⟩)
    (hfail : ∀ r, (r.id, false) ∈ t.resolved → P ⟨r, last s.store.committed r.key, false⟩) : ∀ c ∈ t.ended, P c := by
  rcases ended_step hs with hended | ⟨r, current, inserted, hcas, hended, hcase⟩
  · rw [hended]
    exact hold
  · rw [hended]
    intro c hc
    rcases List.mem_append.mp hc with hc | hc
    · exact hold c hc
    · cases List.mem_singleton.mp hc
      rcases hcase with ⟨rfl, hswaps, hin, -⟩ | ⟨rfl, hset, -⟩
      · exact hswap r current hcas hswaps hin
      · exact hfail r hset

theorem Atomic.step {a : Action} (h : Atomic s) (hok : Allowed s a) (hs : Server.step s a = some t) : Atomic t := by
  refine ⟨h.deferring.step hs, h.accounted.step hs, read_step h hok hs, ?_, ?_, ?_, placed_step hs h.placed⟩
  · refine ended_rule hs h.compared ?_ (fun _ _ hins => (by cases hins))
    exact fun r current hcas hswaps _ _ => h.swapped hcas hswaps
  · refine ended_rule hs ?_ (fun _ _ _ _ hin _ => .inl hin) (fun _ _ hins => (by cases hins))
    intro c hc hins
    rcases h.inserted c hc hins with hi | hi
    · exact pendingWrites_step hs hi
    · exact .inr (resolved_step hs hi)
  · refine ended_rule hs ?_ (fun _ _ _ _ _ hins => (by cases hins)) (fun _ hset _ => hset)
    exact fun c hc hins => resolved_step hs (h.failed c hc hins)

theorem atomic_init (cfg : EngineConfig) : Atomic (Server.init cfg) where
  deferring := deferring_init cfg
  accounted := accounted_init cfg
  read := fun _ _ hcas => (by cases hcas)
  compared := fun _ hc => (by cases hc)
  inserted := fun _ hc => (by cases hc)
  failed := fun _ hc => (by cases hc)
  placed := fun _ hr => (by cases hr)

/-! ## Answers -/

theorem resolved_unique (h : Accounted s) {i : ℕ} {b b' : Bool} (hb : (i, b) ∈ s.resolved) (hb' : (i, b') ∈ s.resolved) :
    b = b' :=
  congrArg Prod.snd (List.inj_on_of_nodup_map (List.nodup_append.mp h.unique).2.1 hb hb' rfl)

theorem not_resolved (h : Accounted s) {i : ℕ} {b : Bool} (hlive : i ∈ (live s).map Prod.fst) : (i, b) ∉ s.resolved :=
  fun hb => (List.nodup_append.mp h.unique).2.2 i hlive i (List.mem_map_of_mem hb) rfl

theorem live_of_mem {r : WriteRequest}
    (hr : r ∈ s.writeQueue ++ s.deferred ++ s.casRequest ++ held s.writer ++ s.batchQueue ++ s.pendingWrites) :
    r.id ∈ (live s).map Prod.fst :=
  List.mem_map_of_mem (f := Prod.fst) (List.mem_map_of_mem (f := tag) hr)

theorem Atomic.answered (h : Atomic s) : Answered s := by
  intro r hr hcas
  rcases h.placed r hr hcas with hin | hin
  · have hlive : r.id ∈ (live s).map Prod.fst :=
      live_of_mem (List.mem_append_left _ (List.mem_append_left _ (List.mem_append_left _ hin)))
    exact ⟨fun hset => absurd hset (not_resolved h.accounted hlive), fun hset => absurd hset (not_resolved h.accounted hlive)⟩
  · obtain ⟨c, hc, rfl⟩ := List.mem_map.mp hin
    obtain ⟨q, before, inserted⟩ := c
    cases inserted with
    | true =>
      have hbefore : before = some q.expectedValue := h.compared _ hc rfl
      refine ⟨fun _ => hbefore ▸ hc, ?_⟩
      intro hset
      rcases h.inserted _ hc rfl with hi | hi
      · obtain ⟨w, hw, hid⟩ := List.mem_map.mp hi
        have hlive : w.id ∈ (live s).map Prod.fst := live_of_mem (List.mem_append_right _ hw)
        rw [hid] at hlive
        exact absurd hset (not_resolved h.accounted hlive)
      · cases resolved_unique h.accounted hi hset
    | false =>
      refine ⟨?_, fun _ => ⟨before, hc⟩⟩
      intro hset
      cases resolved_unique h.accounted (h.failed _ hc rfl) hset

/-- In every run in which each read of a compare-and-swap finds the committed value and no batch with a write to its key
is committed between its read and its insert, a success means that the expected value was committed directly before the
insert, a failure that nothing was inserted; and one that is not inserted leaves the store as it is. -/
theorem compare_and_swap_atomic (cfg : EngineConfig) (acts : List Action) (s : State)
    (hrun : Run Server.step Allowed (Server.init cfg) acts s) :
    Answered s ∧ ∀ a t c, Server.step s a = some t → t.ended = s.ended ++ [c] →
      if c.inserted then c.before = last s.store.committed c.request.key ∧
        t.store.committed = ⟨c.request.key, shownValue c.request.value⟩ :: s.store.committed
      else t.store = s.store := by
  have h : Atomic s := hrun.invariant (I := Atomic) (fun _ _ _ hok hs h => h.step hok hs) (atomic_init cfg)
  refine ⟨h.answered, ?_⟩
  intro a t c hs hended
  rcases ended_step hs with hsame | ⟨r, current, inserted, -, hnew, hcase⟩
  · rw [hsame] at hended
    simp at hended
  · rw [hnew] at hended
    have hc := List.append_cancel_left hended
    cases hc
    rcases hcase with ⟨rfl, -, -, hcommitted⟩ | ⟨rfl, -, hstore⟩
    · exact ⟨rfl, hcommitted⟩
    · exact hstore

/-- The compare-and-swap of the runs below. -/
def swapRequest : WriteRequest := ⟨1, 2, [1], [6], [5], false, false, true, true, 0⟩

/-- A write and a compare-and-swap, up to the read. -/
def swapStart : List Action :=
  ([.request 0 (.asyncWrite [1] [5]), .request 2 (.compareAndSwap [1] [5] [6])] : List Action) ++
    List.replicate 9 Action.writer ++ ([.readCas] : List Action)

/-- The insert and its answer. -/
def swapEnd : List Action := .writer :: .background (.sync true) :: List.replicate 4 .writer

def swapRun : List Action := swapStart ++ List.replicate 2 .writer ++ swapEnd

theorem compare_and_swap_atomic_swapRun :
    ∃ s, Run Server.step Allowed (Server.init smallConfig) swapRun s ∧ (1, true) ∈ s.resolved ∧
      ⟨swapRequest, some [5], true⟩ ∈ s.ended ∧ Answered s := by
  have hend : ∃ s, Run Server.step Allowed (Server.init smallConfig) swapRun s ∧ (1, true) ∈ s.resolved ∧
      ⟨swapRequest, some [5], true⟩ ∈ s.ended := Run.exists_of_checked (by decide)
  obtain ⟨s, hrun, hresolved, hended⟩ := hend
  exact ⟨s, hrun, hresolved, hended, (compare_and_swap_atomic _ _ _ hrun).1⟩

/-- Between the read and the insert a batch with a write to the key is committed. -/
def batchBetweenRun : List Action :=
  swapStart ++ ([.request 1 .batchBegin, .request 1 (.batchWrite [1] [9]), .request 1 .batchCommit] : List Action) ++
    List.replicate 5 Action.writer ++ ([.background (.sync true)] : List Action) ++ List.replicate 2 Action.writer ++
    swapEnd

/-- The compare-and-swap is answered with success, and directly before its insert the expected value was gone. -/
theorem batch_commit_between_read_and_insert :
    ∃ s, Run Server.step anyStep (Server.init smallConfig) batchBetweenRun s ∧ swapRequest ∈ s.pushed ∧
      (swapRequest.id, true) ∈ s.resolved ∧ s.ended = [⟨swapRequest, none, true⟩] ∧ ¬ Answered s := by
  have hend : ∃ s, Run Server.step anyStep (Server.init smallConfig) batchBetweenRun s ∧ swapRequest ∈ s.pushed ∧
      (swapRequest.id, true) ∈ s.resolved ∧ s.ended = [⟨swapRequest, none, true⟩] :=
    Run.exists_of_checked (by decide)
  obtain ⟨s, hrun, hpushed, hresolved, hended⟩ := hend
  refine ⟨s, hrun, hpushed, hresolved, hended, fun h => ?_⟩
  have hcompared := (h swapRequest hpushed rfl).1 hresolved
  rw [hended] at hcompared
  revert hcompared
  decide

end Kvdb.CompareAndSwap
