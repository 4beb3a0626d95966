import Kvdb.Server.Order

/-! # Where the promise of a request is

A request of `write_queue_` moves through the queue, the requests put aside, the pending compare-and-swap, the writer
and `pending_writes_` until its promise is set. No step sets a promise twice, and none but an abort, which drops batch
writes, loses one. -/
namespace Kvdb.Server
set_option autoImplicit false

open Kvdb.Runs Kvdb.Engine

/-- The promise of a request, and whether a handler waits for it. -/
def tag (r : WriteRequest) : ℕ × Bool := (r.id, r.awaited)

/-- The requests that the writer has in hand. -/
def held : Writer → List WriteRequest
  | .apply r _ => [r]
  | .applyBatch done todo _ => done ++ todo
  | .finish mini _ => mini
  | _ => []

theorem held_resume (s : State) (next : Next) : held (s.resume next) = [] := by
  rcases s.resume_cases next with ⟨count, h⟩ | h | h <;> rw [h] <;> rfl

/-- The promises that are not set. -/
def live (s : State) : List (ℕ × Bool) :=
  (s.writeQueue ++ s.deferred ++ s.casRequest ++ held s.writer ++ s.batchQueue ++ s.pendingWrites).map tag

/-- A step makes the promises `new`, sets the promises `gone` and loses the promises `dropped`. -/
structure Flow (s t : State) (new gone dropped : List (ℕ × Bool)) : Prop where
  moved : (live s ++ new).Perm (live t ++ gone ++ dropped)
  resolved : t.resolved.map Prod.fst = s.resolved.map Prod.fst ++ gone.map Prod.fst
  fresh : (new = [] ∧ t.nextId = s.nextId ∧ t.pushed = s.pushed) ∨
    ∃ r, new = [tag r] ∧ r.id = s.nextId ∧ t.nextId = s.nextId + 1 ∧
      (t.pushed = s.pushed ++ [r] ∨ t.pushed = s.pushed ∧ r.awaited = false)
  lost : ∀ x ∈ dropped, x ∈ s.batchQueue.map tag

variable {s t : State}

/-- A step that sets the promises `gone`. -/
theorem Flow.settles {gone : List (ℕ × Bool)} (hmoved : (live s).Perm (live t ++ gone))
    (hresolved : t.resolved.map Prod.fst = s.resolved.map Prod.fst ++ gone.map Prod.fst)
    (hnext : t.nextId = s.nextId) (hpushed : t.pushed = s.pushed) : Flow s t [] gone [] := by
  refine ⟨?_, hresolved, .inl ⟨rfl, hnext, hpushed⟩, fun _ hx => (by cases hx)⟩
  rw [List.append_nil, List.append_nil]
  exact hmoved

/-- A step that moves requests. -/
theorem Flow.moves (hmoved : (live s).Perm (live t)) (hresolved : t.resolved = s.resolved) (hnext : t.nextId = s.nextId)
    (hpushed : t.pushed = s.pushed) : Flow s t [] [] [] := by
  refine .settles ?_ ?_ hnext hpushed
  · rw [List.append_nil]
    exact hmoved
  · rw [hresolved, List.map_nil, List.append_nil]

theorem step_flow {a : Action} (hs : step s a = some t) : ∃ new gone dropped, Flow s t new gone dropped := by
  cases step_moved hs with
  | @queued client req r hreq hfits hrun hroom =>
    refine ⟨[tag r], [], [], ?_, ?_, .inr ⟨r, rfl, (State.queued_isBatch hreq).2, rfl, .inl rfl⟩, fun _ hx => (by cases hx)⟩
    · refine List.perm_iff_count.mpr fun x => ?_
      simp only [live, State.enqueue, State.withHandler, State.casRequest, List.map_append, List.count_append, List.map_cons,
        List.map_nil, List.count_nil]
      omega
    · exact (List.append_nil _).symm
  | @queuedBatch client key value hfits hidle hrun hroom =>
    refine ⟨[tag (s.batchRequest client key value)], [], [], ?_, ?_, .inr ⟨_, rfl, rfl, rfl, .inr ⟨rfl, rfl⟩⟩,
      fun _ hx => (by cases hx)⟩
    · refine List.perm_iff_count.mpr fun x => ?_
      simp only [live, State.enqueueBatch, State.casRequest, List.map_append, List.count_append, List.map_cons,
        List.map_nil, List.count_nil]
      omega
    · exact (List.append_nil _).symm
  | startBatch =>
    refine ⟨[], [], [], ?_⟩
    unfold State.startBatch
    split <;> exact .moves (.refl _) rfl rfl rfl
  | @abortQueue client =>
    refine ⟨[], [], s.batchQueue.map tag, ?_, (List.append_nil _).symm, .inl ⟨rfl, rfl, rfl⟩, fun _ hx => hx⟩
    refine List.perm_iff_count.mpr fun x => ?_
    simp only [live, State.abortQueue, State.withHandler, State.casRequest, List.map_append, List.count_append,
      List.map_nil, List.count_nil]
    omega
  | readCas hcas =>
    refine ⟨[], [], [], .moves ?_ rfl rfl rfl⟩
    simp only [live, State.casRequest, hcas, Option.map_some]
    exact .refl _
  | @swap r current b hw hcas hswaps hwrote =>
    refine ⟨[], [], [], .moves ?_ rfl rfl rfl⟩
    refine List.perm_iff_count.mpr fun x => ?_
    simp only [live, State.endCas, State.casRequest, hcas, hw, held, tag, Option.map_some, Option.map_none,
      Option.toList_some, Option.toList_none, List.map_append, List.count_append, List.map_cons, List.map_nil,
      List.count_nil]
    omega
  | @noSwap r current hw hcas =>
    refine ⟨[], [tag r], [], .settles ?_ (by simp [State.resolve, State.endCas, tag]) rfl rfl⟩
    refine List.perm_iff_count.mpr fun x => ?_
    simp only [live, State.endCas, State.resolve, State.casRequest, hcas, hw, held, Option.map_some, Option.map_none,
      Option.toList_some, Option.toList_none, List.map_append, List.count_append, List.map_cons, List.map_nil,
      List.count_nil]
    omega
  | requeue hw =>
    refine ⟨[], [], [], .moves ?_ rfl rfl rfl⟩
    refine List.perm_iff_count.mpr fun x => ?_
    simp only [live, State.casRequest, hw, held, List.map_append, List.count_append, List.map_nil, List.count_nil]
    omega
  | defer hw hfree hqueue hdefers =>
    refine ⟨[], [], [], .moves ?_ rfl rfl rfl⟩
    refine List.perm_iff_count.mpr fun x => ?_
    simp only [live, State.casRequest, hqueue, List.map_append, List.count_append, List.map_cons, List.map_nil,
      List.count_nil, List.count_cons]
    omega
  | takeCas hw hfree hqueue hdefers hcas =>
    refine ⟨[], [], [], .moves ?_ rfl rfl rfl⟩
    refine List.perm_iff_count.mpr fun x => ?_
    simp only [live, State.casRequest, casRequest_of_taken hdefers hcas, hqueue, Option.map_some, Option.map_none,
      Option.toList_some, Option.toList_none, List.map_append, List.count_append, List.map_cons, List.map_nil,
      List.count_nil, List.count_cons]
    omega
  | take hw hfree hqueue hdefers =>
    refine ⟨[], [], [], .moves ?_ rfl rfl rfl⟩
    refine List.perm_iff_count.mpr fun x => ?_
    simp only [live, State.casRequest, hw, held, hqueue, List.map_append, List.count_append, List.map_cons, List.map_nil,
      List.count_nil, List.count_cons]
    omega
  | applied hw hwrote =>
    refine ⟨[], [], [], .moves ?_ rfl rfl rfl⟩
    refine List.perm_iff_count.mpr fun x => ?_
    simp only [live, State.casRequest, hw, held, tag, List.map_append, List.count_append, List.map_cons, List.map_nil,
      List.count_nil]
    omega
  | @refused r count hw =>
    refine ⟨[], [tag r], [], .settles ?_ (by simp [State.resolve, tag]) rfl rfl⟩
    refine List.perm_iff_count.mpr fun x => ?_
    simp only [live, State.resolve, State.casRequest, hw, held, List.map_append, List.count_append, List.map_cons,
      List.map_nil, List.count_nil]
    omega
  | collect hw hdue =>
    refine ⟨[], [], [], .moves ?_ rfl rfl rfl⟩
    have hsplit := congrArg (List.map tag) (mini_append s)
    rw [List.map_append] at hsplit
    refine List.perm_iff_count.mpr fun x => ?_
    have hcount := congrArg (List.count x) hsplit
    rw [List.count_append] at hcount
    simp only [live, State.casRequest, hw, held, List.nil_append, List.map_append, List.count_append, List.map_nil,
      List.count_nil]
    omega
  | miniApplied hw hwrote =>
    refine ⟨[], [], [], .moves ?_ rfl rfl rfl⟩
    refine List.perm_iff_count.mpr fun x => ?_
    simp only [live, State.casRequest, hw, held, tag, List.map_append, List.count_append, List.map_cons, List.map_nil,
      List.count_nil, List.count_cons]
    omega
  | @miniRefused done rest r commit what hw hthrew =>
    refine ⟨[], (done ++ r :: rest).map tag, [], .settles ?_ ?_ rfl rfl⟩
    · refine List.perm_iff_count.mpr fun x => ?_
      simp only [live, State.casRequest, hw, held, List.map_append, List.count_append, List.map_nil, List.count_nil]
      omega
    · simp [tag, Function.comp_def]
  | finish hw =>
    refine ⟨[], [], [], .moves ?_ rfl rfl rfl⟩
    refine List.perm_iff_count.mpr fun x => ?_
    simp only [live, State.finishMini, State.casRequest, hw, held, List.map_append, List.count_append, List.map_nil,
      List.count_nil]
    omega
  | fulfill hw =>
    have hsplit := congrArg (List.map tag)
      (List.takeWhile_append_dropWhile (p := fun r => decide (r.seq ≤ s.store.engine.syncedSeq)) (l := s.pendingWrites))
    rw [List.map_append] at hsplit
    refine ⟨[], (s.pendingWrites.takeWhile fun r => decide (r.seq ≤ s.store.engine.syncedSeq)).map tag, [],
      .settles ?_ ?_ rfl rfl⟩
    · refine List.perm_iff_count.mpr fun x => ?_
      have hcount := congrArg (List.count x) hsplit
      rw [List.count_append] at hcount
      simp only [live, State.fulfill, State.casRequest, hw, held, List.map_append, List.count_append, List.map_nil,
        List.count_nil]
      omega
    · simp [State.fulfill, tag, Function.comp_def]
  | finalized hw hcommit hdone | unfinished hw =>
    refine ⟨[], [], [], .moves ?_ rfl rfl rfl⟩
    simp only [live, State.casRequest, hw, held_resume]
    exact .refl _
  | commitBatch | answer | answerCommit | abortEngine | abortNothing | store | stop =>
    exact ⟨[], [], [], .moves (.refl _) rfl rfl rfl⟩
  | _ hw =>
    refine ⟨[], [], [], .moves ?_ rfl rfl rfl⟩
    simp only [live, State.casRequest, hw, held, List.append_nil]
    exact .refl _

/-! ## The account -/

/-- Each promise is in one place, and one that a handler waits for belongs to a request of `write_queue_`. -/
structure Accounted (s : State) : Prop where
  batch : ∀ r ∈ s.batchQueue, r.awaited = false
  unique : ((live s).map Prod.fst ++ s.resolved.map Prod.fst).Nodup
  below : ∀ i ∈ (live s).map Prod.fst ++ s.resolved.map Prod.fst, i < s.nextId
  kept : ∀ r ∈ s.pushed, r.awaited = true → r.id ∈ s.resolved.map Prod.fst ∨ (r.id, true) ∈ live s
  known : ∀ i, (i, true) ∈ live s → ∃ r ∈ s.pushed, r.id = i ∧ r.awaited = true

theorem batch_step {a : Action} (h : ∀ r ∈ s.batchQueue, r.awaited = false) (hs : step s a = some t) :
    ∀ r ∈ t.batchQueue, r.awaited = false := by
  cases step_moved hs with
  | queuedBatch hfits hidle hrun hroom =>
    intro r hr
    rcases List.mem_append.mp hr with hr | hr
    · exact h r hr
    · rw [List.mem_singleton.mp hr]
      rfl
  | startBatch =>
    unfold State.startBatch
    split <;> exact h
  | abortQueue => exact fun r hr => (by cases hr)
  | collect hw hdue => exact fun r hr => h r (List.mem_of_mem_drop hr)
  | _ => exact h

/-- The promises after a step, in another order. -/
theorem Flow.promises {new gone dropped : List (ℕ × Bool)} (h : Flow s t new gone dropped) :
    ((live s).map Prod.fst ++ s.resolved.map Prod.fst ++ new.map Prod.fst).Perm
      ((live t).map Prod.fst ++ t.resolved.map Prod.fst ++ dropped.map Prod.fst) := by
  have hmoved := h.moved.map Prod.fst
  simp only [List.map_append] at hmoved
  refine List.perm_iff_count.mpr fun i => ?_
  have hcount := List.perm_iff_count.mp hmoved i
  rw [h.resolved]
  simp only [List.count_append] at hcount ⊢
  omega

theorem Accounted.unique_step {new gone dropped : List (ℕ × Bool)} (h : Accounted s) (hflow : Flow s t new gone dropped) :
    ((live t).map Prod.fst ++ t.resolved.map Prod.fst).Nodup ∧
      ∀ i ∈ (live t).map Prod.fst ++ t.resolved.map Prod.fst, i < t.nextId := by
  have hold : ((live s).map Prod.fst ++ s.resolved.map Prod.fst ++ new.map Prod.fst).Nodup ∧
      ∀ i ∈ (live s).map Prod.fst ++ s.resolved.map Prod.fst ++ new.map Prod.fst, i < t.nextId := by
    rcases hflow.fresh with ⟨rfl, hnext, -⟩ | ⟨r, rfl, hid, hnext, -⟩
    · rw [List.map_nil, List.append_nil, hnext]
      exact ⟨h.unique, h.below⟩
    · have htag : [tag r].map Prod.fst = [s.nextId] := congrArg (fun i => [i]) hid
      rw [htag, hnext]
      refine ⟨List.nodup_append.mpr ⟨h.unique, List.nodup_singleton _, ?_⟩, ?_⟩
      · intro i hi j hj heq
        have hlt := h.below i hi
        rw [heq, List.mem_singleton.mp hj] at hlt
        exact Nat.lt_irrefl _ hlt
      · intro i hi
        rcases List.mem_append.mp hi with hi | hi
        · exact Nat.lt_succ_of_lt (h.below i hi)
        · rw [List.mem_singleton.mp hi]
          exact Nat.lt_succ_self _
  refine ⟨?_, ?_⟩
  · exact (List.nodup_append.mp (hflow.promises.nodup_iff.mp hold.1)).1
  · exact fun i hi => hold.2 i (hflow.promises.mem_iff.mpr (List.mem_append_left _ hi))

theorem Flow.awaited_kept {new gone dropped : List (ℕ × Bool)} (hflow : Flow s t new gone dropped)
    (hbatch : ∀ r ∈ s.batchQueue, r.awaited = false) {i : ℕ} (hi : (i, true) ∈ live s ++ new) :
    i ∈ t.resolved.map Prod.fst ∨ (i, true) ∈ live t := by
  rcases List.mem_append.mp (hflow.moved.mem_iff.mp hi) with hi | hi
  · rcases List.mem_append.mp hi with hi | hi
    · exact .inr hi
    · refine .inl ?_
      rw [hflow.resolved]
      exact List.mem_append_right _ (List.mem_map_of_mem hi)
  · obtain ⟨r, hr, hrtag⟩ := List.mem_map.mp (hflow.lost _ hi)
    have hawaited : r.awaited = true := congrArg Prod.snd hrtag
    rw [hbatch r hr] at hawaited
    cases hawaited

theorem Accounted.step {a : Action} (h : Accounted s) (hs : Server.step s a = some t) : Accounted t := by
  obtain ⟨new, gone, dropped, hflow⟩ := step_flow hs
  obtain ⟨hunique, hbelow⟩ := h.unique_step hflow
  refine ⟨batch_step h.batch hs, hunique, hbelow, ?_, ?_⟩
  · have hold : ∀ r ∈ s.pushed, r.awaited = true → r.id ∈ t.resolved.map Prod.fst ∨ (r.id, true) ∈ live t := by
      intro r hr hawaited
      rcases h.kept r hr hawaited with hset | hlive
      · refine .inl ?_
        rw [hflow.resolved]
        exact List.mem_append_left _ hset
      · exact hflow.awaited_kept h.batch (List.mem_append_left _ hlive)
    rcases hflow.fresh with ⟨-, -, hpushed⟩ | ⟨r, hnew, -, -, hpushed | ⟨hpushed, -⟩⟩
    · rw [hpushed]
      exact hold
    · rw [hpushed]
      intro q hq hawaited
      rcases List.mem_append.mp hq with hq | hq
      · exact hold q hq hawaited
      · cases List.mem_singleton.mp hq
        refine hflow.awaited_kept h.batch (List.mem_append_right _ ?_)
        rw [hnew, ← hawaited]
        exact List.mem_singleton_self _
    · rw [hpushed]
      exact hold
  · intro i hi
    have hbefore : (i, true) ∈ live s ++ new :=
      hflow.moved.mem_iff.mpr (List.mem_append_left _ (List.mem_append_left _ hi))
    rcases List.mem_append.mp hbefore with hlive | hnew
    · obtain ⟨r, hr, hrest⟩ := h.known i hlive
      refine ⟨r, ?_, hrest⟩
      rcases hflow.fresh with ⟨-, -, hpushed⟩ | ⟨q, -, -, -, hpushed | ⟨hpushed, -⟩⟩
      · rw [hpushed]
        exact hr
      · rw [hpushed]
        exact List.mem_append_left _ hr
      · rw [hpushed]
        exact hr
    · rcases hflow.fresh with ⟨rfl, -, -⟩ | ⟨r, rfl, -, -, hpushed⟩
      · cases hnew
      · have htag := List.mem_singleton.mp hnew
        have hid : i = r.id := congrArg Prod.fst htag
        have hawaited : true = r.awaited := congrArg Prod.snd htag
        rcases hpushed with hpushed | ⟨-, hfalse⟩
        · refine ⟨r, ?_, hid.symm, hawaited.symm⟩
          rw [hpushed]
          exact List.mem_append_right _ (List.mem_singleton_self r)
        · rw [hfalse] at hawaited
          cases hawaited

theorem accounted_init (cfg : EngineConfig) : Accounted (Server.init cfg) where
  batch := fun _ hr => (by cases hr)
  unique := List.nodup_nil
  below := fun _ hi => (by cases hi)
  kept := fun _ hr => (by cases hr)
  known := fun _ hi => (by cases hi)

end Kvdb.Server

/-! ## The end of the writer -/

namespace Kvdb.WriterExit
set_option autoImplicit false

open Kvdb.Runs Kvdb.Engine Kvdb.Server

variable {s t : State}

/-- Every request that a handler waits for has its promise set. -/
def AllAnswered (s : State) : Prop := ∀ r ∈ s.pushed, r.awaited = true → r.id ∈ s.resolved.map Prod.fst

instance decidableAllAnswered (s : State) : Decidable (AllAnswered s) :=
  inferInstanceAs (Decidable (∀ r ∈ s.pushed, r.awaited = true → r.id ∈ s.resolved.map Prod.fst))

theorem mayExit_empty (h : s.mayExit = true) : s.writeQueue = [] ∧ s.batchQueue = [] ∧ s.pendingCas = none := by
  simp only [State.mayExit, Bool.and_eq_true, List.isEmpty_iff, Option.isNone_iff_eq_none] at h
  exact ⟨h.1.1.1.2, h.1.1.2, h.2⟩

/-- When the exit test is met, only `pending_writes_` holds requests. -/
theorem live_of_mayExit (hdefer : Deferring s) (hw : s.writer = .stopTest) (hexit : s.mayExit = true) :
    live s = s.pendingWrites.map tag := by
  obtain ⟨hqueue, hbatch, hcas⟩ := mayExit_empty hexit
  have hdeferred : s.deferred = [] := by
    refine hdefer.free hcas ?_
    rw [hw]
    exact fun hw' => (by cases hw')
  simp [live, State.casRequest, held, hqueue, hbatch, hcas, hdeferred, hw]

/-- When `WriterLoop` exits, whatever the run before and wherever `Stop` was called in it, no request is left in the
queues, among those put aside or in a pending compare-and-swap, and all handlers are answered exactly when no request
that a handler waits for is in `pending_writes_`. -/
theorem exit_answers_iff (cfg : EngineConfig) (acts : List Action) (s t : State)
    (hrun : Run Server.step anyStep (Server.init cfg) acts s) (hw : s.writer = .stopTest) (hexit : s.mayExit = true)
    (hs : Server.step s .writer = some t) :
    t.writer = .exited ∧ t.writeQueue = [] ∧ t.deferred = [] ∧ t.pendingCas = none ∧
      (AllAnswered t ↔ ∀ q ∈ s.pendingWrites, q.awaited = false) := by
  have hdefer : Deferring s := hrun.invariant (I := Deferring) (fun _ _ _ _ hs h => h.step hs) (deferring_init cfg)
  have hacc : Accounted s := hrun.invariant (I := Accounted) (fun _ _ _ _ hs h => h.step hs) (accounted_init cfg)
  have hlive := live_of_mayExit hdefer hw hexit
  obtain ⟨hqueue, -, hcas⟩ := mayExit_empty hexit
  have hdeferred : s.deferred = [] := by
    refine hdefer.free hcas ?_
    rw [hw]
    exact fun hw' => (by cases hw')
  have ht : t = { s with writer := .exited } := by
    simp only [Server.step, State.writerStep, hw, hexit, if_true, Option.some.injEq] at hs
    exact hs.symm
  rw [ht]
  refine ⟨rfl, hqueue, hdeferred, hcas, ?_, ?_⟩
  · intro hall q hq
    by_contra hne
    have hawaited : q.awaited = true := Bool.not_eq_false _ ▸ hne
    have hin : (q.id, true) ∈ live s := by
      rw [hlive, ← hawaited]
      exact List.mem_map_of_mem hq
    obtain ⟨r, hr, hid, hr'⟩ := hacc.known q.id hin
    have hset := hall r hr hr'
    rw [hid] at hset
    exact (List.nodup_append.mp hacc.unique).2.2 q.id (List.mem_map_of_mem hin) q.id hset rfl
  · intro hnone r hr hawaited
    rcases hacc.kept r hr hawaited with hset | hin
    · exact hset
    · rw [hlive] at hin
      obtain ⟨q, hq, hqtag⟩ := List.mem_map.mp hin
      have hqawaited : q.awaited = true := congrArg Prod.snd hqtag
      rw [hnone q hq] at hqawaited
      cases hqawaited

/-- A write that is synced before the server stops, up to the exit test. -/
def syncedRun : List Action :=
  Action.request 0 (.write [1] [2]) :: List.replicate 6 Action.writer ++
    ([.background (.sync true), .stop] : List Action) ++
    List.replicate 5 Action.writer

theorem exit_answers_syncedRun :
    ∃ s t, Run Server.step anyStep (Server.init smallConfig) syncedRun s ∧ Server.step s .writer = some t ∧
      t.writer = .exited ∧ t.pushed.length = 1 ∧ AllAnswered t := by
  have hend : ∃ s, Run Server.step anyStep (Server.init smallConfig) syncedRun s ∧ s.writer = .stopTest ∧
      s.mayExit = true ∧ s.pushed.length = 1 ∧ ∀ q ∈ s.pendingWrites, q.awaited = false :=
    Run.exists_of_checked (by decide)
  obtain ⟨s, hrun, hw, hexit, hlength, hnone⟩ := hend
  have hs : Server.step s .writer = some { s with writer := .exited } := by
    simp only [Server.step, State.writerStep, hw, hexit, if_true]
  have hiff := exit_answers_iff smallConfig _ _ _ hrun hw hexit hs
  exact ⟨s, _, hrun, hs, hiff.1, hlength, hiff.2.2.2.2.mpr hnone⟩

/-- The server stops before the write is synced. -/
def unsyncedRun : List Action :=
  Action.request 0 (.write [1] [2]) :: List.replicate 6 Action.writer ++ ([.stop] : List Action) ++
    List.replicate 6 Action.writer

/-- The writer exits with the write executed and its handler waiting. -/
theorem exit_leaves_write_unanswered :
    ∃ s, Run Server.step anyStep (Server.init smallConfig) unsyncedRun s ∧ s.writer = .exited ∧
      s.executed.map WriteRequest.value = [[2]] ∧ s.handlers 0 = .awaiting 0 ∧ s.resolved = [] ∧ ¬ AllAnswered s :=
  Run.exists_of_checked (by decide)

end Kvdb.WriterExit
