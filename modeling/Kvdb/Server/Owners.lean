import Kvdb.Server.Moves

/-! # Whose batch a batch write goes to

The batch of the engine, `batch_queue_` and the flags of a commit carry no client. A batch write goes to whatever batch is
open when the writer applies it, and to the store of everybody when none is. -/
namespace Kvdb.Server
set_option autoImplicit false

/-- What the writer has still to apply of a mini-batch. -/
def todo : Writer → List WriteRequest
  | .applyBatch _ todo _ => todo
  | _ => []

theorem todo_resume (s : State) (next : Next) : todo (s.resume next) = [] := by
  rcases s.resume_cases next with ⟨count, h⟩ | h | h <;> rw [h] <;> rfl

end Kvdb.Server

namespace Kvdb.BatchOwners
set_option autoImplicit false

open Kvdb.Runs Kvdb.Engine Kvdb.Server

/-- A batch write comes from the client that opened the batch in progress, and a batch ends only when none of its writes
is left in the queue or with the writer. -/
def Allowed (s : State) : Action → Prop
  | .request client (.batchWrite _ _) => s.store.engine.batchInProgress = true ∧ s.owner = some client
  | .abortEngine _ => s.store.engine.batchInProgress = true → s.batchQueue = [] ∧ todo s.writer = []
  | .writer =>
    match s.writer with
    | .finalize _ => s.commitFinalizing = true → s.store.engine.commitBatchFinalize.1 = true → s.batchQueue = []
    | _ => True
  | _ => True

instance decidableAllowed (s : State) (a : Action) : Decidable (Allowed s a) := by
  rcases a with ⟨_, ⟨⟩⟩ <;> unfold Allowed
  case writer =>
    generalize s.writer = w
    rcases w with ⟨⟩ <;> infer_instance
  all_goals infer_instance

/-- Every batch write was applied to the open batch, with the timestamp of a batch that its client opened, and a client
that opened none has applied nothing. -/
def OwnBatch (s : State) : Prop :=
  (∀ x ∈ s.applied, x.inProgress = true ∧ x.owner = some x.request.client ∧ (x.request.client, x.batchTs) ∈ s.opened) ∧
    ∀ client, client ∉ s.opened.map Prod.fst → ∀ x ∈ s.applied, x.request.client ≠ client

structure Owned (s : State) : Prop where
  waiting : ∀ r ∈ s.batchQueue ++ todo s.writer, s.store.engine.batchInProgress = true ∧ s.owner = some r.client
  opened : ∀ client, s.owner = some client → (client, s.store.engine.batchTs) ∈ s.opened
  applied : ∀ x ∈ s.applied, x.inProgress = true ∧ x.owner = some x.request.client ∧
    (x.request.client, x.batchTs) ∈ s.opened

variable {s t : State}

/-- A step that leaves the batch alone and brings no batch write. -/
theorem Owned.congr (h : Owned s) (hbatch : batchOf t.store.engine = batchOf s.store.engine)
    (howner : t.owner = s.owner) (hopened : t.opened = s.opened) (happlied : t.applied = s.applied)
    (hwaiting : t.batchQueue ++ todo t.writer ⊆ s.batchQueue ++ todo s.writer) : Owned t := by
  have hprogress : t.store.engine.batchInProgress = s.store.engine.batchInProgress := congrArg Prod.fst hbatch
  have hts : t.store.engine.batchTs = s.store.engine.batchTs := congrArg Prod.snd hbatch
  refine ⟨?_, ?_, ?_⟩
  · intro r hr
    rw [hprogress, howner]
    exact h.waiting r (hwaiting hr)
  · rw [howner, hopened, hts]
    exact h.opened
  · rw [happlied, hopened]
    exact h.applied

theorem Owned.startBatch (h : Owned s) (client : ℕ) : Owned (s.startBatch client) := by
  unfold State.startBatch
  split
  · next hstarted =>
    have hfree : s.store.engine.batchInProgress = false := by
      unfold Engine.startBatch at hstarted
      split at hstarted
      · cases hstarted
      · next hbusy => exact Bool.not_eq_true _ ▸ hbusy
    refine ⟨?_, ?_, ?_⟩
    · intro r hr
      have hbusy := (h.waiting r hr).1
      rw [hfree] at hbusy
      cases hbusy
    · rintro other heq
      cases heq
      exact List.mem_append_right _ (List.mem_singleton_self _)
    · intro x hx
      obtain ⟨hprogress, howner, hopened⟩ := h.applied x hx
      exact ⟨hprogress, howner, List.mem_append_left _ hopened⟩
  · exact h

theorem Owned.closed (h : Owned s) (hqueue : t.batchQueue ++ todo t.writer = []) (howner : t.owner = none)
    (hopened : t.opened = s.opened) (happlied : t.applied = s.applied) : Owned t := by
  refine ⟨?_, ?_, ?_⟩
  · rw [hqueue]
    exact fun r hr => (by cases hr)
  · rw [howner]
    exact fun client heq => (by cases heq)
  · rw [happlied, hopened]
    exact h.applied

theorem Owned.step {a : Action} (h : Owned s) (hok : Allowed s a) (hs : Server.step s a = some t) : Owned t := by
  cases step_moved hs with
  | queuedBatch hfits hidle hrun hroom =>
    refine ⟨?_, h.opened, h.applied⟩
    intro r hr
    rcases List.mem_append.mp hr with hr | hr
    · rcases List.mem_append.mp hr with hr | hr
      · exact h.waiting r (List.mem_append_left _ hr)
      · rw [List.mem_singleton.mp hr]
        exact hok
    · exact h.waiting r (List.mem_append_right _ hr)
  | startBatch => exact h.startBatch _
  | abortQueue => exact h.congr rfl rfl rfl rfl (List.append_subset.mpr ⟨List.nil_subset _, List.subset_append_right _ _⟩)
  | abortEngine habort hbatch =>
    obtain ⟨hqueue, htodo⟩ := hok hbatch
    refine h.closed ?_ rfl rfl rfl
    rw [List.append_eq_nil_iff]
    exact ⟨hqueue, htodo⟩
  | readCas hcas => exact h.congr (batchOf_lookup _ _) rfl rfl rfl (List.Subset.refl _)
  | store hquiet => exact h.congr hquiet.batch rfl rfl rfl (List.Subset.refl _)
  | swap hw hcas hswaps hwrote =>
    exact h.congr hwrote.batch rfl rfl rfl (List.append_subset.mpr ⟨List.subset_append_left _ _, List.nil_subset _⟩)
  | applied hw hwrote =>
    exact h.congr hwrote.batch rfl rfl rfl (List.append_subset.mpr ⟨List.subset_append_left _ _, List.nil_subset _⟩)
  | defer | takeCas => exact h.congr rfl rfl rfl rfl (List.Subset.refl _)
  | collect hw hdue =>
    refine h.congr rfl rfl rfl rfl (List.append_subset.mpr ⟨?_, ?_⟩)
    · exact fun r hr => List.mem_append_left _ (List.mem_of_mem_drop hr)
    · intro r hr
      rw [← mini_append s]
      exact List.mem_append_left _ (List.mem_append_left _ hr)
  | @miniApplied done rest r commit b hw hwrote =>
    have hin : r ∈ s.batchQueue ++ todo s.writer := by
      rw [hw]
      exact List.mem_append_right _ List.mem_cons_self
    have hkept : Owned { s with store := b.1, writer := .applyBatch (done ++ [{ r with seq := b.2 }]) rest commit } := by
      refine h.congr hwrote.batch rfl rfl rfl ?_
      rw [hw]
      exact List.append_subset.mpr ⟨List.subset_append_left _ _,
        fun q hq => List.mem_append_right _ (List.mem_cons_of_mem _ hq)⟩
    refine ⟨hkept.waiting, hkept.opened, ?_⟩
    intro x hx
    rcases List.mem_append.mp hx with hx | hx
    · exact h.applied x hx
    · obtain ⟨hprogress, howner⟩ := h.waiting r hin
      rw [List.mem_singleton.mp hx]
      exact ⟨hprogress, howner, h.opened r.client howner⟩
  | @finish mini commit hw =>
    have hbatch : batchOf (s.finishMini mini commit).store.engine = batchOf s.store.engine := by
      unfold State.finishMini
      cases commit with
      | true => exact batchOf_commitBatchAsync s.store.engine
      | false => rfl
    exact h.congr hbatch rfl rfl rfl (List.append_subset.mpr ⟨List.subset_append_left _ _, List.nil_subset _⟩)
  | @finalized next hw hcommit hdone =>
    simp only [Allowed, hw] at hok
    refine h.closed ?_ rfl rfl rfl
    rw [List.append_eq_nil_iff]
    exact ⟨hok hcommit hdone, todo_resume s next⟩
  | @unfinished next hw =>
    refine h.congr rfl rfl rfl rfl ?_
    show s.batchQueue ++ todo (s.resume next) ⊆ _
    rw [todo_resume]
    exact List.append_subset.mpr ⟨List.subset_append_left _ _, List.nil_subset _⟩
  | queued | commitBatch | answer | answerCommit | abortNothing | stop =>
    exact h.congr rfl rfl rfl rfl (List.Subset.refl _)
  | _ hw =>
    exact h.congr rfl rfl rfl rfl (List.append_subset.mpr ⟨List.subset_append_left _ _, List.nil_subset _⟩)

/-- In every run in which batch writes come only from the client that opened the batch in progress, and a batch ends only
with none of its writes waiting, every batch write is applied to a batch of its own client. -/
theorem batch_writes_owned (cfg : EngineConfig) (acts : List Action) (s : State)
    (hrun : Run Server.step Allowed (Server.init cfg) acts s) : OwnBatch s := by
  have h : Owned s := by
    refine hrun.invariant (I := Owned) (fun _ _ _ hok hs h => h.step hok hs) ?_
    exact ⟨fun _ hr => (by cases hr), fun _ heq => (by cases heq), fun _ hx => (by cases hx)⟩
  refine ⟨h.applied, ?_⟩
  intro client hnever x hx heq
  obtain ⟨-, -, hopened⟩ := h.applied x hx
  exact hnever (List.mem_map.mpr ⟨_, hopened, heq⟩)

/-- A batch of one client, committed. -/
def ownRun : List Action :=
  ([.request 1 .batchBegin, .request 1 (.batchWrite [1] [9]), .request 1 .batchCommit] : List Action) ++
    List.replicate 9 Action.writer ++
    ([.background (.sync true)] : List Action) ++ List.replicate 2 Action.writer

theorem batch_writes_owned_ownRun :
    ∃ s, Run Server.step Allowed (Server.init smallConfig) ownRun s ∧ s.applied.length = 1 ∧ s.commitPending = false ∧
      OwnBatch s := by
  have hend : ∃ s, Run Server.step Allowed (Server.init smallConfig) ownRun s ∧ s.applied.length = 1 ∧
      s.commitPending = false := Run.exists_of_checked (by decide)
  obtain ⟨s, hrun, hlength, hpending⟩ := hend
  exact ⟨s, hrun, hlength, hpending, batch_writes_owned _ _ _ hrun⟩

/-- Client 1 opens a batch and client 2, which opens none, writes. -/
def strangerRun : List Action :=
  Action.request 0 (.asyncWrite [1] [5]) :: List.replicate 6 Action.writer ++
    ([.request 1 .batchBegin, .request 2 (.batchWrite [1] [9]), .request 1 .batchCommit] : List Action) ++
    List.replicate 7 Action.writer ++
    ([.background (.sync true)] : List Action) ++ List.replicate 2 Action.writer

/-- Its write is applied to the batch of client 1 and is committed with it. -/
theorem batch_of_another_client_written :
    ∃ s, Run Server.step anyStep (Server.init smallConfig) strangerRun s ∧ s.opened.map Prod.fst = [1] ∧
      s.applied.map (fun x => (x.request.client, x.owner)) = [(2, some 1)] ∧ s.commitPending = false ∧
      BatchServing.last s.store.committed [1] = none ∧ ¬ OwnBatch s := by
  have hend : ∃ s, Run Server.step anyStep (Server.init smallConfig) strangerRun s ∧ s.opened.map Prod.fst = [1] ∧
      s.applied.map (fun x => (x.request.client, x.owner)) = [(2, some 1)] ∧ s.commitPending = false ∧
      BatchServing.last s.store.committed [1] = none ∧ ∃ x ∈ s.applied, x.request.client = 2 :=
    Run.exists_of_checked (by decide)
  obtain ⟨s, hrun, hopened, happlied, hpending, hlast, x, hx, hclient⟩ := hend
  refine ⟨s, hrun, hopened, happlied, hpending, hlast, fun h => ?_⟩
  refine h.2 2 ?_ x hx hclient
  rw [hopened]
  decide

end Kvdb.BatchOwners
