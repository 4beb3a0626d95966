import Kvdb.Server.Moves

/-! # The flags of a commit

`batch_commit_pending_` stops the normal writes, so something has to clear it: the writer, once it has seen
`batch_commit_requested_`, or the end of the batch, while `commit_finalizing_` is set. The end of the batch comes only
when the engine has one in progress. No request is tied to an open batch, though: a commit without one leaves the writer
waiting for an end that never comes, and an abort takes the batch away from a commit under way. -/
namespace Kvdb.CommitFlags
set_option autoImplicit false

open Kvdb.Runs Kvdb.Engine Kvdb.Server

/-- The writer applies or ends the last mini-batch before a commit. -/
def inCommit (s : State) : Bool :=
  match s.writer with
  | .applyBatch _ _ commit => commit
  | .finish _ commit => commit
  | _ => false

/-- A commit is asked for while a batch is in progress, and `AbortBatch` does not end the batch of a commit. -/
def Allowed (s : State) : Action → Prop
  | .request _ .batchCommit => s.store.engine.batchInProgress = true
  | .abortEngine _ => s.store.engine.batchInProgress = true →
      s.commitPending = false ∧ s.commitFinalizing = false ∧ inCommit s = false
  | _ => True

instance decidableAllowed (s : State) (a : Action) : Decidable (Allowed s a) := by
  rcases a with ⟨_, ⟨⟩⟩ <;> unfold Allowed <;> infer_instance

/-- `commit_finalizing_` comes with a batch, and a pending commit with a flag that leads to its end. -/
def Consistent (s : State) : Prop :=
  (s.commitFinalizing = true → s.store.engine.batchInProgress = true) ∧
    (s.commitPending = true → s.commitRequested = true ∨ s.commitFinalizing = true)

instance decidableConsistent (s : State) : Decidable (Consistent s) :=
  inferInstanceAs (Decidable ((s.commitFinalizing = true → s.store.engine.batchInProgress = true) ∧
    (s.commitPending = true → s.commitRequested = true ∨ s.commitFinalizing = true)))

structure Flagged (s : State) : Prop where
  pending : s.commitPending = true → s.store.engine.batchInProgress = true
  finalizing : s.commitFinalizing = true → s.store.engine.batchInProgress = true
  commit : inCommit s = true → s.store.engine.batchInProgress = true
  clears : s.commitPending = true → s.commitRequested = true ∨ s.commitFinalizing = true

variable {s t : State}

theorem inProgress_of_batchOf {e e' : Engine} (h : batchOf e' = batchOf e) :
    e'.batchInProgress = e.batchInProgress := congrArg Prod.fst h

/-- A step that leaves the flags and the batch alone, and the writer outside a commit. -/
theorem Flagged.congr (h : Flagged s) (hpending : t.commitPending = s.commitPending)
    (hrequested : t.commitRequested = s.commitRequested) (hfinalizing : t.commitFinalizing = s.commitFinalizing)
    (hbatch : t.store.engine.batchInProgress = s.store.engine.batchInProgress)
    (hcommit : inCommit t = true → inCommit s = true) : Flagged t := by
  refine ⟨?_, ?_, ?_, ?_⟩
  · rw [hpending, hbatch]
    exact h.pending
  · rw [hfinalizing, hbatch]
    exact h.finalizing
  · rw [hbatch]
    exact fun hc => h.commit (hcommit hc)
  · rw [hpending, hrequested, hfinalizing]
    exact h.clears

theorem inCommit_resume (next : Next) : inCommit { s with writer := s.resume next } = false := by
  rcases s.resume_cases next with ⟨count, h⟩ | h | h <;> simp only [inCommit, h]

theorem Flagged.finish {mini : List WriteRequest} {commit : Bool} (h : Flagged s) (hw : s.writer = .finish mini commit) :
    Flagged (s.finishMini mini commit) := by
  have hbatch : (s.finishMini mini commit).store.engine.batchInProgress = s.store.engine.batchInProgress := by
    unfold State.finishMini
    cases commit with
    | true => exact inProgress_of_batchOf (batchOf_commitBatchAsync s.store.engine)
    | false => rfl
  have hheld : commit = true → s.store.engine.batchInProgress = true := by
    intro hc
    refine h.commit ?_
    rw [inCommit, hw]
    exact hc
  refine ⟨?_, ?_, fun hc => (by cases hc), ?_⟩
  · rw [hbatch]
    exact h.pending
  · rw [hbatch]
    intro hf
    rcases Bool.or_eq_true_iff.mp hf with hc | hf
    · exact hheld hc
    · exact h.finalizing hf
  · intro hp
    cases commit with
    | true => exact .inr rfl
    | false => exact h.clears hp

theorem Flagged.startBatch (h : Flagged s) (client : ℕ) : Flagged (s.startBatch client) := by
  unfold State.startBatch
  split
  · next hstarted =>
    have hopen : s.store.engine.startBatch.2.batchInProgress = true := by
      unfold Engine.startBatch at hstarted ⊢
      split
      · next hbusy =>
        rw [if_pos hbusy] at hstarted
        cases hstarted
      · rfl
    exact ⟨fun _ => hopen, fun _ => hopen, fun _ => hopen, h.clears⟩
  · exact h

theorem Flagged.step {a : Action} (h : Flagged s) (hok : Allowed s a) (hs : Server.step s a = some t) : Flagged t := by
  cases step_moved hs with
  | startBatch => exact h.startBatch _
  | commitBatch => exact ⟨fun _ => hok, fun _ => hok, fun _ => hok, fun _ => .inl rfl⟩
  | abortQueue => exact ⟨fun hp => (by cases hp), h.finalizing, h.commit, fun hp => (by cases hp)⟩
  | abortEngine habort hbatch =>
    obtain ⟨hp, hf, hc⟩ := hok hbatch
    refine ⟨?_, ?_, ?_, ?_⟩
    · exact fun hp' => absurd (hp.symm.trans hp') (by decide)
    · exact fun hf' => absurd (hf.symm.trans hf') (by decide)
    · exact fun hc' => absurd (hc.symm.trans hc') (by decide)
    · exact h.clears
  | readCas hcas => exact h.congr rfl rfl rfl (inProgress_of_batchOf (batchOf_lookup _ _)) id
  | store hquiet => exact h.congr rfl rfl rfl (inProgress_of_batchOf hquiet.batch) id
  | swap hw hcas hswaps hwrote =>
    exact h.congr rfl rfl rfl (inProgress_of_batchOf hwrote.batch) fun hc => (by cases hc)
  | applied hw hwrote => exact h.congr rfl rfl rfl (inProgress_of_batchOf hwrote.batch) fun hc => (by cases hc)
  | collect hw hdue => exact ⟨h.pending, h.finalizing, h.pending, h.clears⟩
  | miniDone hw => exact h.congr rfl rfl rfl rfl fun hc => by rw [inCommit, hw]; exact hc
  | miniApplied hw hwrote =>
    refine h.congr rfl rfl rfl (inProgress_of_batchOf hwrote.batch) ?_
    exact fun hc => by rw [inCommit, hw]; exact hc
  | finish hw => exact h.finish hw
  | finalized hw hcommit hdone =>
    refine ⟨fun hp => (by cases hp), fun hf => (by cases hf), ?_, fun hp => (by cases hp)⟩
    exact fun hc => absurd ((inCommit_resume (s := s) _).symm.trans hc) (by decide)
  | unfinished hw =>
    refine h.congr rfl rfl rfl rfl ?_
    exact fun hc => absurd ((inCommit_resume (s := s) _).symm.trans hc) (by decide)
  | queued | queuedBatch | answer | answerCommit | abortNothing | stop | defer | takeCas =>
    exact h.congr rfl rfl rfl rfl id
  | _ => exact h.congr rfl rfl rfl rfl fun hc => (by cases hc)

/-- In every run in which commits are asked for only while a batch is in progress and no abort ends the batch of a
commit under way, the flags are consistent in every state. -/
theorem commit_flags_consistent (cfg : EngineConfig) (acts : List Action) (s : State)
    (hrun : Run Server.step Allowed (Server.init cfg) acts s) : Consistent s := by
  have hflagged : Flagged s := by
    refine hrun.invariant (I := Flagged) (fun _ _ _ hok hs h => h.step hok hs) ?_
    exact ⟨fun hp => (by cases hp), fun hf => (by cases hf), fun hc => (by cases hc), fun hp => (by cases hp)⟩
  exact ⟨hflagged.finalizing, hflagged.clears⟩

/-- A batch with one write, and its commit up to the flag `commit_finalizing_`. -/
def batchedRun : List Action :=
  ([.request 0 .batchBegin, .request 0 (.batchWrite [1] [2]), .request 0 .batchCommit] : List Action) ++
    List.replicate 9 Action.writer

theorem commit_flags_consistent_batchedRun :
    ∃ s, Run Server.step Allowed (Server.init smallConfig) batchedRun s ∧ s.commitFinalizing = true ∧
      s.commitPending = true ∧ Consistent s := by
  have hend : ∃ s, Run Server.step Allowed (Server.init smallConfig) batchedRun s ∧ s.commitFinalizing = true ∧
      s.commitPending = true := Run.exists_of_checked (by decide)
  obtain ⟨s, hrun, hfinalizing, hpending⟩ := hend
  exact ⟨s, hrun, hfinalizing, hpending, commit_flags_consistent _ _ _ hrun⟩

/-- A commit without a batch. -/
def commitWithoutBatch : List Action := .request 0 .batchCommit :: List.replicate 8 .writer

/-- The writer waits for the end of a batch that the engine does not have. -/
theorem commit_without_batch_inconsistent :
    ∃ s, Run Server.step anyStep (Server.init smallConfig) commitWithoutBatch s ∧ s.commitPending = true ∧
      s.commitFinalizing = true ∧ s.store.engine.batchInProgress = false ∧ ¬ Consistent s :=
  Run.exists_of_checked (by decide)

end Kvdb.CommitFlags
