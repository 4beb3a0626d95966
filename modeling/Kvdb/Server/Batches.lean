import Kvdb.Server.Flags
import Kvdb.Server.Owners

/-! # The writes of a committed batch

The writes of a client since its `StartBatch` pass through `batch_queue_` and the mini-batches of the writer, in their
order. When the engine rejects one of them the writer drops the rest of the mini-batch and keeps the request to commit:
the batch is committed without them. -/
namespace Kvdb.BatchCommits
set_option autoImplicit false

open Kvdb.Runs Kvdb.Engine Kvdb.Server
open Kvdb.CommitFlags (inCommit inCommit_resume)

/-- The engine rejects the write. -/
def Rejected (r : WriteRequest) : Prop :=
  Config.maxKeyBytes < r.key.length ∨
    (r.isDelete = false ∧ Config.maxKeyValuePairBytes < entrySize r.key r.value)

instance decidableRejected (r : WriteRequest) : Decidable (Rejected r) :=
  inferInstanceAs (Decidable (Config.maxKeyBytes < r.key.length ∨
    (r.isDelete = false ∧ Config.maxKeyValuePairBytes < entrySize r.key r.value)))

/-- No batch write is rejected, a commit is asked for and answered only when none is pending, and an abort comes when no
commit is pending and drops only writes of its own client. -/
def Allowed (s : State) : Action → Prop
  | .request _ .batchCommit => s.commitPending = false
  | .request client .batchAbort => s.commitPending = false ∧ ∀ r ∈ s.batchQueue, r.client = client
  | .answerCommit _ => s.commitPending = false
  | .writer => ∀ r ∈ (todo s.writer).head?, ¬ Rejected r
  | _ => True

instance decidableAllowed (s : State) (a : Action) : Decidable (Allowed s a) := by
  rcases a with ⟨_, ⟨⟩⟩ <;> unfold Allowed <;> infer_instance

/-- The batch writes that were answered and not dropped, in the order in which they are applied. -/
def arrived (s : State) : List WriteRequest := s.applied.map Applied.request ++ todo s.writer ++ s.batchQueue

def ofBatch (sent rs : List WriteRequest) : List WriteRequest := rs.filter fun r => decide (r ∈ sent)

/-- The writes of each client's batch have arrived, in their order. -/
structure Sent (s : State) : Prop where
  client : ∀ client, ∀ r ∈ s.sent client, r.client = client ∧ r.isDelete = true
  below : ∀ r ∈ arrived s, r.id < s.nextId
  distinct : (arrived s).Nodup
  inOrder : ∀ client, ofBatch (s.sent client) (arrived s) = s.sent client

variable {s t : State}

theorem rejected_of_threw {r : WriteRequest} {what : String} (h : s.batchOperation r = .threw what) : Rejected r := by
  unfold State.batchOperation at h
  split at h
  · next hdel =>
    unfold State.batchDelete Engine.batchDelete State.outcome at h
    split at h
    · cases h
    · next heq =>
      split at heq
      · next hlong => exact .inl hlong
      · cases heq
    · cases h
  · next hdel =>
    unfold State.batchInsert Engine.batchInsert State.outcome at h
    split at h
    · cases h
    · next heq =>
      split at heq
      · next hlong => exact .inl hlong
      · split at heq
        · next hlarge => exact .inr ⟨Bool.not_eq_true _ ▸ hdel, hlarge⟩
        · cases heq
    · cases h

/-! ## The writes arrive in their order -/

theorem Sent.mem_arrived (h : Sent s) {client : ℕ} {r : WriteRequest} (hr : r ∈ s.sent client) : r ∈ arrived s := by
  rw [← h.inOrder client] at hr
  exact (List.mem_filter.mp hr).1

theorem Sent.congr (h : Sent s) (harrived : arrived t = arrived s) (hsent : t.sent = s.sent)
    (hnext : s.nextId ≤ t.nextId) : Sent t := by
  refine ⟨?_, ?_, ?_, ?_⟩
  · rw [hsent]
    exact h.client
  · rw [harrived]
    exact fun r hr => Nat.lt_of_lt_of_le (h.below r hr) hnext
  · rw [harrived]
    exact h.distinct
  · rw [harrived, hsent]
    exact h.inOrder

theorem ofBatch_congr {sent sent' rs : List WriteRequest} (h : ∀ r ∈ rs, r ∈ sent' ↔ r ∈ sent) :
    ofBatch sent' rs = ofBatch sent rs :=
  List.filter_congr fun r hr => decide_eq_decide.mpr (h r hr)

theorem ofBatch_none {sent rs : List WriteRequest} (h : ∀ r ∈ rs, r ∉ sent) : ofBatch sent rs = [] :=
  List.filter_eq_nil_iff.mpr fun r hr hmem => h r hr (of_decide_eq_true hmem)

theorem sent_enqueueBatch (r : WriteRequest) (size : ℕ) :
    (s.enqueueBatch r size).sent r.client = s.sent r.client ++ [r] :=
  Function.update_self _ _ _

theorem sent_enqueueBatch_of_ne {client : ℕ} {r : WriteRequest} (h : client ≠ r.client) (size : ℕ) :
    (s.enqueueBatch r size).sent client = s.sent client :=
  Function.update_of_ne h _ _

/-- A batch write enters the queue. -/
theorem Sent.push (h : Sent s) {r : WriteRequest} (size : ℕ) (hid : r.id = s.nextId) (hdel : r.isDelete = true) :
    Sent (s.enqueueBatch r size) := by
  have harrived : arrived (s.enqueueBatch r size) = arrived s ++ [r] := by
    simp [arrived, State.enqueueBatch]
  have hfresh : ∀ q ∈ arrived s, q ≠ r := by
    rintro q hq rfl
    exact Nat.lt_irrefl _ (hid ▸ h.below q hq)
  refine ⟨?_, ?_, ?_, ?_⟩
  · intro client q hq
    by_cases heq : client = r.client
    · subst heq
      rw [sent_enqueueBatch] at hq
      rcases List.mem_append.mp hq with hq | hq
      · exact h.client r.client q hq
      · rw [List.mem_singleton.mp hq]
        exact ⟨rfl, hdel⟩
    · rw [sent_enqueueBatch_of_ne heq] at hq
      exact h.client client q hq
  · rw [harrived]
    intro q hq
    show q.id < s.nextId + 1
    rcases List.mem_append.mp hq with hq | hq
    · exact Nat.lt_succ_of_lt (h.below q hq)
    · rw [List.mem_singleton.mp hq, hid]
      exact Nat.lt_succ_self _
  · rw [harrived]
    refine List.nodup_append.mpr ⟨h.distinct, List.nodup_singleton r, ?_⟩
    intro q hq q' hq'
    rw [List.mem_singleton.mp hq']
    exact hfresh q hq
  · intro client
    rw [harrived]
    by_cases heq : client = r.client
    · subst heq
      rw [sent_enqueueBatch]
      have hold : ofBatch (s.sent r.client ++ [r]) (arrived s) = s.sent r.client := by
        refine (ofBatch_congr fun q hq => ?_).trans (h.inOrder r.client)
        simp [hfresh q hq]
      rw [ofBatch, List.filter_append, ← ofBatch, ← ofBatch, hold]
      simp [ofBatch]
    · rw [sent_enqueueBatch_of_ne heq, ofBatch, List.filter_append, ← ofBatch, ← ofBatch,
        h.inOrder client, ofBatch_none, List.append_nil]
      intro q hq hmem
      rw [List.mem_singleton.mp hq] at hmem
      exact heq (h.client client r hmem).1.symm

/-- The list of a client's writes starts anew. -/
theorem Sent.restart (h : Sent s) {client : ℕ} (hsent : t.sent = Function.update s.sent client [])
    (harrived : ∀ c, c ≠ client → ofBatch (s.sent c) (arrived t) = ofBatch (s.sent c) (arrived s))
    (hsub : (arrived t).Sublist (arrived s)) (hnext : t.nextId = s.nextId) : Sent t := by
  refine ⟨?_, ?_, h.distinct.sublist hsub, ?_⟩
  · intro c r hr
    rw [hsent] at hr
    by_cases heq : c = client
    · subst heq
      rw [Function.update_self] at hr
      cases hr
    · rw [Function.update_of_ne heq] at hr
      exact h.client c r hr
  · rw [hnext]
    exact fun r hr => h.below r (hsub.subset hr)
  · intro c
    rw [hsent]
    by_cases heq : c = client
    · subst heq
      rw [Function.update_self]
      exact ofBatch_none fun r _ hmem => (by cases hmem)
    · rw [Function.update_of_ne heq, harrived c heq]
      exact h.inOrder c

theorem Sent.step {a : Action} (h : Sent s) (hok : Allowed s a) (hs : Server.step s a = some t) : Sent t := by
  cases step_moved hs with
  | queued => exact h.congr rfl rfl (Nat.le_succ _)
  | queuedBatch hfits hidle hrun hroom => exact h.push _ rfl rfl
  | @startBatch client =>
    unfold State.startBatch
    split
    · exact h.restart rfl (fun _ _ => rfl) (List.Sublist.refl _) rfl
    · exact h
  | @abortQueue client =>
    have harrived : arrived s = arrived (s.abortQueue client) ++ s.batchQueue := by
      simp [arrived, State.abortQueue, State.withHandler]
    refine h.restart rfl ?_ ?_ rfl
    · intro c hne
      have hnone : ofBatch (s.sent c) s.batchQueue = [] := by
        refine ofBatch_none fun r hr hmem => ?_
        exact hne ((h.client c r hmem).1.symm.trans (hok.2 r hr))
      rw [harrived, ofBatch, ofBatch, List.filter_append, ← ofBatch, ← ofBatch, hnone, List.append_nil]
    · rw [harrived]
      exact List.sublist_append_left _ _
  | collect hw hdue =>
    refine h.congr ?_ rfl (Nat.le_refl _)
    show s.applied.map Applied.request ++ s.mini ++ s.batchQueue.drop s.mini.length = _
    rw [List.append_assoc, mini_append, arrived, hw]
    simp [todo]
  | @miniApplied done rest r commit b hw hwrote =>
    refine h.congr ?_ rfl (Nat.le_refl _)
    simp [arrived, todo, hw, State.appliedRecord]
  | miniRefused hw hthrew =>
    rw [Allowed, hw] at hok
    exact absurd (rejected_of_threw hthrew) (hok _ rfl)
  | finalized hw hcommit hdone | unfinished hw =>
    refine h.congr ?_ rfl (Nat.le_refl _)
    simp only [arrived, hw, todo_resume]
    rfl
  | commitBatch | answer | answerCommit | abortEngine | abortNothing | readCas | store | stop | defer | takeCas =>
    exact h.congr rfl rfl (Nat.le_refl _)
  | _ hw =>
    refine h.congr ?_ rfl (Nat.le_refl _)
    rw [arrived, arrived, hw]
    rfl

/-! ## A commit is answered when they are applied -/

/-- Every write of the client's batch has been applied. -/
def AllApplied (s : State) (client : ℕ) : Prop := ∀ r ∈ s.sent client, r ∈ s.applied.map Applied.request

instance decidableAllApplied (s : State) (client : ℕ) : Decidable (AllApplied s client) :=
  inferInstanceAs (Decidable (∀ r ∈ s.sent client, r ∈ s.applied.map Applied.request))

/-- The commit of a client is on its way: its last mini-batch has yet to be taken, or has what is missing. -/
def UnderWay (s : State) (client : ℕ) : Prop :=
  s.commitPending = true ∧ s.commitFinalizing = false ∧
    (inCommit s = true → ∀ r ∈ s.sent client, r ∈ s.applied.map Applied.request ++ todo s.writer)

structure Commits (s : State) : Prop where
  sent : Sent s
  commit : inCommit s = true → s.commitPending = true
  finalizing : s.commitFinalizing = true → s.commitPending = true
  ready : ∀ client, s.handlers client = .committing → AllApplied s client ∨ UnderWay s client

theorem Commits.allApplied (h : Commits s) {client : ℕ} (hhandler : s.handlers client = .committing)
    (hdone : s.commitPending = false ∨ s.commitFinalizing = true) : AllApplied s client := by
  rcases h.ready client hhandler with hall | ⟨hpending, hnot, -⟩
  · exact hall
  · rcases hdone with hdone | hdone
    · exact absurd (hdone.symm.trans hpending) (by decide)
    · exact absurd (hnot.symm.trans hdone) (by decide)

/-- A step that leaves the flags of a commit and the batch writes alone. -/
theorem Commits.congr (h : Commits s) (hsent : Sent t) (hpending : t.commitPending = s.commitPending)
    (hfinalizing : t.commitFinalizing = s.commitFinalizing) (hcommit : inCommit t = true → inCommit s = true)
    (hclients : t.sent = s.sent) (happlied : t.applied = s.applied) (htodo : todo t.writer = todo s.writer)
    (hhandlers : ∀ client, t.handlers client = .committing → s.handlers client = .committing) : Commits t := by
  refine ⟨hsent, ?_, ?_, ?_⟩
  · rw [hpending]
    exact fun hc => h.commit (hcommit hc)
  · rw [hpending, hfinalizing]
    exact h.finalizing
  · intro client hc
    rw [AllApplied, UnderWay, hpending, hfinalizing, hclients, happlied, htodo]
    rcases h.ready client (hhandlers client hc) with hall | ⟨hp, hf, hrest⟩
    · exact .inl hall
    · exact .inr ⟨hp, hf, fun hc' => hrest (hcommit hc')⟩

theorem committing_of_withHandler {client c : ℕ} {x : Handler} (hx : x ≠ .committing)
    (h : (s.withHandler client x).handlers c = .committing) : c ≠ client ∧ s.handlers c = .committing := by
  have hupdate : Function.update s.handlers client x c = .committing := h
  by_cases heq : c = client
  · subst heq
    rw [Function.update_self] at hupdate
    exact absurd hupdate hx
  · rw [Function.update_of_ne heq] at hupdate
    exact ⟨heq, hupdate⟩

theorem Commits.collect (h : Commits s) (hw : s.writer = .collect) (hsent : Sent t)
    (ht : t = { s with
      batchQueue := s.batchQueue.drop s.mini.length
      batchQueueBytes := s.mini.foldl (fun bytes r => subBytes bytes (refund r)) s.batchQueueBytes
      writer := .applyBatch [] s.mini s.commitPending }) : Commits t := by
  subst ht
  refine ⟨hsent, id, h.finalizing, ?_⟩
  intro client hc
  rcases h.ready client hc with hall | ⟨hp, hf, -⟩
  · exact .inl hall
  · refine .inr ⟨hp, hf, ?_⟩
    intro hmode r hr
    have hmini : s.mini = s.batchQueue := by
      rw [State.mini, if_pos hp]
    have hin := h.sent.mem_arrived hr
    rw [arrived, hw] at hin
    show r ∈ s.applied.map Applied.request ++ s.mini
    rw [hmini]
    simpa [todo] using hin

theorem Commits.finish (h : Commits s) {mini : List WriteRequest} {commit : Bool} (hw : s.writer = .finish mini commit)
    (hsent : Sent (s.finishMini mini commit)) : Commits (s.finishMini mini commit) := by
  refine ⟨hsent, fun hc => (by cases hc), ?_, ?_⟩
  · intro hf
    rcases Bool.or_eq_true_iff.mp hf with hc | hf
    · refine h.commit ?_
      rw [inCommit, hw]
      exact hc
    · exact h.finalizing hf
  · intro client hc
    rcases h.ready client hc with hall | ⟨hp, hf, hrest⟩
    · exact .inl hall
    · cases commit with
      | true =>
        refine .inl fun r hr => ?_
        have hin : r ∈ s.applied.map Applied.request ++ todo s.writer := hrest (by rw [inCommit, hw]) r hr
        rw [hw, show todo (.finish mini true) = [] from rfl, List.append_nil] at hin
        exact hin
      | false => exact .inr ⟨hp, hf, fun hc' => (by cases hc')⟩

theorem Commits.miniApplied (h : Commits s) {done rest : List WriteRequest} {r : WriteRequest} {commit : Bool}
    {b : BatchServing.State × ℕ} (hw : s.writer = .applyBatch done (r :: rest) commit) (hsent : Sent t)
    (ht : t = { s with
      store := b.1
      applied := s.applied ++ [s.appliedRecord r]
      writer := .applyBatch (done ++ [{ r with seq := b.2 }]) rest commit }) : Commits t := by
  have hmode : inCommit t = inCommit s := by
    rw [ht, inCommit, inCommit, hw]
  subst ht
  refine ⟨hsent, ?_, h.finalizing, ?_⟩
  · rw [hmode]
    exact h.commit
  · intro client hc
    rcases h.ready client hc with hall | ⟨hp, hf, hrest⟩
    · refine .inl fun q hq => ?_
      rw [List.map_append]
      exact List.mem_append_left _ (hall q hq)
    · refine .inr ⟨hp, hf, ?_⟩
      rw [hmode]
      intro hc' q hq
      have hin := hrest hc' q hq
      rw [hw] at hin
      simpa [todo, State.appliedRecord] using hin

theorem Commits.step {a : Action} (h : Commits s) (hok : Allowed s a) (hs : Server.step s a = some t) : Commits t := by
  have hsent := h.sent.step hok hs
  cases step_moved hs with
  | queued =>
    refine h.congr hsent rfl rfl id rfl rfl rfl fun client hc => ?_
    refine (committing_of_withHandler ?_ hc).2
    split <;> exact fun heq => (by cases heq)
  | @queuedBatch client key value hfits hidle hrun hroom =>
    refine ⟨hsent, h.commit, h.finalizing, ?_⟩
    intro c hc
    have hne : c ≠ client := by
      rintro rfl
      exact absurd (hidle.symm.trans hc) (by decide)
    rw [AllApplied, UnderWay, sent_enqueueBatch_of_ne hne]
    exact h.ready c hc
  | @startBatch client =>
    unfold State.startBatch at hsent ⊢
    split at hsent
    · next hstarted =>
      rw [if_pos hstarted]
      refine ⟨hsent, h.commit, h.finalizing, ?_⟩
      intro c hc
      by_cases heq : c = client
      · subst heq
        refine .inl fun r hr => ?_
        have hempty : r ∈ Function.update s.sent c [] c := hr
        rw [Function.update_self] at hempty
        cases hempty
      · have hsame : Function.update s.sent client [] c = s.sent c := Function.update_of_ne heq _ _
        simp only [AllApplied, UnderWay, hsame]
        exact h.ready c hc
    · next hstarted =>
      rw [if_neg hstarted]
      exact h
  | @commitBatch client =>
    refine ⟨hsent, fun _ => rfl, fun _ => rfl, ?_⟩
    have hfree : s.commitPending = false := hok
    have hmode : inCommit s = false := by
      rw [← Bool.not_eq_true]
      exact fun hc => absurd (hfree.symm.trans (h.commit hc)) (by decide)
    have hfinal : s.commitFinalizing = false := by
      rw [← Bool.not_eq_true]
      exact fun hf => absurd (hfree.symm.trans (h.finalizing hf)) (by decide)
    exact fun c _ => .inr ⟨rfl, hfinal, fun hc => absurd (hmode.symm.trans hc) (by decide)⟩
  | @abortQueue client =>
    have hfree := hok.1
    refine ⟨hsent, ?_, ?_, ?_⟩
    · exact fun hc => absurd (hfree.symm.trans (h.commit hc)) (by decide)
    · exact fun hf => absurd (hfree.symm.trans (h.finalizing hf)) (by decide)
    · intro c hc
      obtain ⟨hne, hc⟩ := committing_of_withHandler (x := .aborting) (by decide) hc
      have hsame : (s.abortQueue client).sent c = s.sent c := Function.update_of_ne hne _ _
      refine .inl ?_
      rw [AllApplied, hsame]
      exact h.allApplied hc (.inl hfree)
  | answer | answerCommit | abortEngine | abortNothing =>
    refine h.congr hsent rfl rfl id rfl rfl rfl fun client hc => ?_
    exact (committing_of_withHandler (x := .idle) (by decide) hc).2
  | readCas | store | stop | defer | takeCas => exact h.congr hsent rfl rfl id rfl rfl rfl fun _ hc => hc
  | collect hw hdue => exact h.collect hw hsent rfl
  | miniApplied hw hwrote => exact h.miniApplied hw hsent rfl
  | miniDone hw =>
    refine h.congr hsent rfl rfl ?_ rfl rfl (by rw [hw]; rfl) fun _ hc => hc
    exact fun hc => by rw [inCommit, hw]; exact hc
  | miniRefused hw hthrew =>
    rw [Allowed, hw] at hok
    exact absurd (rejected_of_threw hthrew) (hok _ rfl)
  | finish hw => exact h.finish hw hsent
  | @finalized next hw hcommit hdone =>
    refine ⟨hsent, ?_, fun hf => (by cases hf), fun c hc => .inl (h.allApplied hc (.inr hcommit))⟩
    exact fun hc => absurd ((inCommit_resume (s := s) next).symm.trans hc) (by decide)
  | @unfinished next hw =>
    refine h.congr hsent rfl rfl ?_ rfl rfl ((todo_resume s next).trans (by rw [hw]; rfl)) fun _ hc => hc
    exact fun hc => absurd ((inCommit_resume (s := s) next).symm.trans hc) (by decide)
  | _ hw => exact h.congr hsent rfl rfl (fun hc => (by cases hc)) rfl rfl (by rw [hw]; rfl) fun _ hc => hc

theorem commits_init (cfg : EngineConfig) : Commits (Server.init cfg) where
  sent := ⟨fun _ _ hr => (by cases hr), fun _ hr => (by cases hr), List.nodup_nil, fun _ => rfl⟩
  commit := fun hc => (by cases hc)
  finalizing := fun hf => (by cases hf)
  ready := fun _ hc => (by cases hc)

/-- The writes of a batch that is applied were applied in their order. -/
theorem Sent.applied_inOrder (h : Sent s) {client : ℕ} (hall : AllApplied s client) :
    ofBatch (s.sent client) (s.applied.map Applied.request) = s.sent client := by
  have hsplit : ofBatch (s.sent client) (s.applied.map Applied.request) ++
      ofBatch (s.sent client) (todo s.writer ++ s.batchQueue) = s.sent client := by
    rw [ofBatch, ofBatch, ← List.filter_append, ← List.append_assoc]
    exact h.inOrder client
  have hrest : ofBatch (s.sent client) (todo s.writer ++ s.batchQueue) = [] := by
    refine ofBatch_none fun r hr hmem => ?_
    have hnodup := h.distinct
    rw [arrived, List.append_assoc] at hnodup
    exact (List.nodup_append.mp hnodup).2.2 r (hall r hmem) r hr rfl
  rw [hrest, List.append_nil] at hsplit
  exact hsplit

theorem Commits.of_run {cfg : EngineConfig} {acts : List Action} (hrun : Run Server.step Allowed (Server.init cfg) acts s) :
    Commits s :=
  hrun.invariant (I := Commits) (fun _ _ _ hok hs h => h.step hok hs) (commits_init cfg)

theorem Commits.answered (h : Commits s) {client : ℕ} (hok : Allowed s (.answerCommit client))
    (hs : Server.step s (.answerCommit client) = some t) : AllApplied s client := by
  simp only [Server.step, State.answerCommit] at hs
  split at hs
  · next hboth => exact h.allApplied hboth.1 (.inl hok)
  · cases hs

/-- In every run in which no batch write is rejected and no other commit, abort or stop gets between a batch and its
commit, `CommitBatch` is answered only when every write of the client's batch has been applied, and so it is when the
engine is to end the batch. -/
theorem commit_answered_applied (cfg : EngineConfig) (acts : List Action) (s : State)
    (hrun : Run Server.step Allowed (Server.init cfg) acts s) :
    (∀ client t, Allowed s (.answerCommit client) → Server.step s (.answerCommit client) = some t →
      AllApplied s client) ∧
      ∀ client, s.commitFinalizing = true → s.handlers client = .committing → AllApplied s client := by
  have h := Commits.of_run hrun
  exact ⟨fun client t hok hs => h.answered hok hs, fun client hfinal hc => h.allApplied hc (.inr hfinal)⟩

/-- A batch with two writes, up to the answer to its commit. -/
def wholeRun : List Action :=
  ([.request 1 .batchBegin, .request 1 (.batchWrite [1] []), .request 1 (.batchWrite [3] []),
    .request 1 .batchCommit] : List Action) ++ List.replicate 10 Action.writer ++ ([.background (.sync true)] : List Action) ++ List.replicate 2 Action.writer

theorem commit_answered_applied_wholeRun :
    ∃ s t, Run Server.step Allowed (Server.init smallConfig) wholeRun s ∧
      Server.step s (.answerCommit 1) = some t ∧ (s.sent 1).length = 2 ∧ AllApplied s 1 := by
  have hend : ∃ s, Run Server.step Allowed (Server.init smallConfig) wholeRun s ∧ s.handlers 1 = .committing ∧
      s.commitPending = false ∧ (s.sent 1).length = 2 := Run.exists_of_checked (by decide)
  obtain ⟨s, hrun, hcommitting, hpending, hlength⟩ := hend
  have hs : Server.step s (.answerCommit 1) = some (s.withHandler 1 .idle) := if_pos ⟨hcommitting, .inl hpending⟩
  exact ⟨s, _, hrun, hs, hlength, (commit_answered_applied _ _ _ hrun).1 1 _ hpending hs⟩

/-- A batch whose second write has a key that is too long, and the answer to its commit. -/
def rejectedRun : List Action :=
  ([.request 1 .batchBegin, .request 1 (.batchWrite [1] []), .request 1 (.batchWrite (List.replicate 1025 7) []),
    .request 1 (.batchWrite [3] []), .request 1 .batchCommit] : List Action) ++
    List.replicate 16 Action.writer ++ ([.background (.sync true)] : List Action) ++ List.replicate 2 Action.writer ++
    ([.answerCommit 1] : List Action)

/-- The commit is answered with the first write committed and the last one dropped. -/
theorem rejected_write_commits_partially :
    ∃ s, Run Server.step anyStep (Server.init smallConfig) rejectedRun s ∧ (s.sent 1).length = 3 ∧
      s.handlers 1 = .idle ∧ s.commitPending = false ∧
      s.store.committed.map BatchServing.Effect.key = [[1]] ∧ ¬ AllApplied s 1 :=
  Run.exists_of_checked (by decide +kernel)

end Kvdb.BatchCommits
