import Kvdb.Engine.BatchIsolation

/-! # The timestamps that writes and batches are given

A normal write takes the next value of `global_ts_`, a batch reserves a value ahead of it. `CommitBatch`
moves the counter past the reserved value, `AbortBatch` leaves both as they are: the counter still
lies below the timestamp of the aborted batch and a later normal write, or a later batch, can be given
it again. -/
namespace Kvdb.Timestamps
set_option autoImplicit false

open Kvdb.Runs Kvdb.Engine
open Kvdb.BatchIsolation (Action afterWrite_eq_some batchInsert_returned batchDelete_returned)

/-- The members of the engine that decide which timestamp is given next. -/
structure Clock where
  inProgress : Bool
  touched : Bool
  globalTs : ℕ
  batchTs : ℕ

def clock (e : Engine) : Clock := ⟨e.batchInProgress, e.batchTouched, e.globalTs, e.batchTs⟩

/-- The run, the timestamps of the normal writes and of the batches with an entry, in the order in
which they were first used, and those of the batches with an entry that were aborted. -/
structure State where
  base : BatchIsolation.State
  stamps : List ℕ
  aborted : List ℕ

def init (cfg : EngineConfig) : State := ⟨BatchIsolation.init cfg, [], []⟩

/-- The timestamp that a call brings into use: a batch uses its own with its first entry. -/
def issued (c : Clock) : Action → List ℕ
  | .insert _ _ => [c.globalTs + 1]
  | .delete _ => [c.globalTs + 1]
  | .batchInsert _ _ => if c.touched then [] else [c.batchTs]
  | .batchDelete _ => if c.touched then [] else [c.batchTs]
  | _ => []

def abortedBy (c : Clock) : Action → List ℕ
  | .abortBatch => if c.inProgress && c.touched then [c.batchTs] else []
  | _ => []

def step (s : State) (a : Action) : Option State :=
  (BatchIsolation.step s.base a).map fun t =>
    ⟨t, s.stamps ++ issued (clock s.base.engine) a, s.aborted ++ abortedBy (clock s.base.engine) a⟩

/-- The condition on a step: a normal write does not find the counter directly below the timestamp of
an aborted batch or of the open batch with an entry, the first entry of a batch is written while it is
open, above the counter, and not under the timestamp of an aborted batch, and no addition wraps. -/
def Allowed (s : State) : Action → Prop
  | .insert _ _ => s.base.engine.globalTs + 1 ∉ s.aborted ∧
      (s.base.engine.batchInProgress = true → s.base.engine.batchTouched = true →
        s.base.engine.globalTs + 1 < s.base.engine.batchTs)
  | .delete _ => s.base.engine.globalTs + 1 ∉ s.aborted ∧
      (s.base.engine.batchInProgress = true → s.base.engine.batchTouched = true →
        s.base.engine.globalTs + 1 < s.base.engine.batchTs)
  | .batchInsert _ _ => s.base.engine.batchTouched = false → s.base.engine.batchInProgress = true ∧
      s.base.engine.globalTs < s.base.engine.batchTs ∧ s.base.engine.batchTs ∉ s.aborted
  | .batchDelete _ => s.base.engine.batchTouched = false → s.base.engine.batchInProgress = true ∧
      s.base.engine.globalTs < s.base.engine.batchTs ∧ s.base.engine.batchTs ∉ s.aborted
  | .startBatch => s.base.engine.batchInProgress = false →
      s.base.engine.globalTs + s.base.engine.cfg.batchIncrementGap + 1 < 2 ^ 64
  | _ => True

instance decidableAllowed (s : State) (a : Action) : Decidable (Allowed s a) := by
  rcases a with ⟨⟩ <;> unfold Allowed <;> infer_instance

/-! ## The clock of a step -/

/-- What a call makes of the clock. -/
def moved (e : Engine) : Action → Clock
  | .insert _ _ => { clock e with globalTs := e.globalTs + 1 }
  | .delete _ => { clock e with globalTs := e.globalTs + 1 }
  | .startBatch =>
    if e.batchInProgress then clock e
    else ⟨true, false, e.globalTs, (e.globalTs + e.cfg.batchIncrementGap) % 2 ^ 64⟩
  | .batchInsert _ _ => { clock e with touched := true }
  | .batchDelete _ => { clock e with touched := true }
  | .commitBatchFinalize =>
    if e.batchInProgress && !decide (e.syncedSeq < e.batchCommitSeq) then
      { clock e with inProgress := false, globalTs := (e.batchTs + 1) % 2 ^ 64 }
    else clock e
  | .abortBatch => { clock e with inProgress := false }
  | _ => clock e

theorem clock_applyWrite (e : Engine) (key value : Bytes) (isTombstone : Bool) (ts : ℕ) :
    clock (e.applyWrite key value isTombstone ts) = clock e := by
  unfold applyWrite freezeIfFull
  split <;> rfl

theorem clock_flushWorker (e : Engine) : clock e.flushWorker = clock e := by
  unfold flushWorker
  split
  · rfl
  · simp only []
    split
    · exact doFlush_keeps clock _ _ fun _ _ => rfl
    · rfl

theorem clock_lookupAt (e : Engine) (key : Bytes) (readTs : ℕ) : clock (e.lookupAt key readTs).2 = clock e := by
  unfold lookupAt
  split
  · rfl
  · split
    · split <;> rfl
    · rfl

theorem clock_step {s t : BatchIsolation.State} {a : Action} (h : BatchIsolation.step s a = some t) :
    clock t.engine = moved s.engine a := by
  cases a with
  | insert key value =>
    obtain ⟨e, n, hret, rfl⟩ := afterWrite_eq_some h
    obtain ⟨-, -, rfl⟩ := insert_returned hret
    exact clock_applyWrite s.engine.tick key value false (s.engine.globalTs + 1)
  | delete key =>
    obtain ⟨e, n, hret, rfl⟩ := afterWrite_eq_some h
    obtain ⟨-, -, rfl⟩ := delete_returned hret
    exact clock_applyWrite s.engine.tick key [] true (s.engine.globalTs + 1)
  | batchInsert key value =>
    obtain ⟨e, n, hret, rfl⟩ := afterWrite_eq_some h
    rw [batchInsert_returned hret]
    exact clock_applyWrite _ key value false _
  | batchDelete key =>
    obtain ⟨e, n, hret, rfl⟩ := afterWrite_eq_some h
    rw [batchDelete_returned hret]
    exact clock_applyWrite _ key [] true _
  | startBatch =>
    cases h
    simp only [moved, Engine.startBatch]
    split <;> rfl
  | commitBatchAsync =>
    cases h
    simp only [moved, Engine.commitBatchAsync]
    split <;> rfl
  | commitBatchFinalize =>
    cases h
    simp only [moved, Engine.commitBatchFinalize]
    split <;> rfl
  | abortBatch =>
    cases h
    simp only [moved, Engine.abortBatch]
    split
    · split <;> rfl
    · next hfree =>
      rw [Bool.not_eq_true] at hfree
      rw [clock, hfree]
  | sync force =>
    cases h
    rfl
  | rotate =>
    cases h
    rfl
  | flushWorker =>
    cases h
    exact clock_flushWorker s.engine
  | lookup key =>
    cases h
    exact clock_lookupAt s.engine key s.engine.globalTs
  | evict keepHeavy keepBlock =>
    cases h
    rfl

/-! ## The invariant -/

/-- Every timestamp in use is accounted for: the counter has passed it, its batch was aborted, or it
belongs to the open batch. -/
structure Inv (c : Clock) (stamps aborted : List ℕ) : Prop where
  nodup : stamps.Nodup
  accounted : ∀ t ∈ stamps, t ≤ c.globalTs ∨ t ∈ aborted ∨
    (c.inProgress = true ∧ c.touched = true ∧ t = c.batchTs)
  ahead : c.inProgress = true → c.globalTs ≤ c.batchTs ∧ c.batchTs + 1 < 2 ^ 64

variable {c : Clock} {stamps aborted : List ℕ}

theorem nodup_append_singleton {xs : List ℕ} {x : ℕ} (h : xs.Nodup) (hx : x ∉ xs) : (xs ++ [x]).Nodup := by
  rw [List.nodup_append]
  refine ⟨h, List.pairwise_singleton _ _, ?_⟩
  intro a ha b hb hab
  rw [List.mem_singleton] at hb
  exact hx (hb ▸ hab ▸ ha)

theorem Inv.write (h : Inv c stamps aborted) (hmay : c.inProgress = true → c.globalTs + 1 ≤ c.batchTs)
    (hfree : c.globalTs + 1 ∉ aborted)
    (hopen : c.inProgress = true → c.touched = true → c.globalTs + 1 < c.batchTs) :
    Inv { c with globalTs := c.globalTs + 1 } (stamps ++ [c.globalTs + 1]) aborted := by
  have hnew : c.globalTs + 1 ∉ stamps := by
    intro hmem
    rcases h.accounted _ hmem with hle | hab | ⟨hin, htouched, heq⟩
    · omega
    · exact hfree hab
    · have := hopen hin htouched
      omega
  refine ⟨nodup_append_singleton h.nodup hnew, ?_, fun hin => ⟨hmay hin, (h.ahead hin).2⟩⟩
  intro t ht
  simp only []
  rw [List.mem_append, List.mem_singleton] at ht
  rcases ht with ht | rfl
  · rcases h.accounted t ht with hle | hrest
    · exact .inl (by omega)
    · exact .inr hrest
  · exact .inl (Nat.le_refl _)

theorem Inv.batchWrite (h : Inv c stamps aborted) (hfirst : c.touched = false →
    c.inProgress = true ∧ c.globalTs < c.batchTs ∧ c.batchTs ∉ aborted) :
    Inv { c with touched := true } (stamps ++ if c.touched then [] else [c.batchTs]) aborted := by
  by_cases htouched : c.touched = true
  · rw [if_pos htouched, List.append_nil]
    refine ⟨h.nodup, ?_, h.ahead⟩
    intro t ht
    rcases h.accounted t ht with hle | hab | ⟨hin, -, heq⟩
    · exact .inl hle
    · exact .inr (.inl hab)
    · exact .inr (.inr ⟨hin, rfl, heq⟩)
  · obtain ⟨hin, hlt, hfree⟩ := hfirst (Bool.eq_false_iff.mpr htouched)
    rw [if_neg htouched]
    have hold : ∀ t ∈ stamps, t ≤ c.globalTs ∨ t ∈ aborted := by
      intro t ht
      rcases h.accounted t ht with hle | hab | ⟨-, htrue, -⟩
      · exact .inl hle
      · exact .inr hab
      · exact absurd htrue htouched
    have hnew : c.batchTs ∉ stamps := by
      intro hmem
      rcases hold _ hmem with hle | hab
      · omega
      · exact hfree hab
    refine ⟨nodup_append_singleton h.nodup hnew, ?_, h.ahead⟩
    intro t ht
    rw [List.mem_append, List.mem_singleton] at ht
    rcases ht with ht | rfl
    · rcases hold t ht with hle | hab
      · exact .inl hle
      · exact .inr (.inl hab)
    · exact .inr (.inr ⟨hin, rfl, rfl⟩)

theorem Inv.startBatch (h : Inv c stamps aborted) (hidle : c.inProgress = false) {ts : ℕ}
    (hts : c.globalTs ≤ ts) (hbound : ts + 1 < 2 ^ 64) : Inv ⟨true, false, c.globalTs, ts⟩ stamps aborted := by
  refine ⟨h.nodup, ?_, fun _ => ⟨hts, hbound⟩⟩
  intro t ht
  rcases h.accounted t ht with hle | hab | ⟨hin, -, -⟩
  · exact .inl hle
  · exact .inr (.inl hab)
  · rw [hidle] at hin
    cases hin

theorem Inv.commit (h : Inv c stamps aborted) (hin : c.inProgress = true) :
    Inv { c with inProgress := false, globalTs := (c.batchTs + 1) % 2 ^ 64 } stamps aborted := by
  obtain ⟨hahead, hbound⟩ := h.ahead hin
  rw [Nat.mod_eq_of_lt hbound]
  refine ⟨h.nodup, ?_, fun hfalse => (by cases hfalse)⟩
  intro t ht
  simp only []
  rcases h.accounted t ht with hle | hab | ⟨-, -, heq⟩
  · exact .inl (by omega)
  · exact .inr (.inl hab)
  · exact .inl (by omega)

theorem Inv.abort (h : Inv c stamps aborted) :
    Inv { c with inProgress := false } stamps
      (aborted ++ if c.inProgress && c.touched then [c.batchTs] else []) := by
  refine ⟨h.nodup, ?_, fun hfalse => (by cases hfalse)⟩
  intro t ht
  rcases h.accounted t ht with hle | hab | ⟨hin, htouched, heq⟩
  · exact .inl hle
  · exact .inr (.inl (List.mem_append_left _ hab))
  · refine .inr (.inl (List.mem_append_right _ ?_))
    rw [hin, htouched, heq]
    exact List.mem_cons_self

def Accounted (s : State) : Prop := Inv (clock s.base.engine) s.stamps s.aborted

theorem mayWrite_le {e : Engine} (h : e.mayWrite) : e.batchInProgress = true → e.globalTs + 1 ≤ e.batchTs := by
  intro hin
  by_contra hlt
  exact h ⟨hin, by omega⟩

theorem Accounted.step {s t : State} {a : Action} (h : Accounted s) (hok : Allowed s a)
    (hs : step s a = some t) : Accounted t := by
  obtain ⟨base, hbase, rfl⟩ := Option.map_eq_some_iff.mp hs
  rw [Accounted, clock_step hbase]
  cases a with
  | insert key value =>
    obtain ⟨e, n, hret, -⟩ := afterWrite_eq_some hbase
    simp only [abortedBy, List.append_nil]
    exact Inv.write h (mayWrite_le (insert_returned hret).1) hok.1 hok.2
  | delete key =>
    obtain ⟨e, n, hret, -⟩ := afterWrite_eq_some hbase
    simp only [abortedBy, List.append_nil]
    exact Inv.write h (mayWrite_le (delete_returned hret).1) hok.1 hok.2
  | batchInsert key value =>
    simp only [abortedBy, List.append_nil]
    exact Inv.batchWrite h hok
  | batchDelete key =>
    simp only [abortedBy, List.append_nil]
    exact Inv.batchWrite h hok
  | startBatch =>
    simp only [abortedBy, issued, moved, List.append_nil]
    split
    · exact h
    · next hidle =>
      rw [Bool.not_eq_true] at hidle
      have hbound := hok hidle
      have hmod := Nat.mod_eq_of_lt (Nat.lt_of_succ_lt hbound)
      rw [hmod]
      exact Inv.startBatch h hidle (Nat.le_add_right _ _) hbound
  | commitBatchFinalize =>
    simp only [abortedBy, issued, moved, List.append_nil]
    split
    · next hsynced =>
      rw [Bool.and_eq_true] at hsynced
      exact Inv.commit h hsynced.1
    · exact h
  | abortBatch =>
    simp only [issued, List.append_nil]
    exact Inv.abort h
  | commitBatchAsync =>
    simp only [abortedBy, issued, moved, List.append_nil]
    exact h
  | sync force =>
    simp only [abortedBy, issued, moved, List.append_nil]
    exact h
  | rotate =>
    simp only [abortedBy, issued, moved, List.append_nil]
    exact h
  | flushWorker =>
    simp only [abortedBy, issued, moved, List.append_nil]
    exact h
  | lookup key =>
    simp only [abortedBy, issued, moved, List.append_nil]
    exact h
  | evict keepHeavy keepBlock =>
    simp only [abortedBy, issued, moved, List.append_nil]
    exact h

/-- A committed and an aborted batch with normal writes between them, with a gap of 3. -/
def distinctRun : List Action :=
  [.insert [1] [1], .startBatch, .batchInsert [1] [9], .insert [2] [2], .commitBatchAsync, .sync true,
    .commitBatchFinalize, .insert [3] [3], .startBatch, .batchDelete [1], .abortBatch, .insert [4] [4]]

/-- A batch is aborted, and the next normal write is given its timestamp. -/
def reusingRun : List Action := [.startBatch, .batchInsert [1] [9], .abortBatch, .insert [2] [2]]

end Kvdb.Timestamps
