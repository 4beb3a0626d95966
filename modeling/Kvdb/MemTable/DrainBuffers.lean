import Kvdb.Lib.Runs
import Kvdb.MemTable.Retire

/-! # The arrays of a drain (`DrainRetiredWithFence`, `leaf_pool_`)

A drain copies the queue into arrays of a fixed size, and then the pages into the pool, whose length is checked only
afterwards. An insertion retires its leaf and at most one internal node, however far its split ascends, and it takes a
page out of the pool before it retires one, so that the pool and the queue together stay below the sizes. -/
namespace Kvdb.Retire
set_option autoImplicit false

open Kvdb.Nodes Kvdb.Runs

/-! ## A drain with the bounds of its arrays -/

/-- `keep_buf`, `erase_buf` and `pool_buf`, and the nodes and the pages that have been freed meanwhile. -/
structure DrainBuffers where
  keep : List PendingRetire
  erase : List ℕ
  pool : List ℕ
  deleted : List ℕ
  released : List ℕ

/-- `buf[n++] = x`, in an array of `size` elements. -/
def pushWithin {α : Type} (size : ℕ) (xs : List α) (x : α) : Option (List α) :=
  if xs.length < size then some (xs ++ [x]) else none

/-- One turn of the loop over `pending_retired_`. -/
def drainEntry (minTs : ℕ) (b : DrainBuffers) (r : PendingRetire) : Option DrainBuffers :=
  if r.fenceTs < minTs then
    if r.isInternal then some { b with deleted := b.deleted ++ [r.addr] }
    else (pushWithin retiredDrainBufSize b.erase r.addr).map fun erase =>
      if b.pool.length < retiredDrainBufSize then { b with
        erase := erase
        pool := b.pool ++ [r.addr] }
      else { b with
        erase := erase
        released := b.released ++ [r.addr] }
  else (pushWithin retiredDrainBufSize b.keep r).map fun keep => { b with keep := keep }

/-- `leaf_pool_[pool_count_++] = pool_buf[i]`, over `pool_buf`. -/
def fillPool : List ℕ → List ℕ → Option (List ℕ)
  | [], pool => some pool
  | x :: xs, pool => if pool.length < leafPoolSize then fillPool xs (x :: pool) else none

namespace Table

/-- `DrainRetiredWithFence`; `none` is an access beyond the end of an array. -/
def drainWithinBuffers (t : Table) (minTs : ℕ) : Option Table := do
  let b ← t.pending.foldlM (drainEntry minTs) ⟨[], [], [], [], []⟩
  let pool ← fillPool b.pool t.alloc.pool
  some { t with
    pending := b.keep
    alloc := { t.alloc with pool := pool.drop (pool.length - leafPoolSize) }
    freed := b.deleted ++ b.released ++ pool.take (pool.length - leafPoolSize) ++ t.freed }

end Table

/-- The leaves among the entries below the minimum, as `Table.drainedLeaves` has them. -/
def leavesBelow (minTs : ℕ) (ps : List PendingRetire) : List ℕ :=
  ((ps.filter fun p => decide (p.fenceTs < minTs)).filter fun p => !p.isInternal).map PendingRetire.addr

def nodesBelow (minTs : ℕ) (ps : List PendingRetire) : List ℕ :=
  ((ps.filter fun p => decide (p.fenceTs < minTs)).filter fun p => p.isInternal).map PendingRetire.addr

/-- While the arrays have room the loop sorts the entries into them. -/
theorem drainEntries_eq (minTs : ℕ) (ps : List PendingRetire) (b : DrainBuffers)
    (hkeep : b.keep.length + ps.length ≤ retiredDrainBufSize) (herase : b.erase.length + ps.length ≤ retiredDrainBufSize)
    (hpool : b.pool.length + ps.length ≤ retiredDrainBufSize) : ps.foldlM (drainEntry minTs) b = some
      ⟨b.keep ++ ps.filter fun p => !decide (p.fenceTs < minTs), b.erase ++ leavesBelow minTs ps,
        b.pool ++ leavesBelow minTs ps, b.deleted ++ nodesBelow minTs ps, b.released⟩ := by
  induction ps generalizing b with
  | nil => simp [leavesBelow, nodesBelow]
  | cons p ps ih =>
    rw [List.length_cons] at hkeep herase hpool
    rw [List.foldlM_cons]
    by_cases hbelow : p.fenceTs < minTs
    · cases hinternal : p.isInternal with
      | true =>
        have hturn : drainEntry minTs b p = some { b with deleted := b.deleted ++ [p.addr] } := by
          rw [drainEntry, if_pos hbelow, if_pos hinternal]
        rw [hturn, Option.bind_eq_bind, Option.bind_some,
          ih _ (by simp only; omega) (by simp only; omega) (by simp only; omega)]
        simp [leavesBelow, nodesBelow, hbelow, hinternal]
      | false =>
        have hturn : drainEntry minTs b p = some { b with
            erase := b.erase ++ [p.addr]
            pool := b.pool ++ [p.addr] } := by
          rw [drainEntry, if_pos hbelow, if_neg (by simp [hinternal]), pushWithin, if_pos (by omega), Option.map_some,
            if_pos (by omega)]
        rw [hturn, Option.bind_eq_bind, Option.bind_some, ih _ (by simp only; omega)
          (by simp only [List.length_append, List.length_singleton]; omega)
          (by simp only [List.length_append, List.length_singleton]; omega)]
        simp [leavesBelow, nodesBelow, hbelow, hinternal]
    · have hturn : drainEntry minTs b p = some { b with keep := b.keep ++ [p] } := by
        rw [drainEntry, if_neg hbelow, pushWithin, if_pos (by omega), Option.map_some]
      rw [hturn, Option.bind_eq_bind, Option.bind_some,
        ih _ (by simp only [List.length_append, List.length_singleton]; omega) (by simp only; omega) (by simp only; omega)]
      simp [leavesBelow, nodesBelow, hbelow]

theorem fillPool_eq {xs pool : List ℕ} (h : xs.length + pool.length ≤ leafPoolSize) :
    fillPool xs pool = some (xs.reverse ++ pool) := by
  induction xs generalizing pool with
  | nil => rfl
  | cons x xs ih =>
    rw [List.length_cons] at h
    rw [fillPool, if_pos (by omega), ih (by rw [List.length_cons]; omega), List.reverse_cons, List.append_assoc]
    rfl

namespace Table

/-- The leaves in the queue. -/
def pendingLeaves (t : Table) : ℕ := t.pending.countP fun p => !p.isInternal

theorem pendingLeaves_le (t : Table) : t.pendingLeaves ≤ t.pending.length := List.countP_le_length

/-- What a drain takes from the leaves of the queue goes into the pool. -/
theorem pendingLeaves_drain (t : Table) (minTs : ℕ) :
    (t.drainRetiredWithFence minTs).pendingLeaves + (t.drainedLeaves minTs).length = t.pendingLeaves := by
  unfold pendingLeaves drainedLeaves drained drainRetiredWithFence
  induction t.pending with
  | nil => rfl
  | cons p ps ih =>
    by_cases hbelow : p.fenceTs < minTs <;> cases hinternal : p.isInternal <;> simp [hbelow, hinternal] at ih ⊢ <;> omega

theorem filledPool_length (t : Table) (minTs : ℕ) : (t.filledPool minTs).length ≤
    (t.drainedLeaves minTs).length + t.alloc.pool.length := by
  rw [filledPool, List.length_append, List.length_reverse, List.length_take]
  omega

/-- A queue and a pool that fit the arrays are drained as if these had no end. -/
theorem drainWithinBuffers_eq {t : Table} {minTs : ℕ} (hpending : t.pending.length ≤ retiredDrainBufSize)
    (hpool : t.pendingLeaves + t.alloc.pool.length ≤ leafPoolSize) :
    t.drainWithinBuffers minTs = some (t.drainRetiredWithFence minTs) := by
  have hleaves : (t.drainedLeaves minTs).length + t.alloc.pool.length ≤ leafPoolSize := by
    have hdrain := t.pendingLeaves_drain minTs
    omega
  have hfew : (t.drainedLeaves minTs).length ≤ retiredDrainBufSize := by
    have hsizes : leafPoolSize = retiredDrainBufSize := rfl
    omega
  have hfill := fillPool_eq hleaves
  have hturns := drainEntries_eq minTs t.pending ⟨[], [], [], [], []⟩
    (by simpa using hpending) (by simpa using hpending) (by simpa using hpending)
  have hfilled : t.filledPool minTs = (t.drainedLeaves minTs).reverse ++ t.alloc.pool := by
    rw [filledPool, List.take_of_length_le hfew]
  rw [drainWithinBuffers, hturns, Option.bind_eq_bind, Option.bind_some]
  show (fillPool (t.drainedLeaves minTs) t.alloc.pool).bind _ = _
  rw [hfill, Option.bind_some, drainRetiredWithFence, hfilled, List.drop_of_length_le hfew, List.append_nil]
  simp only [List.nil_append, List.append_nil]
  rfl

end Table

/-! ## What an insertion retires -/

/-- The leaf is retired, and the internal node that the copy replaces, where the split ends. -/
theorem insertNode_retired {e : KeyValuePair} {al : Alloc} {n : Node} {r : Insertion} (h : insertNode e al n = some r) :
    (r.retired.countP fun x => !x.isInternal) = 1 ∧ r.retired.length ≤ 2 ∧
      ((∃ left sep right, r.grown = .split left sep right) → r.retired.length = 1) := by
  induction n using Node.induct generalizing r with
  | hleaf addr page =>
    simp only [insertNode, Option.some.injEq] at h
    subst h
    unfold insertLeaf
    simp only []
    split
    · exact ⟨rfl, Nat.le_succ 1, fun _ => rfl⟩
    · exact ⟨rfl, Nat.le_succ 1, fun _ => rfl⟩
  | hinternal addr keys children ih =>
    simp only [insertNode, insertChild_eq] at h
    obtain ⟨below, hbelow, rfl⟩ := Option.map_eq_some_iff.mp h
    obtain ⟨c, hc, hchild⟩ := Option.bind_eq_some_iff.mp hbelow
    obtain ⟨hleaf, hlen, hone⟩ := ih c (List.mem_of_getElem? hc) hchild
    unfold replaceChild
    split
    · exact ⟨hleaf, hlen, fun hsplit => by obtain ⟨_, _, _, hgrown⟩ := hsplit; cases hgrown⟩
    · next left sep right hgrown =>
      have hlength := hone ⟨left, sep, right, hgrown⟩
      unfold splitCoW
      simp only []
      split
      · refine ⟨by simpa using hleaf, by simp [hlength], fun hsplit => ?_⟩
        obtain ⟨_, _, _, hgrown⟩ := hsplit
        cases hgrown
      · exact ⟨hleaf, hlen, fun _ => hlength⟩

theorem newLeaf_pool (al : Alloc) : al.newLeaf.2.pool = al.pool.tail := by
  obtain ⟨pool, next⟩ := al
  cases pool <;> rfl

/-- A page has been taken out of the pool, if there was one. -/
theorem insertNode_pool {e : KeyValuePair} {al : Alloc} {n : Node} {r : Insertion} (h : insertNode e al n = some r) :
    r.alloc.pool.length ≤ al.pool.length - 1 := by
  induction n using Node.induct generalizing r with
  | hleaf addr page =>
    simp only [insertNode, Option.some.injEq] at h
    subst h
    unfold insertLeaf
    simp only []
    split
    · simp [newLeaf_pool]
    · simp only [newLeaf_pool, List.length_tail]
      omega
  | hinternal addr keys children ih =>
    simp only [insertNode, insertChild_eq] at h
    obtain ⟨below, hbelow, rfl⟩ := Option.map_eq_some_iff.mp h
    obtain ⟨c, hc, hchild⟩ := Option.bind_eq_some_iff.mp hbelow
    have hpool := ih c (List.mem_of_getElem? hc) hchild
    unfold replaceChild
    split
    · exact hpool
    · unfold splitCoW
      simp only []
      split <;> exact hpool

theorem newRoot_pool (r : Insertion) : (newRoot r).2.1.pool = r.alloc.pool := by
  unfold newRoot
  split <;> rfl

/-! ## The runs of the engine on a memtable -/

/-- Where the thread is that inserts. -/
inductive Stage where
  | idle
  | retiring (todo : List Retired)
  | inserted
  | draining

/-- A memtable and its writer. -/
structure Driven where
  table : Table
  stage : Stage

/-- `clock` is `global_ts_` when a page is retired, and `minActiveTs` a result of `MinActiveTS`. -/
inductive DrivenAction where
  | insert (clock : ℕ) (e : KeyValuePair)
  | retire (clock : ℕ)
  | selfDrain (maxTs : ℕ)
  | drain (minActiveTs : ℕ)

namespace Driven

def new (fenced : Bool) : Driven := ⟨Table.new fenced, .idle⟩

/-- `Insert` of the engine: the insertion into the tree, its own drain when there is no fence source, and then drains until
the queue is short. -/
def step (s : Driven) : DrivenAction → Option Driven
  | .insert clock e =>
    match s.stage with
    | .idle => (s.table.insert clock e).map fun out => ⟨out.1, .retiring out.2⟩
    | _ => none
  | .retire clock =>
    match s.stage with
    | .retiring (x :: todo) => some ⟨s.table.retire clock x, .retiring todo⟩
    | .retiring [] => some { s with stage := .inserted }
    | _ => none
  | .selfDrain maxTs =>
    match s.stage with
    | .inserted => some ⟨if s.table.fenced then s.table else s.table.drainRetired maxTs, .draining⟩
    | _ => none
  | .drain minActiveTs =>
    match s.stage with
    | .draining =>
      let t := s.table.drainRetired minActiveTs
      some ⟨t, if retiredDrainThreshold ≤ t.pending.length then .draining else .idle⟩
    | _ => none

/-- The pages of the current insertion that are not yet in the queue. -/
def todo (s : Driven) : List Retired :=
  match s.stage with
  | .retiring todo => todo
  | _ => []

/-- Between insertions the queue is short; the insertion adds two pages to it, and at most one more leaf than it takes from
the pool. -/
structure Bounded (s : Driven) : Prop where
  pending : s.table.pending.length + s.todo.length ≤ retiredDrainThreshold + 1
  idle : s.stage = .idle → s.table.pending.length < retiredDrainThreshold
  pool : s.table.pendingLeaves + (s.todo.countP fun x => !x.isInternal) + s.table.alloc.pool.length ≤ retiredDrainThreshold

theorem bounded_new (fenced : Bool) : (new fenced).Bounded :=
  ⟨Nat.zero_le _, fun _ => (by decide : 0 < retiredDrainThreshold), Nat.zero_le _⟩

/-- A drain leaves no more in the queue, and no more pages in the queue and the pool together. -/
theorem Bounded.drained {s : Driven} (h : s.Bounded) (hstage : s.todo = []) (minTs : ℕ) :
    (s.table.drainRetired minTs).pending.length ≤ retiredDrainThreshold + 1 ∧
      (s.table.drainRetired minTs).pendingLeaves + (s.table.drainRetired minTs).alloc.pool.length ≤
        retiredDrainThreshold := by
  have hpending := h.pending
  have hpool := h.pool
  rw [hstage, List.length_nil, Nat.add_zero] at hpending
  rw [hstage, List.countP_nil, Nat.add_zero] at hpool
  unfold Table.drainRetired
  split
  · exact ⟨hpending, hpool⟩
  · have hkept : (s.table.drainRetiredWithFence minTs).pending.length ≤ s.table.pending.length := List.length_filter_le ..
    have hleaves := s.table.pendingLeaves_drain minTs
    have hfilled := s.table.filledPool_length minTs
    have htrim : (s.table.drainRetiredWithFence minTs).alloc.pool.length ≤ (s.table.filledPool minTs).length := by
      rw [Table.drainRetiredWithFence, List.length_drop]
      omega
    omega

theorem Bounded.step {s s' : Driven} {a : DrivenAction} (hstep : s.step a = some s') (h : s.Bounded) : s'.Bounded := by
  obtain ⟨t, stage⟩ := s
  cases a with
  | insert clock e =>
    cases stage with
    | idle =>
      obtain ⟨out, hout, rfl⟩ := Option.map_eq_some_iff.mp hstep
      obtain ⟨t', retired⟩ := out
      obtain ⟨r, hr, rfl, rfl⟩ := Table.insert_eq_some hout
      obtain ⟨hleaf, hlen, -⟩ := insertNode_retired hr
      have htaken : (newRoot r).2.1.pool.length ≤ t.alloc.pool.length - 1 := newRoot_pool r ▸ insertNode_pool hr
      have hidle : t.pending.length < retiredDrainThreshold := h.idle rfl
      have hpool : t.pendingLeaves + 0 + t.alloc.pool.length ≤ retiredDrainThreshold := h.pool
      have hle := t.pendingLeaves_le
      refine ⟨?_, nofun, ?_⟩
      · show t.pending.length + r.retired.length ≤ retiredDrainThreshold + 1
        omega
      · show t.pendingLeaves + (r.retired.countP fun x => !x.isInternal) + (newRoot r).2.1.pool.length ≤
          retiredDrainThreshold
        rw [hleaf]
        omega
    | retiring _ | inserted | draining => cases hstep
  | retire clock =>
    cases stage with
    | retiring todo =>
      have hpending := h.pending
      have hpool := h.pool
      cases todo with
      | nil =>
        cases hstep
        exact ⟨hpending, nofun, hpool⟩
      | cons x todo =>
        cases hstep
        refine ⟨?_, nofun, ?_⟩
        · simp only [Driven.todo, Table.retire, List.length_cons, List.length_append, List.length_nil] at hpending ⊢
          omega
        · simp only [Driven.todo, Table.retire, Table.pendingLeaves, List.countP_append, List.countP_cons,
            List.countP_nil] at hpool ⊢
          omega
    | idle | inserted | draining => cases hstep
  | selfDrain maxTs =>
    cases stage with
    | inserted =>
      cases hstep
      split
      · exact ⟨h.pending, nofun, h.pool⟩
      · obtain ⟨hpending, hpool⟩ := h.drained rfl maxTs
        exact ⟨hpending, nofun, hpool⟩
    | idle | retiring _ | draining => cases hstep
  | drain minActiveTs =>
    cases stage with
    | draining =>
      cases hstep
      obtain ⟨hpending, hpool⟩ := h.drained rfl minActiveTs
      have hnone : Driven.todo ⟨t.drainRetired minActiveTs,
          if retiredDrainThreshold ≤ (t.drainRetired minActiveTs).pending.length then .draining else .idle⟩ = [] := by
        by_cases hlong : retiredDrainThreshold ≤ (t.drainRetired minActiveTs).pending.length
        · rw [if_pos hlong]
          rfl
        · rw [if_neg hlong]
          rfl
      refine ⟨by rw [hnone]; exact hpending, fun hstage => ?_, by rw [hnone]; exact hpool⟩
      by_contra hlong
      simp only [] at hstage hlong
      rw [if_pos (Nat.le_of_not_lt hlong)] at hstage
      cases hstage
    | idle | retiring _ | inserted => cases hstep

/-- Wherever a run is when the queue is drained, up to any fence, the queue fits the arrays, no index is beyond the end of
one, and the pool is not longer than its own array, before it is shortened or after. -/
theorem drains_within_buffers {fenced : Bool} {acts : List DrivenAction} {s : Driven}
    (h : Run step anyStep (new fenced) acts s) (minTs : ℕ) : s.table.pending.length ≤ retiredDrainBufSize ∧
      s.table.drainWithinBuffers minTs = some (s.table.drainRetiredWithFence minTs) ∧
      (s.table.filledPool minTs).length ≤ leafPoolSize ∧ s.table.alloc.pool.length ≤ leafPoolSize := by
  have hbounded := h.invariant (I := Bounded) (fun _ _ _ _ hstep hs => hs.step hstep) (bounded_new fenced)
  have hpending := hbounded.pending
  have hpool := hbounded.pool
  have hsizes : retiredDrainThreshold + 4 = retiredDrainBufSize ∧ leafPoolSize = retiredDrainBufSize := ⟨rfl, rfl⟩
  have hleaves := s.table.pendingLeaves_drain minTs
  have hfilled := s.table.filledPool_length minTs
  exact ⟨by omega, Table.drainWithinBuffers_eq (by omega) (by omega), by omega, by omega⟩

/-- An insertion into an empty memtable, and the drain after it. -/
def firstInsertion : List DrivenAction :=
  [.insert 1 ⟨[1], [2], 1, false⟩, .retire 1, .retire 1, .selfDrain 0, .drain 5]

theorem firstInsertion_within_buffers : ∃ s, Run step anyStep (new true) firstInsertion s ∧
    s.table.pending.length ≤ retiredDrainBufSize ∧
      s.table.drainWithinBuffers 5 = some (s.table.drainRetiredWithFence 5) ∧
      (s.table.filledPool 5).length ≤ leafPoolSize ∧ s.table.alloc.pool.length ≤ leafPoolSize :=
  ⟨_, Run.of_isSome _ _ (by decide), drains_within_buffers (Run.of_isSome _ _ (by decide)) 5⟩

end Driven

end Kvdb.Retire
