import Kvdb.MemTable.Nodes
import Mathlib.Data.List.Nodup
import Mathlib.Logic.Relation

/-! # Retired nodes of a memtable (`RetireNode`, `RetireLeaf`, `DrainRetired`)

A node that an insertion has replaced is queued with a fence: `global_ts_` at that time when the tree has a fence
source, else a count of its own. `DrainRetired` returns to the pool, or frees, the queued nodes whose fence is below
the minimum it is given. A reader that stands at an old node still follows the pointers that the node had when it was
replaced, so what such a reader can reach is a matter of the memory and not of the tree. -/
namespace Kvdb.Retire
set_option autoImplicit false

open Kvdb.Nodes

def retiredDrainBufSize : ℕ := 64
def maxBTreeDepth : ℕ := 4
def retiredDrainThreshold : ℕ := retiredDrainBufSize - maxBTreeDepth
def leafPoolSize : ℕ := 64

structure PendingRetire where
  addr : ℕ
  isInternal : Bool
  fenceTs : ℕ

/-- A `BPlusTree` in memory. `old` is the contents of the nodes that are no longer in the tree, and `left` the clock
when a node left it. -/
structure Table where
  root : Node
  alloc : Alloc
  fenced : Bool
  retireSeq : ℕ
  pending : List PendingRetire
  freed : List ℕ
  old : ℕ → Option Pointers
  left : ℕ → ℕ

namespace Table

/-- The constructor: an empty leaf below the root. -/
def new (fenced : Bool) : Table :=
  ⟨.internal 1 [] [.leaf 0 ⟨[]⟩], ⟨[], 2⟩, fenced, 1, [], [], fun _ => none, fun _ => 0⟩

def linked (t : Table) : List ℕ := t.root.addrs

/-- What a reader at the address finds. -/
def pointers (t : Table) (x : ℕ) : Option Pointers := if x ∈ t.linked then t.root.pointersAt x else t.old x

/-- `Insert` up to the new pointer, with the pages that it retires then. -/
def insert (t : Table) (clock : ℕ) (e : KeyValuePair) : Option (Table × List Retired) :=
  (insertNode e t.alloc t.root).map fun r =>
    ({ t with
        root := (newRoot r).1
        alloc := (newRoot r).2.1
        old := t.pointers
        left := fun x => if x ∈ t.linked ∧ x ∉ (newRoot r).1.addrs then clock else t.left x }, r.retired)

/-- `RetireNode` and `RetireLeaf`. -/
def retire (t : Table) (clock : ℕ) (x : Retired) : Table :=
  let seq := if t.fenced then t.retireSeq else t.retireSeq + 1
  { t with
    retireSeq := seq
    pending := t.pending ++ [⟨x.addr, x.isInternal, if t.fenced then clock else seq⟩] }

/-- The entries that a drain takes out of the queue. -/
def drained (t : Table) (minTs : ℕ) : List PendingRetire := t.pending.filter fun p => decide (p.fenceTs < minTs)

def drainedLeaves (t : Table) (minTs : ℕ) : List ℕ :=
  ((t.drained minTs).filter fun p => !p.isInternal).map PendingRetire.addr

def drainedNodes (t : Table) (minTs : ℕ) : List ℕ :=
  ((t.drained minTs).filter fun p => p.isInternal).map PendingRetire.addr

/-- `leaf_pool_` before the loop that shortens it. -/
def filledPool (t : Table) (minTs : ℕ) : List ℕ :=
  ((t.drainedLeaves minTs).take retiredDrainBufSize).reverse ++ t.alloc.pool

def drainRetiredWithFence (t : Table) (minTs : ℕ) : Table :=
  { t with
    pending := t.pending.filter fun p => !decide (p.fenceTs < minTs)
    alloc := { t.alloc with pool := (t.filledPool minTs).drop ((t.filledPool minTs).length - leafPoolSize) }
    freed := t.drainedNodes minTs ++ (t.drainedLeaves minTs).drop retiredDrainBufSize ++
      (t.filledPool minTs).take ((t.filledPool minTs).length - leafPoolSize) ++ t.freed }

def drainRetired (t : Table) (minTs : ℕ) : Table :=
  if t.pending.length < retiredDrainThreshold then t else t.drainRetiredWithFence minTs

/-! ## The tree and the queue -/

/-- The addresses of the tree, of the queue, of what has been freed and of the pool. `todo` are the pages of the
current insertion that have not been queued yet. -/
def owned (t : Table) (todo : List Retired) : List ℕ :=
  t.linked ++ (todo.map Retired.addr ++ (t.pending.map PendingRetire.addr ++ (t.freed ++ t.alloc.pool)))

structure Sound (t : Table) (clock : ℕ) (todo : List Retired) : Prop where
  nodup : (t.owned todo).Nodup
  below : ∀ x ∈ t.owned todo, x < t.alloc.next
  left_le : ∀ x, t.left x ≤ clock
  fence : t.fenced = true → ∀ p ∈ t.pending, t.left p.addr ≤ p.fenceTs

theorem sound_new (fenced : Bool) (clock : ℕ) : (new fenced).Sound clock [] where
  nodup := show [1, 0].Nodup by decide
  below := show ∀ x ∈ [1, 0], x < 2 by decide
  left_le := fun _ => Nat.zero_le _
  fence := fun _ _ hp => by cases hp

theorem Sound.mono {t : Table} {clock clock' : ℕ} {todo : List Retired} (h : t.Sound clock todo)
    (hle : clock ≤ clock') : t.Sound clock' todo :=
  { h with left_le := fun x => Nat.le_trans (h.left_le x) hle }

theorem Sound.linked_free {t : Table} {clock : ℕ} {todo : List Retired} (h : t.Sound clock todo) {x : ℕ}
    (hx : x ∈ t.linked) : x < t.alloc.next ∧ x ∉ t.alloc.pool ∧ x ∉ t.freed := by
  have hdisj := (List.nodup_append.mp h.nodup).2.2 x hx
  refine ⟨h.below x (List.mem_append_left _ hx), ?_, ?_⟩
  · intro hmem
    exact hdisj x (by simp [hmem]) rfl
  · intro hmem
    exact hdisj x (by simp [hmem]) rfl

theorem Sound.linked_pending {t : Table} {clock : ℕ} {todo : List Retired} (h : t.Sound clock todo)
    {p : PendingRetire} (hp : p ∈ t.pending) : p.addr ∉ t.linked := by
  intro hx
  have hmem : p.addr ∈ t.pending.map PendingRetire.addr := List.mem_map_of_mem hp
  exact (List.nodup_append.mp h.nodup).2.2 _ hx p.addr (by simp [hmem]) rfl

/-- The parts of an insertion into a table. -/
theorem insert_eq_some {t t' : Table} {clock : ℕ} {e : KeyValuePair} {retired : List Retired}
    (h : t.insert clock e = some (t', retired)) :
    ∃ r, insertNode e t.alloc t.root = some r ∧ retired = r.retired ∧
      t' = { t with
        root := (newRoot r).1
        alloc := (newRoot r).2.1
        old := t.pointers
        left := fun x => if x ∈ t.linked ∧ x ∉ (newRoot r).1.addrs then clock else t.left x } := by
  obtain ⟨r, hr, heq⟩ := Option.map_eq_some_iff.mp h
  cases heq
  exact ⟨r, hr, rfl, rfl⟩

/-- The addresses of the table after an insertion were its own before, or have been allocated. -/
theorem owned_insert {t t' : Table} {clock : ℕ} {e : KeyValuePair} {retired : List Retired}
    (hnodup : (t.owned []).Nodup) (hbelow : ∀ x ∈ t.owned [], x < t.alloc.next)
    (hins : t.insert clock e = some (t', retired)) :
    (t'.owned retired).Nodup ∧ ∀ x ∈ t'.owned retired, x < t'.alloc.next := by
  obtain ⟨r, hr, rfl, rfl⟩ := insert_eq_some hins
  obtain ⟨k, hnext, hperm⟩ := newRoot_takes (insertNode_takes hr)
  have hbefore : (t.owned [] ++ List.range' t.alloc.next k).Nodup := by
    apply List.nodup_append.mpr
    constructor
    · exact hnodup
    constructor
    · exact List.nodup_range'
    · intro x hx y hy heq
      subst heq
      have hlt := hbelow x hx
      have hge := List.left_le_of_mem_range' hy
      omega
  have hafter : ∀ x, (owned { t with
      root := (newRoot r).1
      alloc := (newRoot r).2.1
      old := t.pointers
      left := fun x => if x ∈ t.linked ∧ x ∉ (newRoot r).1.addrs then clock else t.left x } r.retired).count x ≤
        (t.owned [] ++ List.range' t.alloc.next k).count x := by
    intro x
    have hcount := newRoot_balanced (insertNode_balanced hr) x
    have htaken := hperm.count_eq x
    simp only [List.count_append] at htaken
    simp only [owned, linked, List.count_append, List.map_nil, List.count_nil]
    omega
  constructor
  · exact List.nodup_iff_count_le_one.mpr fun x =>
      Nat.le_trans (hafter x) (List.nodup_iff_count_le_one.mp hbefore x)
  · intro x hx
    have hmem := List.count_pos_iff.mp (Nat.lt_of_lt_of_le (List.count_pos_iff.mpr hx) (hafter x))
    simp only [hnext]
    rcases List.mem_append.mp hmem with hold | hnew
    · have hlt := hbelow x hold
      omega
    · have hlt := List.mem_range'_1.mp hnew
      omega

theorem Sound.insert {t t' : Table} {clock : ℕ} {e : KeyValuePair} {retired : List Retired}
    (h : t.Sound clock []) (hins : t.insert clock e = some (t', retired)) : t'.Sound clock retired := by
  obtain ⟨hnodup, hbelow⟩ := owned_insert h.nodup h.below hins
  obtain ⟨r, hr, rfl, rfl⟩ := insert_eq_some hins
  refine ⟨hnodup, hbelow, ?_, ?_⟩
  · intro x
    simp only []
    split
    · exact Nat.le_refl _
    · exact h.left_le x
  · intro hfenced p hp
    simp only []
    rw [if_neg fun hin => h.linked_pending hp hin.1]
    exact h.fence hfenced p hp

theorem owned_retire (t : Table) (clock : ℕ) (x : Retired) (todo : List Retired) :
    ((t.retire clock x).owned todo).Perm (t.owned (x :: todo)) := by
  have hpending : (t.retire clock x).pending.map PendingRetire.addr = t.pending.map PendingRetire.addr ++ [x.addr] :=
    List.map_append
  have hlinked : (t.retire clock x).linked = t.linked := rfl
  have hfreed : (t.retire clock x).freed = t.freed := rfl
  have halloc : (t.retire clock x).alloc = t.alloc := rfl
  apply List.perm_iff_count.mpr
  intro y
  simp only [owned, hpending, hlinked, hfreed, halloc, List.map_cons, List.count_append, List.count_cons,
    List.count_nil]
  omega

theorem Sound.retire {t : Table} {clock : ℕ} {x : Retired} {todo : List Retired} (h : t.Sound clock (x :: todo)) :
    (t.retire clock x).Sound clock todo where
  nodup := (owned_retire t clock x todo).nodup_iff.mpr h.nodup
  below := fun y hy => h.below y ((owned_retire t clock x todo).mem_iff.mp hy)
  left_le := h.left_le
  fence := by
    intro hfenced p hp
    rcases List.mem_append.mp hp with hold | hnew
    · exact h.fence hfenced p hold
    · rw [List.mem_singleton] at hnew
      subst hnew
      have hf : t.fenced = true := hfenced
      simp only [hf, if_true]
      exact h.left_le _

theorem count_drained (t : Table) (minTs x : ℕ) :
    ((t.drained minTs).map PendingRetire.addr).count x =
      (t.drainedLeaves minTs).count x + (t.drainedNodes minTs).count x := by
  unfold drainedLeaves drainedNodes
  induction t.drained minTs with
  | nil => rfl
  | cons p ps ih =>
    cases hp : p.isInternal with
    | false => simp [hp, List.count_cons, ih]; omega
    | true => simp [hp, List.count_cons, ih]; omega

theorem count_pending (t : Table) (minTs x : ℕ) :
    (t.pending.map PendingRetire.addr).count x =
      ((t.drained minTs).map PendingRetire.addr).count x +
        ((t.drainRetiredWithFence minTs).pending.map PendingRetire.addr).count x := by
  unfold drained drainRetiredWithFence
  induction t.pending with
  | nil => rfl
  | cons p ps ih =>
    by_cases hp : p.fenceTs < minTs
    · simp [hp, List.count_cons, ih]; omega
    · simp [hp, List.count_cons, ih]; omega

theorem count_take_drop_addr (xs : List ℕ) (k x : ℕ) : (xs.take k).count x + (xs.drop k).count x = xs.count x := by
  rw [← List.count_append, List.take_append_drop]

/-- A drain only moves addresses from the queue to the pool or to what has been freed. -/
theorem owned_drain (t : Table) (minTs : ℕ) : ((t.drainRetiredWithFence minTs).owned []).Perm (t.owned []) := by
  apply List.perm_iff_count.mpr
  intro x
  have hpending := count_pending t minTs x
  have hdrained := count_drained t minTs x
  have hleaves := count_take_drop_addr (t.drainedLeaves minTs) retiredDrainBufSize x
  have hpool := count_take_drop_addr (t.filledPool minTs) ((t.filledPool minTs).length - leafPoolSize) x
  have hfilled : (t.filledPool minTs).count x =
      ((t.drainedLeaves minTs).take retiredDrainBufSize).count x + t.alloc.pool.count x := by
    unfold filledPool
    rw [List.count_append, List.count_reverse]
  have hlinked : (t.drainRetiredWithFence minTs).linked = t.linked := rfl
  have hnewpool : (t.drainRetiredWithFence minTs).alloc.pool =
      (t.filledPool minTs).drop ((t.filledPool minTs).length - leafPoolSize) := rfl
  have hfreed : (t.drainRetiredWithFence minTs).freed =
      t.drainedNodes minTs ++ (t.drainedLeaves minTs).drop retiredDrainBufSize ++
        (t.filledPool minTs).take ((t.filledPool minTs).length - leafPoolSize) ++ t.freed := rfl
  simp only [owned, hlinked, hnewpool, hfreed, List.count_append, List.map_nil, List.count_nil]
  omega

theorem Sound.drain {t : Table} {clock : ℕ} (h : t.Sound clock []) (minTs : ℕ) :
    (t.drainRetiredWithFence minTs).Sound clock [] where
  nodup := (owned_drain t minTs).nodup_iff.mpr h.nodup
  below := fun y hy => h.below y ((owned_drain t minTs).mem_iff.mp hy)
  left_le := h.left_le
  fence := fun hfenced p hp => h.fence hfenced p (List.mem_of_mem_filter hp)

/-- What is in the pool or freed after a drain was there before or has been taken out of the queue. -/
theorem drained_of_released {t : Table} {minTs x : ℕ}
    (h : x ∈ (t.drainRetiredWithFence minTs).alloc.pool ∨ x ∈ (t.drainRetiredWithFence minTs).freed) :
    (∃ p ∈ t.pending, p.fenceTs < minTs ∧ p.addr = x) ∨ x ∈ t.alloc.pool ∨ x ∈ t.freed := by
  have hleaf : ∀ y ∈ t.drainedLeaves minTs, ∃ p ∈ t.pending, p.fenceTs < minTs ∧ p.addr = y := by
    intro y hy
    obtain ⟨p, hp, rfl⟩ := List.mem_map.mp hy
    obtain ⟨hpend, hlt⟩ := List.mem_filter.mp (List.mem_filter.mp hp).1
    exact ⟨p, hpend, of_decide_eq_true hlt, rfl⟩
  have hpool : ∀ y ∈ t.filledPool minTs, (∃ p ∈ t.pending, p.fenceTs < minTs ∧ p.addr = y) ∨ y ∈ t.alloc.pool := by
    intro y hy
    rcases List.mem_append.mp hy with hnew | hold
    · exact Or.inl (hleaf y (List.mem_of_mem_take (List.mem_reverse.mp hnew)))
    · exact Or.inr hold
  rcases h with hmem | hmem
  · rcases hpool x (List.mem_of_mem_drop hmem) with hout | hold
    · exact Or.inl hout
    · exact Or.inr (Or.inl hold)
  · rcases List.mem_append.mp hmem with hnew | hold
    · rcases List.mem_append.mp hnew with hnew | htrim
      · rcases List.mem_append.mp hnew with hnode | hover
        · obtain ⟨p, hp, rfl⟩ := List.mem_map.mp hnode
          obtain ⟨hpend, hlt⟩ := List.mem_filter.mp (List.mem_filter.mp hp).1
          exact Or.inl ⟨p, hpend, of_decide_eq_true hlt, rfl⟩
        · exact Or.inl (hleaf x (List.mem_of_mem_drop hover))
      · rcases hpool x (List.mem_of_mem_take htrim) with hout | hold
        · exact Or.inl hout
        · exact Or.inr (Or.inl hold)
    · exact Or.inr (Or.inr hold)

/-! ## What a reader can reach -/

def Points (t : Table) (x y : ℕ) : Prop := ∃ p, t.pointers x = some p ∧ y ∈ p.children

/-- The nodes that a reader at `x` can come to. -/
def Reaches (t : Table) : ℕ → ℕ → Prop := Relation.ReflTransGen t.Points

/-- The node is neither pooled nor freed, and it is in the tree or left it after the reader had its timestamp. -/
structure Safe (t : Table) (readTs x : ℕ) : Prop where
  below : x < t.alloc.next
  pool : x ∉ t.alloc.pool
  freed : x ∉ t.freed
  recent : x ∈ t.linked ∨ readTs ≤ t.left x

def Guards (t : Table) (readTs x : ℕ) : Prop := ∀ y, t.Reaches x y → t.Safe readTs y

theorem Guards.safe {t : Table} {readTs x : ℕ} (h : t.Guards readTs x) : t.Safe readTs x :=
  h x Relation.ReflTransGen.refl

theorem Guards.follow {t : Table} {readTs x y : ℕ} (h : t.Guards readTs x) (hpoints : t.Points x y) :
    t.Guards readTs y :=
  fun z hz => h z (Relation.ReflTransGen.head hpoints hz)

theorem linked_of_points {t : Table} {x y : ℕ} (hx : x ∈ t.linked) (h : t.Points x y) : y ∈ t.linked := by
  obtain ⟨p, hp, hy⟩ := h
  rw [pointers, if_pos hx] at hp
  exact Node.pointersAt_children hp y hy

theorem linked_of_reaches {t : Table} {x y : ℕ} (hx : x ∈ t.linked) (h : t.Reaches x y) : y ∈ t.linked := by
  induction h with
  | refl => exact hx
  | tail _ hpoints ih => exact linked_of_points ih hpoints

theorem Sound.guards_linked {t : Table} {clock readTs x : ℕ} {todo : List Retired} (h : t.Sound clock todo)
    (hx : x ∈ t.linked) : t.Guards readTs x := by
  intro y hy
  have hlinked := linked_of_reaches hx hy
  obtain ⟨hbelow, hpool, hfreed⟩ := h.linked_free hlinked
  exact ⟨hbelow, hpool, hfreed, Or.inl hlinked⟩

theorem root_linked (t : Table) : t.root.addr ∈ t.linked := t.root.addr_mem_addrs

/-- A node that is no longer in the tree keeps its pointers. -/
theorem pointers_insert {t t' : Table} {clock x : ℕ} {e : KeyValuePair} {retired : List Retired}
    (h : t.insert clock e = some (t', retired)) (hx : x ∉ t'.linked) : t'.pointers x = t.pointers x := by
  obtain ⟨r, -, -, rfl⟩ := insert_eq_some h
  exact if_neg hx

/-- After an insertion a reader comes to nodes of the tree, or to nodes that it could come to before. -/
theorem reaches_insert {t t' : Table} {clock x y : ℕ} {e : KeyValuePair} {retired : List Retired}
    (h : t.insert clock e = some (t', retired)) (hreach : t'.Reaches x y) : y ∈ t'.linked ∨ t.Reaches x y := by
  induction hreach with
  | refl => exact Or.inr Relation.ReflTransGen.refl
  | @tail y z _ hpoints ih =>
    by_cases hlinked : y ∈ t'.linked
    · exact Or.inl (linked_of_points hlinked hpoints)
    · obtain ⟨p, hp, hz⟩ := hpoints
      rw [pointers_insert h hlinked] at hp
      rcases ih with hin | hbefore
      · exact absurd hin hlinked
      · exact Or.inr (hbefore.tail ⟨p, hp, hz⟩)

theorem Safe.insert {t t' : Table} {clock readTs y : ℕ} {e : KeyValuePair} {retired : List Retired}
    (h : t.Safe readTs y) (hins : t.insert clock e = some (t', retired)) (hle : readTs ≤ clock)
    (hy : y ∉ t'.linked) : t'.Safe readTs y := by
  obtain ⟨r, hr, rfl, rfl⟩ := insert_eq_some hins
  obtain ⟨k, hnext, hperm⟩ := newRoot_takes (insertNode_takes hr)
  have hbelow := h.below
  constructor
  · simp only [hnext]
    omega
  · intro hmem
    rcases List.mem_append.mp (hperm.mem_iff.mp (List.mem_append_right _ hmem)) with hold | hnew
    · exact h.pool hold
    · have hge := List.left_le_of_mem_range' hnew
      omega
  · exact h.freed
  · right
    simp only []
    split
    · exact hle
    · next hnot =>
      rcases h.recent with hin | hleft
      · exact absurd ⟨hin, hy⟩ hnot
      · exact hleft

theorem Guards.insert {t t' : Table} {clock readTs x : ℕ} {e : KeyValuePair} {retired : List Retired}
    (h : t.Guards readTs x) (hsound : t.Sound clock []) (hins : t.insert clock e = some (t', retired))
    (hle : readTs ≤ clock) : t'.Guards readTs x := by
  intro y hy
  by_cases hlinked : y ∈ t'.linked
  · exact ((hsound.insert hins).guards_linked hlinked).safe
  · rcases reaches_insert hins hy with hin | hbefore
    · exact absurd hin hlinked
    · exact (h y hbefore).insert hins hle hlinked

theorem Guards.retire {t : Table} {clock readTs x : ℕ} (h : t.Guards readTs x) (r : Retired) :
    (t.retire clock r).Guards readTs x := by
  intro y hy
  obtain ⟨hbelow, hpool, hfreed, hrecent⟩ := h y hy
  exact ⟨hbelow, hpool, hfreed, hrecent⟩

/-- No entry that the drain takes out can be reached from the node. -/
def Spares (t : Table) (minTs x : ℕ) : Prop := ∀ p ∈ t.pending, p.fenceTs < minTs → ¬ t.Reaches x p.addr

theorem Guards.drain {t : Table} {readTs minTs x : ℕ} (h : t.Guards readTs x) (hspares : t.Spares minTs x) :
    (t.drainRetiredWithFence minTs).Guards readTs x := by
  intro y hy
  have hsafe := h y hy
  have hkept : ¬ (y ∈ (t.drainRetiredWithFence minTs).alloc.pool ∨ y ∈ (t.drainRetiredWithFence minTs).freed) := by
    intro hmem
    rcases drained_of_released hmem with ⟨p, hp, hlt, rfl⟩ | hpool | hfreed
    · exact hspares p hp hlt hy
    · exact hsafe.pool hpool
    · exact hsafe.freed hfreed
  exact ⟨hsafe.below, fun hmem => hkept (Or.inl hmem), fun hmem => hkept (Or.inr hmem), hsafe.recent⟩

/-- In a tree with a fence source a drain up to the timestamp of a reader spares all that the reader can reach. -/
theorem Guards.spares {t : Table} {clock readTs minTs x : ℕ} {todo : List Retired} (h : t.Guards readTs x)
    (hsound : t.Sound clock todo) (hfenced : t.fenced = true) (hle : minTs ≤ readTs) : t.Spares minTs x := by
  intro p hp hlt hreach
  have hfence := hsound.fence hfenced p hp
  rcases (h _ hreach).recent with hin | hleft
  · exact hsound.linked_pending hp hin
  · omega

theorem Sound.spares_linked {t : Table} {clock minTs x : ℕ} {todo : List Retired} (h : t.Sound clock todo)
    (hx : x ∈ t.linked) : t.Spares minTs x :=
  fun _ hp _ hreach => h.linked_pending hp (linked_of_reaches hx hreach)

end Table

end Kvdb.Retire
