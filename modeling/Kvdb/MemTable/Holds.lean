import Kvdb.MemTable.Ascent
import Kvdb.Lib.Segment
import Mathlib.Data.List.Perm.Subperm

/-! # What an insertion keeps

`Holds h root todo`: the memory holds the tree `root`, all its leaves are at one depth, no address is used twice, and
the leaf chain from `first_leaf_` visits the leaves of the tree from left to right. `Found` is the path to the leaf of
a key, and `Found.relinked` the chain once `FindPredecessor` has led it to the new leaves. -/
namespace Kvdb.Heap
set_option autoImplicit false

open Nodes
open Retire (PendingRetire Table)

/-- The pointer of a leaf to the next one. -/
def next (h : Heap) (a : ℕ) : Option ℕ := (h.leaves a).next

/-! ## Addresses -/

/-- No address of the tree, the queue and the pool is used twice, and all have been allocated. -/
structure Owns (h : Heap) (root : Node) (todo : List Retired) : Prop where
  nodup : ((h.books root).owned todo).Nodup
  below : ∀ x ∈ (h.books root).owned todo, x < h.alloc.next

theorem Owns.insert {h h' : Heap} {root : Node} {e : KeyValuePair} {r : Insertion} (howns : h.Owns root [])
    (hr : insertNode e h.alloc root = some r) (halloc : h'.alloc = (Nodes.newRoot r).2.1) (hpending : h'.pending = h.pending)
    (hfreed : h'.freed = h.freed) : h'.Owns (Nodes.newRoot r).1 r.retired := by
  have hins : (h.books root).insert 0 e = some ({ h.books root with
      root := (Nodes.newRoot r).1
      alloc := (Nodes.newRoot r).2.1
      old := (h.books root).pointers
      left := fun x => if x ∈ (h.books root).linked ∧ x ∉ (Nodes.newRoot r).1.addrs then 0 else (h.books root).left x },
      r.retired) := by
    unfold Table.insert
    have hsome : insertNode e (h.books root).alloc (h.books root).root = some r := hr
    rw [hsome]
    rfl
  obtain ⟨hnodup, hbelow⟩ := Table.owned_insert howns.nodup howns.below hins
  have heq : (h'.books (Nodes.newRoot r).1).owned r.retired = Table.owned { h.books root with
      root := (Nodes.newRoot r).1
      alloc := (Nodes.newRoot r).2.1
      old := (h.books root).pointers
      left := fun x => if x ∈ (h.books root).linked ∧ x ∉ (Nodes.newRoot r).1.addrs then 0 else (h.books root).left x }
      r.retired := by
    simp only [Table.owned, Table.linked, books, hpending, hfreed, halloc]
  constructor
  · rw [heq]
    exact hnodup
  · rw [heq, halloc]
    exact hbelow

theorem Owns.retire {h : Heap} {root : Node} {x : Retired} {todo : List Retired} (howns : h.Owns root (x :: todo))
    (clock : ℕ) : (h.retire clock x).Owns root todo where
  nodup := (Table.owned_retire (h.books root) clock x todo).nodup_iff.mpr howns.nodup
  below := fun y hy => howns.below y ((Table.owned_retire (h.books root) clock x todo).mem_iff.mp hy)

theorem books_drainRetired (h : Heap) (root : Node) (minTs : ℕ) :
    (h.drainRetired minTs).books root = (h.books root).drainRetired minTs := by
  unfold drainRetired Table.drainRetired
  show (h.withBooks (if h.pending.length < _ then _ else _)).books root =
    if h.pending.length < _ then _ else _
  split
  · rfl
  · rfl

theorem Owns.drain {h : Heap} {root : Node} (howns : h.Owns root []) (minTs : ℕ) :
    (h.drainRetired minTs).Owns root [] := by
  have hperm : (((h.books root).drainRetired minTs).owned []).Perm ((h.books root).owned []) := by
    unfold Table.drainRetired
    split
    · exact List.Perm.refl _
    · exact Table.owned_drain (h.books root) minTs
  have hnext : (h.drainRetired minTs).alloc.next = h.alloc.next := by
    unfold drainRetired Table.drainRetired
    split
    · rfl
    · rfl
  constructor
  · rw [books_drainRetired]
    exact hperm.nodup_iff.mpr howns.nodup
  · intro x hx
    rw [books_drainRetired] at hx
    rw [hnext]
    exact howns.below x (hperm.mem_iff.mp hx)

theorem Owns.root_nodup {h : Heap} {root : Node} {todo : List Retired} (howns : h.Owns root todo) : root.addrs.Nodup :=
  (List.nodup_append.mp howns.nodup).1

theorem Owns.root_below {h : Heap} {root : Node} {todo : List Retired} (howns : h.Owns root todo) :
    ∀ x ∈ root.addrs, x < h.alloc.next :=
  fun x hx => howns.below x (List.mem_append_left _ hx)

/-- What an insertion allocates is new. -/
theorem Owns.taken {h : Heap} {root : Node} (howns : h.Owns root []) {taken : List ℕ} {al : Alloc}
    (htakes : h.alloc.Takes taken al) : taken.Nodup ∧ ∀ x ∈ taken, x ∉ root.addrs ∧ x < al.next := by
  obtain ⟨k, hnext, hperm⟩ := htakes
  have hpool : ∀ x ∈ h.alloc.pool, x ∈ (h.books root).owned [] := by
    intro x hx
    simp only [Table.owned, List.mem_append]
    exact Or.inr (Or.inr (Or.inr (Or.inr hx)))
  have hpoolNodup : h.alloc.pool.Nodup := by
    refine howns.nodup.sublist ?_
    simp only [Table.owned, List.map_nil, List.nil_append]
    exact ((List.sublist_append_right _ _).trans (List.sublist_append_right _ _)).trans (List.sublist_append_right _ _)
  have hall : (taken ++ al.pool).Nodup := by
    refine hperm.nodup_iff.mpr (List.nodup_append.mpr ⟨hpoolNodup, List.nodup_range', ?_⟩)
    intro x hx y hy heq
    subst heq
    have hlt := howns.below x (hpool x hx)
    have hge := List.left_le_of_mem_range' hy
    omega
  refine ⟨(List.nodup_append.mp hall).1, ?_⟩
  intro x hx
  rcases List.mem_append.mp (hperm.mem_iff.mp (List.mem_append_left _ hx)) with hold | hnew
  · constructor
    · intro hmem
      refine (List.nodup_append.mp howns.nodup).2.2 x hmem x ?_ rfl
      simp [books, hold]
    · have hlt := howns.below x (hpool x hold)
      omega
  · have hrange := List.mem_range'_1.mp hnew
    constructor
    · intro hmem
      have hlt := howns.root_below x hmem
      omega
    · omega

/-! ## The invariant -/

structure Holds (h : Heap) (root : Node) (todo : List Retired) : Prop where
  addr : h.root = root.addr
  rep : Rep h root
  shape : ∃ d, Uniform (d + 1) root
  owns : h.Owns root todo
  linked : Segment h.next (some h.firstLeaf) ((root.chain []).map Page.addr) none

theorem Holds.retire {h : Heap} {root : Node} {x : Retired} {todo : List Retired} (hh : h.Holds root (x :: todo))
    (clock : ℕ) : (h.retire clock x).Holds root todo where
  addr := hh.addr
  rep := hh.rep.frame fun _ _ => ⟨rfl, rfl⟩
  shape := hh.shape
  owns := hh.owns.retire clock
  linked := hh.linked

theorem Holds.drain {h : Heap} {root : Node} (hh : h.Holds root []) (minTs : ℕ) :
    (h.drainRetired minTs).Holds root [] where
  addr := hh.addr
  rep := hh.rep.frame fun _ _ => ⟨rfl, rfl⟩
  shape := hh.shape
  owns := hh.owns.drain minTs
  linked := hh.linked

theorem new_holds (fenced : Bool) : (new fenced).Holds (.internal 1 [] [.leaf 0 ⟨[]⟩]) [] where
  addr := rfl
  rep := by
    refine Rep.internal _ _ _ rfl ?_
    intro c hc
    rw [List.mem_singleton.mp hc]
    exact Rep.leaf 0 _ rfl
  shape := by
    refine ⟨0, rfl, by simp [internalFanout], ?_⟩
    intro c hc
    rw [List.mem_singleton.mp hc]
    exact trivial
  owns := ⟨by simp [Table.owned, Table.linked, books, new, Node.addrs, addrsAll],
    by simp [Table.owned, Table.linked, books, new, Node.addrs, addrsAll]⟩
  linked := ⟨rfl, rfl⟩

/-! ## The leaf chain -/

/-- The pointer in front of a replaced leaf is led to the new leaves. -/
theorem relink_linked {h h' : Heap} {as bs ys : List ℕ} {a y : ℕ}
    (hlinked : Segment h.next (some h.firstLeaf) (as ++ a :: bs) none) (hfirst : h'.firstLeaf = h.firstLeaf)
    (hsame : ∀ x ∈ as ++ bs, h'.next x = h.next x) (hys : Segment h'.next (some y) (y :: ys) (h.next a))
    (hnodup : (as ++ (y :: ys) ++ bs).Nodup) :
    Segment (h'.relink as.getLast? y).next (some (h'.relink as.getLast? y).firstLeaf) (as ++ (y :: ys) ++ bs) none := by
  rcases List.eq_nil_or_concat as with rfl | ⟨as, p, rfl⟩
  · exact hlinked.splice (fun _ => rfl) hys fun x hx => hsame x (by simpa using hx)
  · rw [List.concat_eq_append] at hlinked hsame hnodup ⊢
    have hrelink : h'.relink (as ++ [p]).getLast? y = h'.setLeaf p { h'.leaves p with next := some y } := by
      rw [List.getLast?_append]
      rfl
    rw [hrelink]
    have hother : ∀ x ≠ p, (h'.setLeaf p { h'.leaves p with next := some y }).next x = h'.next x := by
      intro x hx
      simp only [next, setLeaf, if_neg hx]
    have hlast : (h'.setLeaf p { h'.leaves p with next := some y }).next p = some y := by
      simp only [next, setLeaf, if_true]
    have hdistinct : ∀ x, x ∈ as ∨ x ∈ y :: ys ∨ x ∈ bs → x ≠ p := by
      intro x hx heq
      subst heq
      have hcount := List.nodup_iff_count_le_one.mp hnodup x
      simp only [List.count_append, List.count_singleton_self] at hcount
      rcases hx with hx | hx | hx <;> (have hpos := List.count_pos_iff.mpr hx; omega)
    refine hlinked.splice (fun hbefore => ?_) (hys.congr fun x hx => hother x (hdistinct x (Or.inr (Or.inl hx))))
      fun x hx => ?_
    · show Segment _ (some h'.firstLeaf) _ _
      rw [hfirst]
      refine hbefore.retarget (fun x hx => ?_) hlast
      rw [hother x (hdistinct x (Or.inl hx)), hsame x (by simp [hx])]
    · rw [hother x (hdistinct x (Or.inr (Or.inr hx))), hsame x (by simp [hx])]

@[simp] theorem relink_nodes (h : Heap) (pred : Option ℕ) (y : ℕ) : (h.relink pred y).nodes = h.nodes := by
  cases pred with
  | none => rfl
  | some p => rfl

@[simp] theorem relink_page (h : Heap) (pred : Option ℕ) (y a : ℕ) :
    ((h.relink pred y).leaves a).page = (h.leaves a).page := by
  cases pred with
  | none => rfl
  | some p =>
    simp only [relink, setLeaf]
    split
    · next heq => rw [heq]
    · rfl

/-- What `relink` leaves as it is. -/
theorem relink_same (h : Heap) (pred : Option ℕ) (y : ℕ) :
    (h.relink pred y).root = h.root ∧ (h.relink pred y).alloc = h.alloc ∧ (h.relink pred y).pending = h.pending ∧
      (h.relink pred y).freed = h.freed := by
  cases pred with
  | none => exact ⟨rfl, rfl, rfl, rfl⟩
  | some p => exact ⟨rfl, rfl, rfl, rfl⟩

/-! ## The leaf of the key -/

/-- The path that `Insert` takes to its leaf. -/
structure Found (h : Heap) (root : Node) (key : Bytes) (path : List Ctx) (a : ℕ) : Prop where
  tree : root = plugAll path (.leaf a (h.leaves a).page)
  follows : Follows key path
  full : ∀ c ∈ path, c.Full
  nonempty : path ≠ []
  find : h.findLeafForWrite key h.alloc.next h.root [] = some (a, pathOf path)

theorem Owns.depth_lt {h : Heap} {root : Node} {todo : List Retired} (howns : h.Owns root todo) {d : ℕ}
    (hshape : Uniform d root) : d < h.alloc.next := by
  have hsub : root.addrs ⊆ List.range h.alloc.next := fun x hx => List.mem_range.mpr (howns.root_below x hx)
  have hlen := (howns.root_nodup.subperm hsub).length_le
  rw [List.length_range] at hlen
  exact Nat.lt_of_lt_of_le hshape.depth_lt hlen

theorem Holds.found {h : Heap} {root : Node} {todo : List Retired} (hh : h.Holds root todo) (key : Bytes) :
    ∃ path a, Found h root key path a := by
  obtain ⟨d, hshape⟩ := hh.shape
  obtain ⟨path, a, page, rfl, hdepth, hfollows, hfull⟩ := exists_path key hshape
  have hne : path ≠ [] := by
    rintro rfl
    cases hdepth
  have hpage : (h.leaves a).page = page := by
    cases Rep.subtree path hh.rep with
    | leaf _ _ hpage => exact hpage
  refine ⟨path, a, by rw [hpage], hfollows, hfull, hne, ?_⟩
  have hlt := hh.owns.depth_lt hshape
  rw [hh.addr, findLeafForWrite_plugAll hh.rep hfollows hne (by omega) [], List.append_nil]

/-- `Insert` in the tree of the path. -/
theorem Found.insertNode {h : Heap} {root : Node} {e : KeyValuePair} {path : List Ctx} {a : ℕ}
    (hf : Found h root e.key path a) : Nodes.insertNode e h.alloc root =
      some (up path (.leaf a (h.leaves a).page) (insertLeaf e h.alloc a (h.leaves a).page)) := by
  rw [hf.tree]
  exact insertNode_plugAll path hf.follows rfl

theorem Found.chain {h : Heap} {root : Node} {key : Bytes} {path : List Ctx} {a : ℕ} (hf : Found h root key path a) :
    root.chain [] = before path [] ++ ⟨sepOf path [], a, (h.leaves a).page⟩ :: after path := by
  rw [hf.tree, chain_plugAll hf.full, Node.chain, List.append_assoc]
  rfl

theorem Found.predecessor {h h' : Heap} {root : Node} {todo : List Retired} {key : Bytes} {path : List Ctx} {a : ℕ}
    (hf : Found h root key path a) (hh : h.Holds root todo) (hrep : Rep h' root)
    (hnext : h.alloc.next ≤ h'.alloc.next) :
    h'.findPredecessor h'.alloc.next (pathOf path) = ((before path []).map Page.addr).getLast? := by
  obtain ⟨d, hshape⟩ := hh.shape
  have hlt := hh.owns.depth_lt hshape
  rw [hf.tree] at hrep hshape
  exact findPredecessor_plugAll hrep hshape hf.full (by omega) []

/-- The tree after `Insert`, when the memory holds it and the new leaves are in the chain. -/
theorem Holds.insert {h h' : Heap} {root : Node} {e : KeyValuePair} {r : Insertion} (hh : h.Holds root [])
    (hr : Nodes.insertNode e h.alloc root = some r) (haddr : h'.root = (Nodes.newRoot r).1.addr)
    (hrep : Rep h' (Nodes.newRoot r).1) (halloc : h'.alloc = (Nodes.newRoot r).2.1) (hpending : h'.pending = h.pending)
    (hfreed : h'.freed = h.freed)
    (hlinked : Segment h'.next (some h'.firstLeaf) (((Nodes.newRoot r).1.chain []).map Page.addr) none) :
    h'.Holds (Nodes.newRoot r).1 r.retired := by
  obtain ⟨d, hshape⟩ := hh.shape
  obtain ⟨d', hle, hshape'⟩ := newRoot_uniform (insertNode_uniform hshape hr)
  refine ⟨haddr, hrep, ⟨d' - 1, ?_⟩, hh.owns.insert hr halloc hpending hfreed, hlinked⟩
  have hd : d' - 1 + 1 = d' := by omega
  rw [hd]
  exact hshape'

/-- The chain after the new leaves have been linked in the place of the old one. -/
theorem Found.relinked {h h' : Heap} {root root' : Node} {todo : List Retired} {key : Bytes} {path : List Ctx} {a y : ℕ}
    (ys : List ℕ) (hf : Found h root key path a) (hh : h.Holds root todo) (hnodup : root'.addrs.Nodup)
    (hchain : (root'.chain []).map Page.addr =
      (before path []).map Page.addr ++ (y :: ys) ++ (after path).map Page.addr)
    (hfirst : h'.firstLeaf = h.firstLeaf) (hsame : ∀ x ∈ root.addrs, h'.next x = h.next x)
    (hys : Segment h'.next (some y) (y :: ys) (h.next a)) :
    Segment (h'.relink ((before path []).map Page.addr).getLast? y).next
      (some (h'.relink ((before path []).map Page.addr).getLast? y).firstLeaf) ((root'.chain []).map Page.addr) none := by
  have hlinked := hh.linked
  have hsub := (chain_sublist root []).subset
  rw [hf.chain, List.map_append, List.map_cons] at hlinked hsub
  have hnodup' := hnodup.sublist (chain_sublist root' [])
  rw [hchain] at hnodup' ⊢
  refine relink_linked hlinked hfirst (fun x hx => hsame x (hsub ?_)) hys hnodup'
  rcases List.mem_append.mp hx with hx | hx
  · exact List.mem_append_left _ hx
  · exact List.mem_append_right _ (List.mem_cons_of_mem _ hx)

end Kvdb.Heap
