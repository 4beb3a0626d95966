import Kvdb.MemTable.Heap
import Kvdb.MemTable.Paths
import Mathlib.Data.List.Induction

/-! # The tree in memory

`Rep h n` says that the memory holds the tree `n`: each internal node at its address, with a null pointer in one of its
two arrays for every child, and each leaf page. What `FindLeafForWrite` and `FindPredecessor` find there is read off
the path of the key and the leaves on its left. -/
namespace Kvdb.Heap
set_option autoImplicit false

open Nodes
open Retire (Table)

/-- The pointer of a child in `children`. -/
def nodePtr : Node → Option ℕ
  | .leaf _ _ => none
  | .internal addr _ _ => some addr

/-- The pointer of a child in `child_leaves`. -/
def leafPtr : Node → Option ℕ
  | .leaf addr _ => some addr
  | .internal _ _ _ => none

def storeOf (keys : List Bytes) (children : List Node) : Store :=
  ⟨keys, (keys.map List.length).sum, children.map nodePtr, children.map leafPtr⟩

theorem storeOf_child (keys : List Bytes) (left right : List Node) (n : Node) :
    (storeOf keys (left ++ n :: right)).children[left.length]? = some (nodePtr n) ∧
      (storeOf keys (left ++ n :: right)).childLeaves[left.length]? = some (leafPtr n) := by
  simp [storeOf]

inductive Rep (h : Heap) : Node → Prop
  | leaf (addr : ℕ) (page : LeafPage) : (h.leaves addr).page = page → Rep h (.leaf addr page)
  | internal (addr : ℕ) (keys : List Bytes) (children : List Node) : h.nodes addr = storeOf keys children →
      (∀ c ∈ children, Rep h c) → Rep h (.internal addr keys children)

/-- The tree depends on the memory at its own addresses, and not on the leaf chain. -/
theorem Rep.frame {h h' : Heap} {n : Node} (hrep : Rep h n)
    (hsame : ∀ a ∈ n.addrs, h'.nodes a = h.nodes a ∧ (h'.leaves a).page = (h.leaves a).page) : Rep h' n := by
  induction hrep with
  | leaf addr page hpage =>
    refine Rep.leaf addr page ?_
    rw [(hsame addr (by simp [Node.addrs])).2, hpage]
  | internal addr keys children hstore hchildren ih =>
    refine Rep.internal addr keys children ?_ ?_
    · rw [(hsame addr (by simp [Node.addrs])).1, hstore]
    · intro c hc
      refine ih c hc fun a ha => hsame a ?_
      exact List.mem_cons_of_mem addr (mem_addrsAll.mpr ⟨c, hc, ha⟩)

theorem Rep.store {h : Heap} {c : Ctx} {n : Node} (hrep : Rep h (c.plug n)) :
    h.nodes c.addr = storeOf c.keys (c.left ++ n :: c.right) := by
  cases hrep with
  | internal _ _ _ hstore _ => exact hstore

theorem Rep.child {h : Heap} {c : Ctx} {n : Node} (hrep : Rep h (c.plug n)) {m : Node}
    (hm : m ∈ c.left ++ n :: c.right) : Rep h m := by
  cases hrep with
  | internal _ _ _ _ hchildren => exact hchildren m hm

theorem Rep.subtree {h : Heap} (path : List Ctx) {n : Node} (hrep : Rep h (plugAll path n)) : Rep h n := by
  induction path generalizing n with
  | nil => exact hrep
  | cons c path ih => exact (ih hrep).child (by simp)

/-- The addresses of the nodes on a path and of the subtrees beside it. -/
def pathAddrs : List Ctx → List ℕ
  | [] => []
  | c :: path => c.addr :: (addrsAll c.left ++ addrsAll c.right ++ pathAddrs path)

theorem addrs_plugAll (path : List Ctx) (n : Node) : (plugAll path n).addrs.Perm (n.addrs ++ pathAddrs path) := by
  induction path generalizing n with
  | nil => simp [plugAll, pathAddrs]
  | cons c path ih =>
    refine (ih (c.plug n)).trans ?_
    apply List.perm_iff_count.mpr
    intro x
    simp only [Ctx.plug, Node.addrs, pathAddrs, addrsAll_append, addrsAll, List.count_append, List.count_cons]
    omega

/-- Another node below the path, with the pointers of the old one. -/
theorem Rep.replace {h h' : Heap} {path : List Ctx} {n m : Node} (hrep : Rep h (plugAll path n)) (hm : Rep h' m)
    (hnode : nodePtr m = nodePtr n) (hleaf : leafPtr m = leafPtr n)
    (hsame : ∀ a ∈ pathAddrs path, h'.nodes a = h.nodes a ∧ (h'.leaves a).page = (h.leaves a).page) :
    Rep h' (plugAll path m) := by
  induction path generalizing n m with
  | nil => exact hm
  | cons c path ih =>
    have hplug := Rep.subtree path hrep
    refine ih (n := c.plug n) hrep ?_ rfl rfl fun a ha => hsame a (by simp [pathAddrs, ha])
    refine Rep.internal c.addr c.keys _ ?_ ?_
    · rw [(hsame c.addr (by simp [pathAddrs])).1, hplug.store]
      simp only [storeOf, List.map_append, List.map_cons, hnode, hleaf]
    · intro x hx
      simp only [List.mem_append, List.mem_cons] at hx
      rcases hx with hx | rfl | hx
      · refine (hplug.child (by simp [hx])).frame fun a ha => hsame a ?_
        simp [pathAddrs, mem_addrsAll.mpr ⟨x, hx, ha⟩]
      · exact hm
      · refine (hplug.child (by simp [hx])).frame fun a ha => hsame a ?_
        simp [pathAddrs, mem_addrsAll.mpr ⟨x, hx, ha⟩]

/-- A pointer to the new node is put into the lowest node of the path. -/
theorem Rep.swap {h h' : Heap} {c : Ctx} {path : List Ctx} {n m : Node} (hrep : Rep h (plugAll (c :: path) n))
    (hm : Rep h m) (hnodup : (plugAll (c :: path) m).addrs.Nodup)
    (hstore : h'.nodes c.addr = storeOf c.keys (c.left ++ m :: c.right))
    (hnodes : ∀ a ≠ c.addr, h'.nodes a = h.nodes a) (hleaves : ∀ a, (h'.leaves a).page = (h.leaves a).page) :
    Rep h' (plugAll (c :: path) m) := by
  have hone := (addrs_plugAll (c :: path) m).nodup_iff.mp hnodup
  have hnot : ∀ a, a ∈ m.addrs ∨ a ∈ addrsAll c.left ∨ a ∈ addrsAll c.right ∨ a ∈ pathAddrs path → a ≠ c.addr := by
    intro a ha heq
    subst heq
    have hcount := List.nodup_iff_count_le_one.mp hone c.addr
    simp only [pathAddrs, List.count_append, List.count_cons_self] at hcount
    rcases ha with ha | ha | ha | ha <;> (have hpos := List.count_pos_iff.mpr ha; omega)
  have hplug := Rep.subtree path hrep
  show Rep h' (plugAll path (c.plug m))
  refine Rep.replace (n := c.plug n) hrep ?_ rfl rfl fun a ha =>
    ⟨hnodes a (hnot a (Or.inr (Or.inr (Or.inr ha)))), hleaves a⟩
  refine Rep.internal c.addr c.keys _ hstore ?_
  intro x hx
  simp only [List.mem_append, List.mem_cons] at hx
  rcases hx with hx | rfl | hx
  · refine (hplug.child (by simp [hx])).frame fun a ha => ⟨hnodes a (hnot a ?_), hleaves a⟩
    exact Or.inr (Or.inl (mem_addrsAll.mpr ⟨x, hx, ha⟩))
  · exact hm.frame fun a ha => ⟨hnodes a (hnot a (Or.inl ha)), hleaves a⟩
  · refine (hplug.child (by simp [hx])).frame fun a ha => ⟨hnodes a (hnot a ?_), hleaves a⟩
    exact Or.inr (Or.inr (Or.inl (mem_addrsAll.mpr ⟨x, hx, ha⟩)))

/-! ## The way down -/

/-- What `FindLeafForWrite` records of a path. -/
def pathOf (path : List Ctx) : List (ℕ × ℕ) := path.map fun c => (c.addr, c.left.length)

theorem nodePtr_plugAll {path : List Ctx} (hne : path ≠ []) (n : Node) :
    nodePtr (plugAll path n) = some (plugAll path n).addr ∧ leafPtr (plugAll path n) = none := by
  induction path generalizing n with
  | nil => exact absurd rfl hne
  | cons c path ih =>
    cases path with
    | nil => exact ⟨rfl, rfl⟩
    | cons c' path => exact ih (List.cons_ne_nil c' path) (c.plug n)

theorem findLeafForWrite_plugAll {h : Heap} {key : Bytes} {path : List Ctx} {addr : ℕ} {page : LeafPage}
    (hrep : Rep h (plugAll path (.leaf addr page))) (hfollows : Follows key path) (hne : path ≠ []) {fuel : ℕ}
    (hfuel : path.length ≤ fuel) (above : List (ℕ × ℕ)) :
    h.findLeafForWrite key fuel (plugAll path (.leaf addr page)).addr above = some (addr, pathOf path ++ above) := by
  -- The loop starts at the last node of the list, so the induction takes nodes off its end.
  induction path using List.reverseRecOn generalizing fuel above with
  | nil => exact absurd rfl hne
  | append_singleton path c ih =>
    rw [plugAll_append] at hrep ⊢
    obtain ⟨fuel, rfl⟩ : ∃ k, fuel = k + 1 := ⟨fuel - 1, by simp at hfuel; omega⟩
    have hstore := Rep.store hrep
    have hidx := hfollows c (by simp)
    show h.findLeafForWrite key (fuel + 1) c.addr above = _
    obtain ⟨hchild, hleaf⟩ := storeOf_child c.keys c.left c.right (plugAll path (.leaf addr page))
    have hkeys : findChild (storeOf c.keys (c.left ++ plugAll path (.leaf addr page) :: c.right)).keys key =
        c.left.length := hidx
    unfold findLeafForWrite
    simp only [hstore, hkeys, hchild, hleaf]
    cases path with
    | nil => rfl
    | cons c' path =>
      rw [(nodePtr_plugAll (List.cons_ne_nil c' path) _).1]
      refine (ih (Rep.subtree [c] hrep) (fun x hx => hfollows x (List.mem_append_left _ hx)) (by simp)
        (by simp at hfuel ⊢; omega) _).trans ?_
      simp [pathOf]

theorem findLeaf_eq (h : Heap) (key : Bytes) (fuel node : ℕ) (above : List (ℕ × ℕ)) :
    h.findLeaf key fuel node = (h.findLeafForWrite key fuel node above).map Prod.fst := by
  induction fuel generalizing node above with
  | zero => rfl
  | succ fuel ih =>
    unfold findLeaf findLeafForWrite
    simp only []
    split
    · exact ih _ _
    · rw [Option.map_map]
      exact Option.map_id'.symm

/-! ## The leaf on the left -/

theorem lastLeaf_spec {h : Heap} {d : ℕ} {n : Node} (hshape : Uniform (d + 1) n) (hrep : Rep h n) {fuel : ℕ}
    (hfuel : d < fuel) (lo : Bytes) : ∃ ps p, n.chain lo = ps ++ [p] ∧ h.lastLeaf fuel n.addr = some p.addr := by
  induction d generalizing n fuel lo with
  | zero =>
    obtain ⟨addr, keys, children, rfl, hlen, -, hchildren⟩ := hshape.cases_succ
    obtain ⟨init, m, rfl⟩ := (List.eq_nil_or_concat children).resolve_left (by rintro rfl; cases hlen)
    rw [List.concat_eq_append] at hrep hlen hchildren ⊢
    obtain ⟨a, page, rfl⟩ := (hchildren m (by simp)).cases_zero
    obtain ⟨fuel, rfl⟩ : ∃ k, fuel = k + 1 := ⟨fuel - 1, by omega⟩
    obtain ⟨seps', sep, hchain⟩ := chainAll_concat (.leaf a page)
      (show (lo :: keys).length = init.length + 1 by simp at hlen ⊢; omega)
    refine ⟨_, ⟨sep, a, page⟩, hchain, ?_⟩
    cases hrep with
    | internal _ _ _ hstore _ =>
      simp [Node.addr, lastLeaf, hstore, storeOf, nodePtr, leafPtr]
  | succ d ih =>
    obtain ⟨addr, keys, children, rfl, hlen, -, hchildren⟩ := hshape.cases_succ
    obtain ⟨init, m, rfl⟩ := (List.eq_nil_or_concat children).resolve_left (by rintro rfl; cases hlen)
    rw [List.concat_eq_append] at hrep hlen hchildren ⊢
    have hm := hchildren m (by simp)
    obtain ⟨a, keys', children', rfl, -⟩ := hm.cases_succ
    obtain ⟨fuel, rfl⟩ : ∃ k, fuel = k + 1 := ⟨fuel - 1, by omega⟩
    obtain ⟨seps', sep, hchain⟩ := chainAll_concat (.internal a keys' children')
      (show (lo :: keys).length = init.length + 1 by simp at hlen ⊢; omega)
    cases hrep with
    | internal _ _ _ hstore hreps =>
      obtain ⟨ps, p, hps, hlast⟩ := ih hm (hreps _ (by simp)) (show d < fuel by omega) sep
      refine ⟨chainAll seps' init ++ ps, p, ?_, ?_⟩
      · rw [Node.chain, hchain, hps, List.append_assoc]
      · rw [← hlast]
        simp [Node.addr, lastLeaf, hstore, storeOf, nodePtr]

theorem findPredecessor_plugAll {h : Heap} {d : ℕ} {path : List Ctx} {n : Node} (hrep : Rep h (plugAll path n))
    (hshape : Uniform d (plugAll path n)) (hfull : ∀ c ∈ path, c.Full) {fuel : ℕ} (hfuel : d ≤ fuel) (lo : Bytes) :
    h.findPredecessor fuel (pathOf path) = ((before path lo).map Page.addr).getLast? := by
  induction path generalizing n with
  | nil => rfl
  | cons c path ih =>
    have hplug := Rep.subtree path hrep
    obtain ⟨k, hk, huniform⟩ := Uniform.subtree path hshape
    have hstore := hplug.store
    have hcount := (hfull c List.mem_cons_self).count
    show h.findPredecessor fuel ((c.addr, c.left.length) :: pathOf path) = _
    rcases List.eq_nil_or_concat c.left with hnil | ⟨init, m, hleft⟩
    · rw [findPredecessor, if_neg (by simp [hnil]), ih hrep hshape fun x hx => hfull x (List.mem_cons_of_mem c hx)]
      simp [before, Ctx.before, hnil, chainAll]
    · rw [List.concat_eq_append] at hleft
      have hlen : c.left.length = init.length + 1 := by simp [hleft]
      obtain ⟨seps', sep, hchain⟩ := chainAll_concat m
        (show ((sepOf path lo :: c.keys).take c.left.length).length = init.length + 1 by simp; omega)
      have hmem : m ∈ c.left ++ n :: c.right := by simp [hleft]
      have hmrep := hplug.child hmem
      obtain ⟨j, hj, hm⟩ := huniform.sibling hmem
      have hbefore : before (c :: path) lo = before path lo ++ (chainAll seps' init ++ m.chain sep) := by
        rw [before, Ctx.before, ← hchain, ← hleft]
      have hptr : (h.nodes c.addr).children[c.left.length - 1]? = some (nodePtr m) ∧
          (h.nodes c.addr).childLeaves[c.left.length - 1]? = some (leafPtr m) := by
        simp [hstore, storeOf, hleft]
      rw [findPredecessor, if_pos (by omega), hptr.1, hptr.2, hbefore]
      cases j with
      | zero =>
        obtain ⟨a, page, rfl⟩ := hm.cases_zero
        simp [nodePtr, leafPtr, Node.chain]
      | succ j =>
        obtain ⟨ps, p, hps, hlast⟩ := lastLeaf_spec hm hmrep (show j < fuel by omega) sep
        obtain ⟨a, keys', children', rfl, -⟩ := hm.cases_succ
        rw [hps]
        simpa [nodePtr, Node.addr] using hlast

end Kvdb.Heap
