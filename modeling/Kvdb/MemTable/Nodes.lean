import Kvdb.MemTable.Tree

/-! # The nodes of a memtable (`bptree.hpp`)

`Tree` keeps the leaf chain and the separators; here are the internal levels and the addresses of the pages, which is
what the reclamation of replaced nodes is about. `insertNode` is `Insert` from the node downwards: a leaf with room is
copied and the pointer of its parent is replaced in place, a full leaf is split and the levels above are rebuilt until
a node has room for the new separator (`SplitCoW`). The old pages that `RetireNode` and `RetireLeaf` receive are
returned; the nodes of a rebuilt level that are not retired stay allocated outside the tree. -/
namespace Kvdb.Nodes
set_option autoImplicit false

/-- `LeafPage` and `InternalNode` with their addresses. A child is a pointer in `children` or in `child_leaves`. -/
inductive Node where
  | leaf (addr : ℕ) (page : LeafPage)
  | internal (addr : ℕ) (keys : List Bytes) (children : List Node)

/-- Induction over the nodes of a tree. -/
theorem Node.induct {P : Node → Prop} (hleaf : ∀ addr page, P (.leaf addr page))
    (hinternal : ∀ addr keys children, (∀ c ∈ children, P c) → P (.internal addr keys children)) (n : Node) : P n :=
  @Node.rec P (fun ns => ∀ c ∈ ns, P c) hleaf hinternal
    (fun c hc => by cases hc)
    (fun n ns hn hns c hc => by
      cases hc with
      | head => exact hn
      | tail _ hmem => exact hns c hmem)
    n

def Node.addr : Node → ℕ
  | .leaf addr _ => addr
  | .internal addr _ _ => addr

/-- What `FindLeaf` reads in an internal node. -/
structure Pointers where
  keys : List Bytes
  children : List ℕ

mutual

/-- The addresses of the tree below a node. -/
def Node.addrs : Node → List ℕ
  | .leaf addr _ => [addr]
  | .internal addr _ children => addr :: addrsAll children

def addrsAll : List Node → List ℕ
  | [] => []
  | n :: ns => n.addrs ++ addrsAll ns

end

mutual

/-- The contents of the internal node at an address. -/
def Node.pointersAt (x : ℕ) : Node → Option Pointers
  | .leaf _ _ => none
  | .internal addr keys children =>
    if addr = x then some ⟨keys, children.map Node.addr⟩ else pointersAmong x children

def pointersAmong (x : ℕ) : List Node → Option Pointers
  | [] => none
  | n :: ns => (n.pointersAt x).or (pointersAmong x ns)

end

/-! ## Allocation -/

/-- `leaf_pool_` with its last entry first, and the next address that the allocator returns. -/
structure Alloc where
  pool : List ℕ
  next : ℕ

namespace Alloc

/-- `NewLeaf`. -/
def newLeaf (al : Alloc) : ℕ × Alloc :=
  match al.pool with
  | [] => (al.next, { al with next := al.next + 1 })
  | x :: pool => (x, { al with pool := pool })

/-- `NewInternal`. -/
def newInternal (al : Alloc) : ℕ × Alloc := (al.next, { al with next := al.next + 1 })

/-- `taken` has been handed out between `al` and `al'`: from the pool, or from the addresses after `next`. -/
def Takes (al : Alloc) (taken : List ℕ) (al' : Alloc) : Prop :=
  ∃ k, al'.next = al.next + k ∧ (taken ++ al'.pool).Perm (al.pool ++ List.range' al.next k)

theorem Takes.trans {al al' al'' : Alloc} {xs ys : List ℕ} (h : al.Takes xs al') (h' : al'.Takes ys al'') :
    al.Takes (xs ++ ys) al'' := by
  obtain ⟨k, hnext, hperm⟩ := h
  obtain ⟨k', hnext', hperm'⟩ := h'
  refine ⟨k + k', by omega, ?_⟩
  calc (xs ++ ys ++ al''.pool).Perm (xs ++ (al'.pool ++ List.range' al'.next k')) := by
        rw [List.append_assoc]
        exact hperm'.append_left xs
    _ = xs ++ al'.pool ++ List.range' al'.next k' := (List.append_assoc _ _ _).symm
    List.Perm _ (al.pool ++ List.range' al.next k ++ List.range' al'.next k') := hperm.append_right _
    _ = al.pool ++ List.range' al.next (k + k') := by
        rw [List.append_assoc, hnext, List.range'_append_1]

theorem newInternal_takes (al : Alloc) : al.Takes [al.newInternal.1] al.newInternal.2 :=
  ⟨1, rfl, List.perm_append_comm⟩

theorem newLeaf_takes (al : Alloc) : al.Takes [al.newLeaf.1] al.newLeaf.2 := by
  obtain ⟨pool, next⟩ := al
  cases pool with
  | nil => exact newInternal_takes ⟨[], next⟩
  | cons x pool => exact ⟨0, rfl, by simp [newLeaf]⟩

end Alloc

/-! ## Insertion -/

def internalFanout : ℕ := 16

/-- `FindChild`: the first separator above the key. -/
def findChild (keys : List Bytes) (key : Bytes) : ℕ :=
  Bisect.bisect (fun sep : Bytes => decide (key < sep)) (fun lo hi => (lo + hi) / 2) keys keys.length 0 keys.length

/-- What takes the place of a node: another pointer, or the two nodes of a split. -/
inductive Grown where
  | one (node : Node)
  | split (left : Node) (sep : Bytes) (right : Node)

def Grown.addrs : Grown → List ℕ
  | .one node => node.addrs
  | .split left _ right => left.addrs ++ right.addrs

/-- A page passed to `RetireNode` or to `RetireLeaf`. -/
structure Retired where
  addr : ℕ
  isInternal : Bool

/-- The outcome of an insertion below a node: `taken` has been allocated, `retired` is retired once the new pointer
stands. -/
structure Insertion where
  grown : Grown
  alloc : Alloc
  taken : List ℕ
  retired : List Retired

/-- The copy of the leaf in `Insert`, and the leaves of `SplitCoW` when the copy has no room. -/
def insertLeaf (e : KeyValuePair) (al : Alloc) (addr : ℕ) (page : LeafPage) : Insertion :=
  let nleaf := al.newLeaf
  match page.insertEntry (page.find e.key) e with
  | some page' => ⟨.one (.leaf nleaf.1 page'), nleaf.2, [nleaf.1], [⟨addr, false⟩]⟩
  | none =>
    let left := nleaf.2.newLeaf
    let right := left.2.newLeaf
    let halves := page.splitLeaf (page.find e.key) e
    ⟨.split (.leaf left.1 halves.1) halves.2.firstKey (.leaf right.1 halves.2), right.2,
      [nleaf.1, left.1, right.1], [⟨addr, false⟩]⟩

/-- One level of `SplitCoW` above the pair `left`, `right`. -/
def splitCoW (addr : ℕ) (keys : List Bytes) (idx : ℕ) (children : List Node) (left : Node) (sep : Bytes)
    (right : Node) (r : Insertion) : Insertion :=
  let nn := r.alloc.newInternal
  let keys' := keys.insertIdx idx sep
  let children' := (children.set idx left).insertIdx (idx + 1) right
  if keys'.length < internalFanout then
    ⟨.one (.internal nn.1 keys' children'), nn.2, r.taken ++ [nn.1], ⟨addr, true⟩ :: r.retired⟩
  else
    let mid := keys'.length / 2
    let l := nn.2.newInternal
    let rt := l.2.newInternal
    ⟨.split (.internal l.1 (keys'.take mid) (children'.take (mid + 1))) (keys'.getD mid [])
        (.internal rt.1 (keys'.drop (mid + 1)) (children'.drop (mid + 1))), rt.2,
      r.taken ++ [nn.1, l.1, rt.1], r.retired⟩

/-- What an internal node becomes when the child at `idx` has been replaced: the pointer is swapped in place, or the
split ascends. -/
def replaceChild (addr : ℕ) (keys : List Bytes) (idx : ℕ) (children : List Node) (r : Insertion) : Insertion :=
  match r.grown with
  | .one child => { r with grown := .one (.internal addr keys (children.set idx child)) }
  | .split left sep right => splitCoW addr keys idx children left sep right r

mutual

/-- `Insert` below a node; `none` is the null leaf of a node with no child at the position of the key. -/
def insertNode (e : KeyValuePair) (al : Alloc) : Node → Option Insertion
  | .leaf addr page => some (insertLeaf e al addr page)
  | .internal addr keys children =>
    (insertChild e al (findChild keys e.key) children).map
      (replaceChild addr keys (findChild keys e.key) children)

def insertChild (e : KeyValuePair) (al : Alloc) : ℕ → List Node → Option Insertion
  | _, [] => none
  | 0, n :: _ => insertNode e al n
  | i + 1, _ :: ns => insertChild e al i ns

end

/-- The root after an insertion; `SplitCoW` puts a new root above a split that reaches the top. -/
def newRoot (r : Insertion) : Node × Alloc × List ℕ :=
  match r.grown with
  | .one node => (node, r.alloc, r.taken)
  | .split left sep right =>
    let nr := r.alloc.newInternal
    (.internal nr.1 [sep] [left, right], nr.2, r.taken ++ [nr.1])

/-! ## The addresses after an insertion -/

theorem addrsAll_append (ns ms : List Node) : addrsAll (ns ++ ms) = addrsAll ns ++ addrsAll ms := by
  induction ns with
  | nil => rfl
  | cons n ns ih => simp only [List.cons_append, addrsAll, ih, List.append_assoc]

theorem Node.addr_mem_addrs (n : Node) : n.addr ∈ n.addrs := by
  cases n with
  | leaf addr page => simp [Node.addr, Node.addrs]
  | internal addr keys children => simp [Node.addr, Node.addrs]

theorem mem_addrsAll {ns : List Node} {x : ℕ} : x ∈ addrsAll ns ↔ ∃ n ∈ ns, x ∈ n.addrs := by
  induction ns with
  | nil => simp [addrsAll]
  | cons n ns ih => simp [addrsAll, ih]

theorem count_set {children : List Node} {idx : ℕ} {c : Node} (hc : children[idx]? = some c) (c' : Node) (x : ℕ) :
    (addrsAll (children.set idx c')).count x + c.addrs.count x =
      (addrsAll children).count x + c'.addrs.count x := by
  induction children generalizing idx with
  | nil => cases hc
  | cons n ns ih =>
    cases idx with
    | zero =>
      cases hc
      simp only [List.set_cons_zero, addrsAll, List.count_append]
      omega
    | succ idx =>
      have hset := ih hc
      simp only [List.set_cons_succ, addrsAll, List.count_append]
      omega

theorem count_insertIdx (children : List Node) (idx : ℕ) (c : Node) (x : ℕ) :
    (addrsAll (children.insertIdx idx c)).count x ≤ (addrsAll children).count x + c.addrs.count x := by
  induction children generalizing idx with
  | nil =>
    cases idx with
    | zero => simp [addrsAll]
    | succ idx => simp [addrsAll]
  | cons n ns ih =>
    cases idx with
    | zero =>
      simp only [List.insertIdx_zero, addrsAll, List.count_append]
      omega
    | succ idx =>
      have hins := ih idx
      simp only [List.insertIdx_succ_cons, addrsAll, List.count_append]
      omega

theorem count_take_drop (children : List Node) (k x : ℕ) :
    (addrsAll (children.take k)).count x + (addrsAll (children.drop k)).count x = (addrsAll children).count x := by
  rw [← List.count_append, ← addrsAll_append, List.take_append_drop]

theorem insertChild_eq (e : KeyValuePair) (al : Alloc) (i : ℕ) (ns : List Node) :
    insertChild e al i ns = ns[i]?.bind (insertNode e al) := by
  induction ns generalizing i with
  | nil => simp [insertChild]
  | cons n ns ih =>
    cases i with
    | zero => simp [insertChild]
    | succ i => simpa [insertChild] using ih i

/-- The addresses in the tree after an insertion and the retired ones were in the tree before or have been allocated,
and each of them is used once. -/
def Insertion.Balanced (r : Insertion) (addrs : List ℕ) : Prop :=
  ∀ x, r.grown.addrs.count x + (r.retired.map Retired.addr).count x ≤ addrs.count x + r.taken.count x

theorem insertLeaf_balanced (e : KeyValuePair) (al : Alloc) (addr : ℕ) (page : LeafPage) :
    (insertLeaf e al addr page).Balanced [addr] := by
  intro x
  unfold insertLeaf
  split
  · simp only [Grown.addrs, Node.addrs, List.map_cons, List.map_nil]
    omega
  · simp only [Grown.addrs, Node.addrs, List.map_cons, List.map_nil, List.count_append, List.count_cons,
      List.count_nil]
    omega

theorem splitCoW_balanced {addr : ℕ} {keys : List Bytes} {idx : ℕ} {children : List Node} {c left right : Node}
    {sep : Bytes} {r : Insertion} (hc : children[idx]? = some c) (hgrown : r.grown = .split left sep right)
    (h : r.Balanced c.addrs) :
    (splitCoW addr keys idx children left sep right r).Balanced (addr :: addrsAll children) := by
  intro x
  have hbelow := h x
  have hset := count_set hc left x
  have hins := count_insertIdx (children.set idx left) (idx + 1) right x
  have hcut := count_take_drop ((children.set idx left).insertIdx (idx + 1) right)
    ((keys.insertIdx idx sep).length / 2 + 1) x
  simp only [hgrown, Grown.addrs, List.count_append] at hbelow
  unfold splitCoW
  simp only []
  split
  · simp only [Grown.addrs, Node.addrs, List.map_cons, List.count_append, List.count_cons, List.count_nil]
    omega
  · simp only [Grown.addrs, Node.addrs, List.count_append, List.count_cons, List.count_nil]
    omega

theorem replaceChild_balanced {addr : ℕ} {keys : List Bytes} {idx : ℕ} {children : List Node} {c : Node}
    {r : Insertion} (hc : children[idx]? = some c) (h : r.Balanced c.addrs) :
    (replaceChild addr keys idx children r).Balanced (addr :: addrsAll children) := by
  unfold replaceChild
  split
  · next child hgrown =>
    intro x
    have hbelow := h x
    have hset := count_set hc child x
    simp only [hgrown, Grown.addrs] at hbelow
    simp only [Grown.addrs, Node.addrs, List.count_cons]
    omega
  · next left sep right hgrown => exact splitCoW_balanced hc hgrown h

theorem insertNode_balanced {e : KeyValuePair} {al : Alloc} {n : Node} {r : Insertion}
    (h : insertNode e al n = some r) : r.Balanced n.addrs := by
  induction n using Node.induct generalizing r with
  | hleaf addr page =>
    simp only [insertNode, Option.some.injEq] at h
    subst h
    exact insertLeaf_balanced e al addr page
  | hinternal addr keys children ih =>
    simp only [insertNode, insertChild_eq] at h
    obtain ⟨below, hbelow, rfl⟩ := Option.map_eq_some_iff.mp h
    obtain ⟨c, hc, hchild⟩ := Option.bind_eq_some_iff.mp hbelow
    exact replaceChild_balanced hc (ih c (List.mem_of_getElem? hc) hchild)

theorem insertLeaf_takes (e : KeyValuePair) (al : Alloc) (addr : ℕ) (page : LeafPage) :
    al.Takes (insertLeaf e al addr page).taken (insertLeaf e al addr page).alloc := by
  unfold insertLeaf
  split
  · exact al.newLeaf_takes
  · exact al.newLeaf_takes.trans ((Alloc.newLeaf_takes _).trans (Alloc.newLeaf_takes _))

theorem replaceChild_takes {al : Alloc} {r : Insertion} (addr : ℕ) (keys : List Bytes) (idx : ℕ)
    (children : List Node) (h : al.Takes r.taken r.alloc) :
    al.Takes (replaceChild addr keys idx children r).taken (replaceChild addr keys idx children r).alloc := by
  unfold replaceChild
  split
  · exact h
  · unfold splitCoW
    simp only []
    split
    · exact h.trans r.alloc.newInternal_takes
    · exact h.trans (r.alloc.newInternal_takes.trans
        ((Alloc.newInternal_takes _).trans (Alloc.newInternal_takes _)))

theorem insertNode_takes {e : KeyValuePair} {al : Alloc} {n : Node} {r : Insertion}
    (h : insertNode e al n = some r) : al.Takes r.taken r.alloc := by
  induction n using Node.induct generalizing r with
  | hleaf addr page =>
    simp only [insertNode, Option.some.injEq] at h
    subst h
    exact insertLeaf_takes e al addr page
  | hinternal addr keys children ih =>
    simp only [insertNode, insertChild_eq] at h
    obtain ⟨below, hbelow, rfl⟩ := Option.map_eq_some_iff.mp h
    obtain ⟨c, hc, hchild⟩ := Option.bind_eq_some_iff.mp hbelow
    exact replaceChild_takes addr keys _ children (ih c (List.mem_of_getElem? hc) hchild)

theorem newRoot_balanced {r : Insertion} {addrs : List ℕ} (h : r.Balanced addrs) (x : ℕ) :
    (newRoot r).1.addrs.count x + (r.retired.map Retired.addr).count x ≤
      addrs.count x + (newRoot r).2.2.count x := by
  have hbelow := h x
  unfold newRoot
  split
  · next hgrown =>
    simp only [hgrown, Grown.addrs] at hbelow
    exact hbelow
  · next hgrown =>
    simp only [hgrown, Grown.addrs, List.count_append] at hbelow
    simp only [Node.addrs, addrsAll, List.count_append, List.count_cons, List.count_nil]
    omega

theorem newRoot_takes {al : Alloc} {r : Insertion} (h : al.Takes r.taken r.alloc) :
    al.Takes (newRoot r).2.2 (newRoot r).2.1 := by
  unfold newRoot
  split
  · exact h
  · exact h.trans r.alloc.newInternal_takes

/-! ## The pointers of the tree -/

theorem pointersAmong_eq_some {x : ℕ} {ns : List Node} {p : Pointers} (h : pointersAmong x ns = some p) :
    ∃ n ∈ ns, n.pointersAt x = some p := by
  induction ns with
  | nil => cases h
  | cons n ns ih =>
    simp only [pointersAmong, Option.or_eq_some_iff] at h
    rcases h with hn | ⟨-, hns⟩
    · exact ⟨n, List.mem_cons_self, hn⟩
    · obtain ⟨m, hm, hat⟩ := ih hns
      exact ⟨m, List.mem_cons_of_mem _ hm, hat⟩

/-- The children of a node of the tree are in the tree. -/
theorem Node.pointersAt_children {n : Node} {x : ℕ} {p : Pointers} (h : n.pointersAt x = some p) :
    ∀ y ∈ p.children, y ∈ n.addrs := by
  induction n using Node.induct with
  | hleaf addr page => cases h
  | hinternal addr keys children ih =>
    simp only [Node.pointersAt] at h
    split at h
    · cases h
      intro y hy
      obtain ⟨c, hc, rfl⟩ := List.mem_map.mp hy
      exact List.mem_cons_of_mem _ (mem_addrsAll.mpr ⟨c, hc, c.addr_mem_addrs⟩)
    · obtain ⟨c, hc, hat⟩ := pointersAmong_eq_some h
      intro y hy
      exact List.mem_cons_of_mem _ (mem_addrsAll.mpr ⟨c, hc, ih c hc hat y hy⟩)

end Kvdb.Nodes
