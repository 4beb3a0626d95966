import Kvdb.MemTable.ByteTree

/-! # The bytes of a memtable and the tree they stand for

`heap` reads the memory as `Heap` has it. The searches in the bytes go where those in the keys do, and the copies that
`SplitCoW` makes of the nodes on a path stand for the copies in the model (`ascend_refines`). -/
namespace Kvdb
set_option autoImplicit false

open Region PageBytes
open Nodes (Node Retired internalFanout Ctx)

namespace Heap

/-! ## The nodes on a path -/

/-- A node that `FindLeafForWrite` has come through, and the position of the child. -/
structure OnPath (h : Heap) (p : ℕ × ℕ) : Prop where
  below : p.1 < h.alloc.next
  place : p.2 ≤ (h.nodes p.1).keys.length
  room : (h.nodes p.1).keys.length < internalFanout
  children : (h.nodes p.1).children.length = (h.nodes p.1).keys.length + 1
  childLeaves : (h.nodes p.1).childLeaves.length = (h.nodes p.1).keys.length + 1

theorem OnPath.congr {h h' : Heap} {p : ℕ × ℕ} (hp : h.OnPath p) (hnodes : h'.nodes p.1 = h.nodes p.1)
    (hnext : h.alloc.next ≤ h'.alloc.next) : h'.OnPath p where
  below := Nat.lt_of_lt_of_le hp.below hnext
  place := by rw [hnodes]; exact hp.place
  room := by rw [hnodes]; exact hp.room
  children := by rw [hnodes]; exact hp.children
  childLeaves := by rw [hnodes]; exact hp.childLeaves

theorem OnPath.grows {h h' : Heap} {p : ℕ × ℕ} (hp : h.OnPath p) (hg : Grows h h') : h'.OnPath p :=
  hp.congr (hg.nodes p.1 hp.below) hg.next

theorem Found.onPath {h : Heap} {root : Node} {todo : List Retired} {key : Bytes} {path : List Ctx} {a : ℕ}
    (hf : Found h root key path a) (hh : h.Holds root todo) : ∀ p ∈ pathOf path, h.OnPath p := by
  obtain ⟨hrep, hbelow⟩ := And.intro hh.rep fun x hx => hh.owns.root_below (x := x) hx
  have hfull := hf.full
  rw [hf.tree] at hrep hbelow
  generalize Node.leaf a (h.leaves a).page = n at hrep hbelow
  clear hf hh
  induction path generalizing n with
  | nil => exact fun p hp => absurd hp (List.not_mem_nil)
  | cons c path ih =>
    intro p hp
    rcases List.mem_cons.mp hp with rfl | hp
    · have hcount := (hfull c List.mem_cons_self).count
      have hstore := (Rep.subtree path hrep).store
      refine ⟨hbelow c.addr (@mem_pathOf_addrs (c :: path) n (c.addr, c.left.length) List.mem_cons_self),
        ?_, ?_, ?_, ?_⟩
      · rw [hstore]
        show c.left.length ≤ c.keys.length
        omega
      · rw [hstore]
        exact (hfull c List.mem_cons_self).room
      · rw [hstore]
        simp only [storeOf, List.length_map, List.length_append, List.length_cons]
        omega
      · rw [hstore]
        simp only [storeOf, List.length_map, List.length_append, List.length_cons]
        omega
    · exact ih (fun x hx => hfull x (List.mem_cons_of_mem c hx)) (c.plug n) hrep hbelow p hp

/-! ## What has returned has fitted -/

theorem insKey_some {s s' : Store} {pos : ℕ} {k : Bytes} (h : s.insKey pos k = some s') :
    s.keyDataEnd + k.length ≤ keyBufSize ∧ s'.keys = s.keys.insertIdx pos k := by
  unfold Store.insKey at h
  split at h
  · next hfit =>
    cases h
    exact ⟨hfit, rfl⟩
  · cases h

theorem putPair_keys (s : Store) (idx : ℕ) (pair : Pair) :
    (s.putPair idx pair).keys = s.keys ∧ (s.putPair idx pair).keyDataEnd = s.keyDataEnd := by
  cases pair with
  | leaves l r => exact ⟨rfl, rfl⟩
  | nodes l r => exact ⟨rfl, rfl⟩

/-- The separators fit along a path, when the loop returns and the separator that it ends with fits a root. -/
theorem sepsFit_of_ascend {h : Heap} {path : List (ℕ × ℕ)} {pair : Pair} {sep : Bytes} {a : Ascent}
    (hasc : ascend path h pair sep = some a) (hpath : ∀ p ∈ path, h.OnPath p)
    (htop : ∀ h' pair' sep', a = .top h' pair' sep' → sep'.length ≤ keyBufSize) : h.SepsFit path sep := by
  induction path generalizing h pair sep with
  | nil =>
    cases hasc
    exact htop _ _ _ rfl
  | cons p path ih =>
    obtain ⟨cp, cidx⟩ := p
    have hp := hpath (cp, cidx) List.mem_cons_self
    rw [ascend] at hasc
    obtain ⟨s, hs, hrest⟩ := Option.bind_eq_some_iff.mp hasc
    obtain ⟨hfit, hkeys⟩ := insKey_some hs
    obtain ⟨hsame, hend⟩ := putPair_keys (h.nodes cp) cidx pair
    rw [hsame] at hkeys
    rw [hend] at hfit
    have hlen : s.keys.length = (h.nodes cp).keys.length + 1 := by
      rw [hkeys]
      exact List.length_insertIdx_of_le_length hp.place sep
    refine ⟨hfit, ?_⟩
    by_cases hroom : s.keys.length < internalFanout
    · exact .inl (hlen ▸ hroom)
    · rw [if_neg hroom] at hrest
      obtain ⟨ls, -, hrest⟩ := Option.bind_eq_some_iff.mp hrest
      obtain ⟨rs, -, hrest⟩ := Option.bind_eq_some_iff.mp hrest
      have hg := (grows_newInternal h s).trans (grows_newHalves _
        { ls with children := s.children.take (s.keys.length / 2 + 1), childLeaves := s.childLeaves.take (s.keys.length / 2 + 1) }
        { rs with children := s.children.drop (s.keys.length / 2 + 1), childLeaves := s.childLeaves.drop (s.keys.length / 2 + 1) })
      have hup := ih hrest fun q hq => (hpath q (List.mem_cons_of_mem _ hq)).grows hg
      refine .inr ?_
      rw [← hkeys, ← hlen]
      exact hup.congr fun q hq => (hg.nodes q.1 (hpath q (List.mem_cons_of_mem _ hq)).below).symm

theorem newLeaf_next (al : Nodes.Alloc) : al.next ≤ al.newLeaf.2.next := by
  obtain ⟨k, hk, -⟩ := al.newLeaf_takes
  omega

/-- The new page is not one of the tree. -/
theorem Holds.newLeaf_ne {h : Heap} {root : Node} (hh : h.Holds root []) {a : ℕ} (ha : a ∈ root.addrs) :
    a ≠ h.newLeaf.1 := by
  rintro rfl
  exact ((hh.owns.taken h.alloc.newLeaf_takes).2 _ (List.mem_singleton_self _)).1 ha

theorem Found.mem {h : Heap} {root : Node} {key : Bytes} {path : List Ctx} {a : ℕ} (hf : Found h root key path a) :
    a ∈ root.addrs := by
  rw [hf.tree]
  exact mem_plugAll_addrs path (List.mem_singleton_self a)

theorem place_full {h : Heap} {root : Node} {e : KeyValuePair} {path : List Ctx} {a : ℕ} (hf : Found h root e.key path a)
    (hroom : (h.leaves a).page.insertEntry ((h.leaves a).page.find e.key) e = none) (clock : ℕ) :
    h.place clock e = (h.copyLeaf a).splitCoW clock a (pathOf path) e ((h.leaves a).page.find e.key) := by
  unfold place
  simp only [hf.find, Option.bind_some, hroom]
  rfl

/-- An insertion that returns has found room for its separators. -/
theorem fits_of_insert {h h' : Heap} {root : Node} {clock : ℕ} {e : KeyValuePair} (hh : h.Holds root [])
    (hins : h.insert clock e = some h') : h.Fits e := by
  obtain ⟨path, a, hf⟩ := hh.found e.key
  obtain ⟨placed, hplace, -⟩ := Option.map_eq_some_iff.mp hins
  intro found hfound
  have heq : found = (a, pathOf path) := Option.some_inj.mp (hfound.symm.trans hf.find)
  subst heq
  cases hroom : (h.leaves a).page.insertEntry ((h.leaves a).page.find e.key) e with
  | some page => exact .inl rfl
  | none =>
    have hpage : (h.copyLeaf a).leaves a = h.leaves a := by
      rw [copyLeaf, setLeaf_leaves, if_neg (hh.newLeaf_ne hf.mem), newLeaf_leaves h a (hh.newLeaf_ne hf.mem)]
    rw [place_full hf hroom, splitCoW, hpage] at hplace
    generalize (h.leaves a).page.splitLeaf ((h.leaves a).page.find e.key) e = halves at hplace ⊢
    have hnodes : ((h.copyLeaf a).prepareLeaves a halves).1.nodes = h.nodes :=
      congrArg Prod.fst (prepareLeaves_copyLeaf_outside h a halves)
    have hnext : h.alloc.next ≤ ((h.copyLeaf a).prepareLeaves a halves).1.alloc.next :=
      Nat.le_trans (newLeaf_next h.alloc) (Nat.le_trans (newLeaf_next _) (newLeaf_next _))
    obtain ⟨asc, hasc, hpub⟩ := Option.bind_eq_some_iff.mp hplace
    refine .inr (SepsFit.congr (sepsFit_of_ascend hasc (fun p hp => ?_) fun h' pair' sep' htop => ?_) fun p _ => ?_)
    · exact (hf.onPath hh p hp).congr (congrFun hnodes p.1) hnext
    · subst htop
      obtain ⟨h'', hroot, -⟩ := Option.map_eq_some_iff.mp hpub
      obtain ⟨s, hs, -⟩ := Option.map_eq_some_iff.mp hroot
      have hfit := (insKey_some hs).1
      exact (Nat.zero_add _).symm.trans_le hfit
    · exact (congrFun hnodes p.1).symm

/-- What an insertion that returns leaves is a tree. -/
theorem Holds.insert_some {h h' : Heap} {root : Node} {clock : ℕ} {e : KeyValuePair} (hh : h.Holds root [])
    (hins : h.insert clock e = some h') : ∃ root', h'.Holds root' [] := by
  obtain ⟨h'', r, hins', -, hholds⟩ := insert_spec hh (fits_of_insert hh hins) clock
  rw [hins] at hins'
  cases hins'
  exact ⟨_, hholds⟩

end Heap

namespace StaticVec

theorem data_eq {v : StaticVec} {i : ℕ} (hi : i < v.n) : v.data i = (v.toList[i]?).join := by
  rw [← get_eq, get, if_pos hi]

theorem get_last (v : StaticVec) : v.get (v.n - 1) = v.toList.getLast?.join := by
  rw [List.getLast?_eq_getElem?, length_toList, get_eq]

end StaticVec

namespace ByteTree

/-- The tree that the bytes stand for. -/
def heap (t : ByteTree) : Heap where
  root := t.root
  firstLeaf := t.firstLeaf
  nodes := fun a => (t.nodes a).store
  leaves := fun a => ⟨(t.leaves a).page.page t.blobValue, (t.leaves a).next⟩
  alloc := t.alloc
  fenced := t.fenced
  retireSeq := t.retireSeq
  pending := t.pending
  freed := t.freed

/-! ## The memory -/

theorem heap_setNode (t : ByteTree) (a : ℕ) (s : NodeBytes) : (t.setNode a s).heap = t.heap.setNode a s.store := by
  simp only [heap, setNode, Heap.setNode, Heap.mk.injEq, true_and, and_true]
  refine ⟨?_, rfl⟩
  funext x
  split <;> rfl

theorem heap_setLeaf (t : ByteTree) (a : ℕ) (l : ByteLeaf) :
    (t.setLeaf a l).heap = t.heap.setLeaf a ⟨l.page.page t.blobValue, l.next⟩ := by
  simp only [heap, setLeaf, Heap.setLeaf, Heap.mk.injEq, true_and, and_true]
  funext x
  split <;> rfl

theorem heap_newLeaf (t : ByteTree) : t.newLeaf.2.heap = t.heap.newLeaf.2 := heap_setLeaf ..

theorem heap_newInternal (t : ByteTree) : t.newInternal.2.heap = t.heap.newInternal.2 := heap_setNode ..

theorem heap_relink (t : ByteTree) (pred : Option ℕ) (page : ℕ) : (t.relink pred page).heap = t.heap.relink pred page := by
  cases pred with
  | none => rfl
  | some p => exact heap_setLeaf ..

/-! ## The searches -/

section Searches

variable {t : ByteTree}

theorem findLeafForWrite_eq {key : Bytes} (hkey : key.length < 2 ^ 16) (fuel node : ℕ) (path : List (ℕ × ℕ)) :
    t.findLeafForWrite key fuel node path = t.heap.findLeafForWrite key fuel node path := by
  induction fuel generalizing node path with
  | zero => rfl
  | succ fuel ih =>
    unfold findLeafForWrite Heap.findLeafForWrite
    simp only [NodeBytes.findChild_eq _ hkey, StaticVec.get_eq, ih]
    rfl

theorem findLeaf_eq {key : Bytes} (hkey : key.length < 2 ^ 16) (fuel node : ℕ) :
    t.findLeaf key fuel node = t.heap.findLeaf key fuel node := by
  induction fuel generalizing node with
  | zero => rfl
  | succ fuel ih =>
    unfold findLeaf Heap.findLeaf
    simp only [NodeBytes.findChild_eq _ hkey, StaticVec.get_eq, ih]
    rfl

theorem lastLeaf_eq (fuel node : ℕ) : t.lastLeaf fuel node = t.heap.lastLeaf fuel node := by
  induction fuel generalizing node with
  | zero => rfl
  | succ fuel ih =>
    unfold lastLeaf Heap.lastLeaf
    simp only [StaticVec.get_last, ih]
    rfl

theorem findPredecessor_eq (fuel : ℕ) {path : List (ℕ × ℕ)} (hpath : ∀ p ∈ path, t.heap.OnPath p) :
    t.findPredecessor fuel path = t.heap.findPredecessor fuel path := by
  induction path with
  | nil => rfl
  | cons p path ih =>
    obtain ⟨node, idx⟩ := p
    have hp := hpath (node, idx) List.mem_cons_self
    have hplace : idx ≤ (t.nodes node).store.keys.length := hp.place
    have hchildren : (t.nodes node).children.toList.length = (t.nodes node).store.keys.length + 1 := hp.children
    have hleaves : (t.nodes node).childLeaves.toList.length = (t.nodes node).store.keys.length + 1 := hp.childLeaves
    rw [StaticVec.length_toList] at hchildren hleaves
    unfold findPredecessor Heap.findPredecessor
    rw [ih fun q hq => hpath q (List.mem_cons_of_mem _ hq)]
    split
    · rw [StaticVec.data_eq (by omega), StaticVec.data_eq (by omega)]
      simp only [lastLeaf_eq]
      rfl
    · rfl

end Searches

/-! ## The loop of `SplitCoW` -/

/-- `t'` is `t` with new nodes, whose separators are in their buffers. -/
structure Grown (t t' : ByteTree) : Prop where
  same : t' = { t with nodes := t'.nodes, alloc := t'.alloc }
  buffered : ∀ a, (t'.nodes a).Buffered
  grows : Heap.Grows t.heap t'.heap

theorem Grown.trans {t t' t'' : ByteTree} (hg : Grown t t') (hg' : Grown t' t'') : Grown t t'' where
  same := by
    have hsame' := hg'.same
    rw [hg.same] at hsame'
    exact hsame'
  buffered := hg'.buffered
  grows := hg.grows.trans hg'.grows

namespace Ascent

def heap : Ascent → Heap.Ascent
  | .placed t saved up => .placed t.heap saved up
  | .top t pair sep => .top t.heap pair sep

def tree : Ascent → ByteTree
  | .placed t _ _ => t
  | .top t _ _ => t

/-- What is left of the path has been on it, and the separator for a new root has a length of 16 bits. -/
def Ends (path : List (ℕ × ℕ)) : Ascent → Prop
  | .placed _ _ up => ∀ p ∈ up, p ∈ path
  | .top _ _ sep => sep.length < 2 ^ 16

theorem Ends.cons {path : List (ℕ × ℕ)} {a : Ascent} (h : a.Ends path) (p : ℕ × ℕ) : a.Ends (p :: path) := by
  cases a with
  | placed t saved up => exact fun q hq => List.mem_cons_of_mem p (h q hq)
  | top t pair sep => exact h

end Ascent

/-- The copy of a node on the path with the pair and the separator put in. -/
theorem copy_refines {cp : NodeBytes} (hbuf : cp.Buffered) {cidx : ℕ} (hplace : cidx ≤ cp.keyCount)
    (hroom : cp.keyCount < internalFanout) (hchildren : cp.children.n = cp.keyCount + 1)
    (hleaves : cp.childLeaves.n = cp.keyCount + 1) (pair : Heap.Pair) {sep : Bytes} (hsep : sep.length < 2 ^ 16) :
    Refines NodeBytes.store (fun s => s.Buffered ∧ s.keyCount = cp.keyCount + 1 ∧ s.children.n = s.keyCount + 1 ∧
        s.childLeaves.n = s.keyCount + 1)
      (cp.copyNode.bind fun c => (c.putPair cidx pair).bind fun c' => c'.insKey cidx sep)
      ((cp.store.putPair cidx pair).insKey cidx sep) := by
  have hcap : StaticVec.capacity = internalFanout + 1 := rfl
  obtain ⟨c, hc, hcbuf, hcstore⟩ := NodeBytes.copyNode_spec hbuf (by omega) (by omega)
  have hccount : c.keyCount = cp.keyCount := by rw [← NodeBytes.length_keys, hcstore, NodeBytes.length_keys]
  have hcchildren : c.children.n = cp.children.n :=
    (StaticVec.length_toList _).symm.trans ((congrArg (·.children.length) hcstore).trans (StaticVec.length_toList _))
  have hcleaves : c.childLeaves.n = cp.childLeaves.n :=
    (StaticVec.length_toList _).symm.trans ((congrArg (·.childLeaves.length) hcstore).trans (StaticVec.length_toList _))
  obtain ⟨c', hc', hbuf', hcount', hn, hn', hstore'⟩ := NodeBytes.putPair_spec hcbuf (show cidx < c.children.n by omega)
    (by omega) (by omega) (by omega) pair
  rw [hc, Option.bind_some, hc', Option.bind_some, ← hcstore, ← hstore']
  refine (NodeBytes.insKey_refines hbuf' (by omega) (by omega) hsep).mono fun s hs => ?_
  obtain ⟨hsbuf, hscount, hschildren, hsleaves⟩ := hs
  exact ⟨hsbuf, by omega, by rw [hschildren]; omega, by rw [hsleaves]; omega⟩

/-- The halves of an overfull copy. -/
theorem halves_refines {s : NodeBytes} (hbuf : s.Buffered) (hpos : 0 < s.keyCount) (hchildren : s.children.n = s.keyCount + 1)
    (hleaves : s.childLeaves.n = s.keyCount + 1) :
    Refines NodeBytes.store NodeBytes.Buffered (s.half 0 (s.keyCount / 2))
      ((Heap.Store.pushKeys (s.store.keys.take (s.keyCount / 2)) Heap.Store.empty).map fun ks => { ks with
        children := s.store.children.take (s.keyCount / 2 + 1)
        childLeaves := s.store.childLeaves.take (s.keyCount / 2 + 1) }) ∧
    Refines NodeBytes.store NodeBytes.Buffered (s.half (s.keyCount / 2 + 1) (s.keyCount - (s.keyCount / 2 + 1)))
      ((Heap.Store.pushKeys (s.store.keys.drop (s.keyCount / 2 + 1)) Heap.Store.empty).map fun ks => { ks with
        children := s.store.children.drop (s.keyCount / 2 + 1)
        childLeaves := s.store.childLeaves.drop (s.keyCount / 2 + 1) }) := by
  have hcount := hbuf.count
  have hchildren' : s.store.children.length = s.keyCount + 1 := (StaticVec.length_toList _).trans hchildren
  have hleaves' : s.store.childLeaves.length = s.keyCount + 1 := (StaticVec.length_toList _).trans hleaves
  constructor
  · have h := NodeBytes.half_refines hbuf (i := 0) (k := s.keyCount / 2) (by omega) (by omega) (by omega) (by omega)
    simp only [List.drop_zero] at h
    exact h
  · have h := NodeBytes.half_refines hbuf (i := s.keyCount / 2 + 1) (k := s.keyCount - (s.keyCount / 2 + 1)) (by omega)
      (by omega) (by omega) (by omega)
    have hk : (s.store.keys.drop (s.keyCount / 2 + 1)).take (s.keyCount - (s.keyCount / 2 + 1)) =
        s.store.keys.drop (s.keyCount / 2 + 1) :=
      List.take_of_length_le (by rw [List.length_drop, NodeBytes.length_keys])
    have hc : (s.store.children.drop (s.keyCount / 2 + 1)).take (s.keyCount - (s.keyCount / 2 + 1) + 1) =
        s.store.children.drop (s.keyCount / 2 + 1) := List.take_of_length_le (by rw [List.length_drop]; omega)
    have hl : (s.store.childLeaves.drop (s.keyCount / 2 + 1)).take (s.keyCount - (s.keyCount / 2 + 1) + 1) =
        s.store.childLeaves.drop (s.keyCount / 2 + 1) := List.take_of_length_le (by rw [List.length_drop]; omega)
    simp only [hk, hc, hl] at h
    exact h

theorem grown_refl {t : ByteTree} (hs : ∀ a, (t.nodes a).Buffered) : Grown t t where
  same := rfl
  buffered := hs
  grows := ⟨rfl, fun _ _ => rfl, Nat.le_refl _⟩

theorem setNode_buffered {t : ByteTree} (hs : ∀ a, (t.nodes a).Buffered) (a : ℕ) {s : NodeBytes} (h : s.Buffered) :
    ∀ x, ((t.setNode a s).nodes x).Buffered := by
  intro x
  show (if x = a then s else t.nodes x).Buffered
  split
  · exact h
  · exact hs x

/-- A new node. -/
theorem grown_newInternal {t : ByteTree} (hs : ∀ a, (t.nodes a).Buffered) {s : NodeBytes} (h : s.Buffered) :
    Grown t (t.newInternal.2.setNode t.newInternal.1 s) where
  same := rfl
  buffered := setNode_buffered (setNode_buffered hs _ NodeBytes.empty_buffered) _ h
  grows := by
    rw [heap_setNode, heap_newInternal]
    exact Heap.grows_newInternal t.heap s.store

/-- The two halves of an overfull node. -/
theorem grown_newHalves {t : ByteTree} (hs : ∀ a, (t.nodes a).Buffered) {l r : NodeBytes} (hl : l.Buffered)
    (hr : r.Buffered) :
    Grown t ((t.newInternal.2.newInternal.2.setNode t.newInternal.1 l).setNode t.newInternal.2.newInternal.1 r) where
  same := rfl
  buffered := setNode_buffered (setNode_buffered (setNode_buffered (setNode_buffered hs _ NodeBytes.empty_buffered) _
    NodeBytes.empty_buffered) _ hl) _ hr
  grows := by
    rw [heap_setNode, heap_setNode, heap_newInternal, heap_newInternal]
    exact Heap.grows_newHalves t.heap l.store r.store

/-- The copies in bytes stand for those of the model, and no write of the loop leaves an array but that of a separator
into a full buffer. -/
theorem ascend_refines {t : ByteTree} (hs : ∀ a, (t.nodes a).Buffered) {path : List (ℕ × ℕ)}
    (hpath : ∀ p ∈ path, t.heap.OnPath p) (pair : Heap.Pair) {sep : Bytes} (hsep : sep.length < 2 ^ 16) :
    Refines Ascent.heap (fun a => Grown t a.tree ∧ a.Ends path) (ascend path t pair sep) (Heap.ascend path t.heap pair sep) := by
  induction path generalizing t pair sep with
  | nil => exact Refines.pure rfl ⟨grown_refl hs, hsep⟩
  | cons p path ih =>
    obtain ⟨cp, cidx⟩ := p
    have hp := hpath (cp, cidx) List.mem_cons_self
    have hplace : cidx ≤ (t.nodes cp).store.keys.length := hp.place
    have hroom : (t.nodes cp).store.keys.length < internalFanout := hp.room
    have hchildren : (t.nodes cp).children.toList.length = (t.nodes cp).store.keys.length + 1 := hp.children
    have hleaves : (t.nodes cp).childLeaves.toList.length = (t.nodes cp).store.keys.length + 1 := hp.childLeaves
    rw [NodeBytes.length_keys] at hplace hroom hchildren hleaves
    rw [StaticVec.length_toList] at hchildren hleaves
    rw [ascend, Heap.ascend]
    refine (copy_refines (hs cp) hplace hroom hchildren hleaves pair hsep).bind fun s hbuf => ?_
    obtain ⟨hbuf, hcount, hc, hl⟩ := hbuf
    simp only [NodeBytes.length_keys]
    have hg := grown_newInternal hs hbuf
    by_cases hfits : s.keyCount < internalFanout
    · rw [if_pos hfits, if_pos hfits]
      refine Refines.pure ?_ ⟨hg, fun q hq => List.mem_cons_of_mem _ hq⟩
      rw [Ascent.heap, heap_setNode, heap_newInternal]
      rfl
    · rw [if_neg hfits, if_neg hfits]
      -- The copy is divided, and its halves are the pair for the rest of the path.
      obtain ⟨hleft, hright⟩ := halves_refines hbuf (by omega) hc hl
      have hmid : s.store.keys.getD (s.keyCount / 2) [] = s.keyStr (s.keyCount / 2) := by
        rw [NodeBytes.store, List.getD_eq_getElem?_getD, FixedArray.getElem?_front, if_pos (by omega), Option.getD_some]
      have hcopy : (t.newInternal.2.setNode t.newInternal.1 s).heap = t.heap.copyNode s.store := by
        rw [heap_setNode, heap_newInternal]
        rfl
      generalize t.newInternal.2.setNode t.newInternal.1 s = t₁ at hg hcopy
      have hnext : ∀ left right : NodeBytes, left.Buffered → right.Buffered →
          Refines Ascent.heap (fun a => Grown t a.tree ∧ a.Ends ((cp, cidx) :: path))
            (ascend path ((t₁.newInternal.2.newInternal.2.setNode t₁.newInternal.1 left).setNode
              t₁.newInternal.2.newInternal.1 right) (.nodes t₁.newInternal.1 t₁.newInternal.2.newInternal.1)
              (s.keyStr (s.keyCount / 2)))
            (Heap.ascend path ((t.heap.copyNode s.store).newHalves left.store right.store)
              (.nodes (t.heap.copyNode s.store).newInternal.1 (t.heap.copyNode s.store).newInternal.2.newInternal.1)
              (s.store.keys.getD (s.keyCount / 2) [])) := by
        intro left right hleftbuf hrightbuf
        have hg' := grown_newHalves hg.buffered hleftbuf hrightbuf
        have hrest := ih hg'.buffered (fun q hq => ((hpath q (List.mem_cons_of_mem _ hq)).grows hg.grows).grows hg'.grows)
          (.nodes t₁.newInternal.1 t₁.newInternal.2.newInternal.1) (hbuf.keyStr_lt (show s.keyCount / 2 < s.keyCount by omega))
        rw [heap_setNode, heap_setNode, heap_newInternal, heap_newInternal, hcopy] at hrest
        rw [hmid, ← hcopy]
        rw [← hcopy] at hrest
        exact hrest.mono fun a ha => ⟨(hg.trans hg').trans ha.1, ha.2.cons _⟩
      refine hleft.bind_of_map fun left ls hleftbuf hls => hright.bind_of_map fun right rs hrightbuf hrs => ?_
      rw [hls, hrs]
      exact hnext left right hleftbuf hrightbuf

end ByteTree

end Kvdb
