import Kvdb.MemTable.Retire

/-! # The memtable in memory (`bptree.hpp`)

`Nodes` has the tree as a value; here it is what the code works on: internal nodes with their two arrays of pointers
`children` and `child_leaves`, leaf pages with their `next` pointer, `root_` and `first_leaf_`. An address is a number.
`Insert` follows the path down (`FindLeafForWrite`), copies the leaf or splits it (`SplitCoW`), finds the leaf to the
left of it (`FindPredecessor`) and puts the new pages in place. The separators of a node share the buffer `key_data`,
which no function tests for its size: `InsKey` past its end is undefined, and the model stops there with `none`. -/
namespace Kvdb
set_option autoImplicit false

open Nodes (Node Retired internalFanout findChild)
open Retire (PendingRetire Table)

namespace Heap

def keyBufSize : ℕ := 1024

/-- `InternalNode::Store`; `keys` are the strings that `key_offs` and `key_lens` cut out of `key_data`. -/
structure Store where
  keys : List Bytes
  keyDataEnd : ℕ
  children : List (Option ℕ)
  childLeaves : List (Option ℕ)
  deriving DecidableEq, Repr

namespace Store

def empty : Store := ⟨[], 0, [], []⟩

def insKey (s : Store) (pos : ℕ) (k : Bytes) : Option Store :=
  if s.keyDataEnd + k.length ≤ keyBufSize then
    some { s with keys := s.keys.insertIdx pos k, keyDataEnd := s.keyDataEnd + k.length }
  else none

def pushKey (s : Store) (k : Bytes) : Option Store := s.insKey s.keys.length k

/-- The loops that push the separators of the two halves of a node. -/
def pushKeys : List Bytes → Store → Option Store
  | [], s => some s
  | k :: ks, s => (s.pushKey k).bind (pushKeys ks)

def setChild (s : Store) (i : ℕ) (c : Option ℕ) : Store := { s with children := s.children.set i c }
def setLeaf (s : Store) (i : ℕ) (l : Option ℕ) : Store := { s with childLeaves := s.childLeaves.set i l }
def insChild (s : Store) (pos : ℕ) (c : Option ℕ) : Store := { s with children := s.children.insertIdx pos c }
def insLeaf (s : Store) (pos : ℕ) (l : Option ℕ) : Store := { s with childLeaves := s.childLeaves.insertIdx pos l }
def pushChild (s : Store) (c : Option ℕ) : Store := { s with children := s.children ++ [c] }
def pushLeaf (s : Store) (l : Option ℕ) : Store := { s with childLeaves := s.childLeaves ++ [l] }

end Store

/-- `LeafPage` with its pointer to the next one. -/
structure Leaf where
  page : LeafPage
  next : Option ℕ

end Heap

/-- A `BPlusTree` and the memory it points into. -/
structure Heap where
  root : ℕ
  firstLeaf : ℕ
  nodes : ℕ → Heap.Store
  leaves : ℕ → Heap.Leaf
  alloc : Nodes.Alloc
  fenced : Bool
  retireSeq : ℕ
  pending : List PendingRetire
  freed : List ℕ

namespace Heap

def setNode (h : Heap) (a : ℕ) (s : Store) : Heap := { h with nodes := fun x => if x = a then s else h.nodes x }

def setLeaf (h : Heap) (a : ℕ) (l : Leaf) : Heap := { h with leaves := fun x => if x = a then l else h.leaves x }

/-- `NewLeaf`: the page is constructed in place. -/
def newLeaf (h : Heap) : ℕ × Heap :=
  (h.alloc.newLeaf.1, { h with alloc := h.alloc.newLeaf.2 }.setLeaf h.alloc.newLeaf.1 ⟨⟨[]⟩, none⟩)

/-- `NewInternal`. -/
def newInternal (h : Heap) : ℕ × Heap :=
  (h.alloc.newInternal.1, { h with alloc := h.alloc.newInternal.2 }.setNode h.alloc.newInternal.1 Store.empty)

/-! ## Retired pages

The queue of `RetireNode` and `RetireLeaf` and the pool are those of `Retire`, which does not look at the tree. -/

/-- The queue and the pool of a tree with these nodes. -/
def books (h : Heap) (root : Node) : Table :=
  ⟨root, h.alloc, h.fenced, h.retireSeq, h.pending, h.freed, fun _ => none, fun _ => 0⟩

def withBooks (h : Heap) (t : Table) : Heap :=
  { h with alloc := t.alloc, retireSeq := t.retireSeq, pending := t.pending, freed := t.freed }

def noTree : Node := .leaf 0 ⟨[]⟩

def retire (h : Heap) (clock : ℕ) (x : Retired) : Heap := h.withBooks ((h.books noTree).retire clock x)

def drainRetired (h : Heap) (minTs : ℕ) : Heap := h.withBooks ((h.books noTree).drainRetired minTs)

/-! ## The path to a leaf -/

/-- `FindLeafForWrite`: the leaf of the key, and the nodes above it with the position of the child, from the lowest one
up. -/
def findLeafForWrite (h : Heap) (key : Bytes) : ℕ → ℕ → List (ℕ × ℕ) → Option (ℕ × List (ℕ × ℕ))
  | 0, _, _ => none
  | fuel + 1, node, path =>
    let idx := findChild (h.nodes node).keys key
    match ((h.nodes node).children[idx]?).join with
    | some next => findLeafForWrite h key fuel next ((node, idx) :: path)
    | none => ((h.nodes node).childLeaves[idx]?).join.map fun leaf => (leaf, (node, idx) :: path)

/-- `FindLeaf`. -/
def findLeaf (h : Heap) (key : Bytes) : ℕ → ℕ → Option ℕ
  | 0, _ => none
  | fuel + 1, node =>
    let idx := findChild (h.nodes node).keys key
    match ((h.nodes node).children[idx]?).join with
    | some next => findLeaf h key fuel next
    | none => ((h.nodes node).childLeaves[idx]?).join

/-- The last leaf below a node. -/
def lastLeaf (h : Heap) : ℕ → ℕ → Option ℕ
  | 0, _ => none
  | fuel + 1, node =>
    match (h.nodes node).children.getLast?.join with
    | some next => lastLeaf h fuel next
    | none => (h.nodes node).childLeaves.getLast?.join

/-- `FindPredecessor`. -/
def findPredecessor (h : Heap) (fuel : ℕ) : List (ℕ × ℕ) → Option ℕ
  | [] => none
  | (node, idx) :: path =>
    if 0 < idx then
      match ((h.nodes node).children[idx - 1]?).join with
      | some child => lastLeaf h fuel child
      | none => ((h.nodes node).childLeaves[idx - 1]?).join
    else findPredecessor h fuel path

/-- The pointer to the new page in the leaf chain. -/
def relink (h : Heap) (pred : Option ℕ) (page : ℕ) : Heap :=
  match pred with
  | some p => h.setLeaf p { h.leaves p with next := some page }
  | none => { h with firstLeaf := page }

/-! ## Splits -/

/-- The two pages of a split: `cur_leaf_l` and `cur_leaf_r`, or `cur_node_l` and `cur_node_r`. -/
inductive Pair where
  | leaves (l r : ℕ)
  | nodes (l r : ℕ)

/-- The pointers to a pair in the copy of a node. -/
def Store.putPair (s : Store) (idx : ℕ) : Pair → Store
  | .leaves l r =>
    (((s.setChild idx none).setLeaf idx (some l)).insChild (idx + 1) none).insLeaf (idx + 1) (some r)
  | .nodes l r =>
    (((s.setChild idx (some l)).setLeaf idx none).insChild (idx + 1) (some r)).insLeaf (idx + 1) none

/-- How the loop of `SplitCoW` ends: with the node `saved_nn` below the rest of the path, or above the root. -/
inductive Ascent where
  | placed (heap : Heap) (saved : ℕ) (up : List (ℕ × ℕ))
  | top (heap : Heap) (pair : Pair) (sep : Bytes)

/-- The loop of `SplitCoW`. -/
def ascend : List (ℕ × ℕ) → Heap → Pair → Bytes → Option Ascent
  | [], h, pair, sep => some (.top h pair sep)
  | (cp, cidx) :: up, h, pair, sep =>
    let nn := h.newInternal
    (((h.nodes cp).putPair cidx pair).insKey cidx sep).bind fun s =>
      let h2 := nn.2.setNode nn.1 s
      if s.keys.length < internalFanout then some (.placed h2 nn.1 up)
      else
        let mid := s.keys.length / 2
        let l := h2.newInternal
        let r := l.2.newInternal
        (Store.pushKeys (s.keys.take mid) Store.empty).bind fun ls =>
          (Store.pushKeys (s.keys.drop (mid + 1)) Store.empty).bind fun rs =>
            let left := { ls with children := s.children.take (mid + 1), childLeaves := s.childLeaves.take (mid + 1) }
            let right := { rs with children := s.children.drop (mid + 1), childLeaves := s.childLeaves.drop (mid + 1) }
            ascend up ((r.2.setNode l.1 left).setNode r.1 right) (.nodes l.1 r.1) (s.keys.getD mid [])

/-- The end of `SplitCoW`: one pointer is replaced, and the old node is retired. -/
def replaceRoot (h : Heap) (clock : ℕ) (saved : ℕ) : List (ℕ × ℕ) → Heap
  | [] => { h with root := saved }.retire clock ⟨h.root, true⟩
  | (lock, idx) :: _ =>
    let swapped := h.setNode lock ((h.nodes lock).setChild idx (some saved))
    match ((h.nodes lock).children[idx]?).join with
    | some old => swapped.retire clock ⟨old, true⟩
    | none => swapped

/-- The root that `SplitCoW` puts above a pair. -/
def newRoot (h : Heap) (pair : Pair) (sep : Bytes) : Option Heap :=
  let nr := h.newInternal
  (Store.empty.pushKey sep).map fun s =>
    let s' := match pair with
      | .leaves l r => (((s.pushChild none).pushLeaf (some l)).pushChild none).pushLeaf (some r)
      | .nodes l r => (((s.pushChild (some l)).pushLeaf none).pushChild (some r)).pushLeaf none
    { nr.2.setNode nr.1 s' with root := nr.1 }

/-- The leaves that `SplitCoW` prepares for the halves of a leaf. -/
def prepareLeaves (h : Heap) (leaf : ℕ) (halves : LeafPage × LeafPage) : Heap × ℕ × ℕ :=
  let left := h.newLeaf
  let right := left.2.newLeaf
  ((right.2.setLeaf left.1 ⟨halves.1, some right.1⟩).setLeaf right.1 ⟨halves.2, (h.leaves leaf).next⟩, left.1, right.1)

/-- The part of `SplitCoW` that readers see: the new leaves in the chain, and one pointer to the new nodes. -/
def publish (clock leaf left : ℕ) (path : List (ℕ × ℕ)) : Ascent → Option Heap
  | .placed h saved up =>
    let pred := h.findPredecessor h.alloc.next path
    some (((h.relink pred left).replaceRoot clock saved up).retire clock ⟨leaf, false⟩)
  | .top h pair sep =>
    let pred := h.findPredecessor h.alloc.next path
    ((h.relink pred left).newRoot pair sep).map fun h' => h'.retire clock ⟨leaf, false⟩

/-- `SplitCoW`. -/
def splitCoW (h : Heap) (clock : ℕ) (leaf : ℕ) (path : List (ℕ × ℕ)) (e : KeyValuePair) (pos : ℕ) : Option Heap :=
  let halves := (h.leaves leaf).page.splitLeaf pos e
  let new := h.prepareLeaves leaf halves
  (ascend path new.1 (.leaves new.2.1 new.2.2) halves.2.firstKey).bind (publish clock leaf new.2.1 path)

/-! ## The tree -/

/-- The constructor. -/
def new (fenced : Bool) : Heap where
  root := 1
  firstLeaf := 0
  nodes := fun _ => ⟨[], 0, [none], [some 0]⟩
  leaves := fun _ => ⟨⟨[]⟩, none⟩
  alloc := ⟨[], 2⟩
  fenced := fenced
  retireSeq := 1
  pending := []
  freed := []

/-- The pages of `Insert` up to `DrainRetired`. -/
def place (h : Heap) (clock : ℕ) (e : KeyValuePair) : Option Heap :=
  (h.findLeafForWrite e.key h.alloc.next h.root []).bind fun found =>
    let leaf := h.leaves found.1
    let pos := leaf.page.find e.key
    let nleaf := h.newLeaf
    match leaf.page.insertEntry pos e with
    | some page =>
      let h1 := nleaf.2.setLeaf nleaf.1 ⟨page, leaf.next⟩
      let h2 := h1.relink (h1.findPredecessor h1.alloc.next found.2) nleaf.1
      match found.2 with
      | (parent, idx) :: _ =>
        some ((h2.setNode parent ((h2.nodes parent).setLeaf idx (some nleaf.1))).retire clock ⟨found.1, false⟩)
      | [] =>
        let nr := h2.newInternal
        let h3 := { nr.2.setNode nr.1 (Store.empty.pushLeaf (some nleaf.1)) with root := nr.1 }
        some ((h3.retire clock ⟨h2.root, true⟩).retire clock ⟨found.1, false⟩)
    | none => (nleaf.2.setLeaf nleaf.1 ⟨leaf.page, leaf.next⟩).splitCoW clock found.1 found.2 e pos

/-- `Insert`; `clock` is the value of the fence source, and a tree without one drains its queue. -/
def insert (h : Heap) (clock : ℕ) (e : KeyValuePair) : Option Heap :=
  (h.place clock e).map fun h' => if h'.fenced then h' else h'.drainRetired (2 ^ 64 - 1)

/-- A sequence of insertions, each with the clock it reads. -/
def inserts (h : Heap) : List (ℕ × KeyValuePair) → Option Heap
  | [] => some h
  | (clock, e) :: es => (h.insert clock e).bind fun h' => inserts h' es

/-- The version that `Lookup` stops at. -/
def lookupVersion (h : Heap) (aborted : List ℕ) (key : Bytes) (readTs : ℕ) : Option KeyValuePair :=
  (h.findLeaf key h.alloc.next h.root).bind fun a =>
    let leaf := (h.leaves a).page
    if leaf.found key then BPlusTree.scanVersions aborted readTs key (leaf.slots.drop (leaf.find key)) else none

/-- `Lookup`: a tombstone answers `false`, as an absent key does. -/
def lookup (h : Heap) (aborted : List ℕ) (key : Bytes) (readTs : ℕ) : Option Bytes :=
  match h.lookupVersion aborted key readTs with
  | some e => if e.isTombstone then none else some e.value
  | none => none

/-- The loop of `Export` from a leaf on. -/
def exportFrom (h : Heap) : ℕ → Option ℕ → List KeyValuePair
  | fuel + 1, some a => (h.leaves a).page.slots ++ exportFrom h fuel (h.leaves a).next
  | _, _ => []

/-- `Export`. -/
def exportAll (h : Heap) : List KeyValuePair := h.exportFrom h.alloc.next (some h.firstLeaf)

end Heap

end Kvdb
