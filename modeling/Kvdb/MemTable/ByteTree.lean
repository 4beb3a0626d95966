import Kvdb.MemTable.Inserts
import Kvdb.MemTable.NodeBytes
import Kvdb.MemTable.PageSplit

/-! # The memtable in bytes (`bptree.hpp`)

`Heap` has the tree in memory with its nodes and pages as lists of keys and of slots; here they are the bytes that the code
reads and writes. A large value is in a blob, a memory of its own that begins with the size, and `blob_ptrs_` has the
pointers that the destructor frees. A write behind the end of an array of a node has no result. -/
namespace Kvdb
set_option autoImplicit false

open LittleEndian Region PageBytes
open Nodes (Node Retired internalFanout)
open Retire (PendingRetire Table)
open Heap (Pair)

/-- `LeafPage` with its pointer to the next one. -/
structure ByteLeaf where
  page : LeafBytes
  next : Option ℕ

/-- A `BPlusTree` and the memory it points into. The blobs are numbered in the order of their allocation. -/
structure ByteTree where
  root : ℕ
  firstLeaf : ℕ
  nodes : ℕ → NodeBytes
  leaves : ℕ → ByteLeaf
  alloc : Nodes.Alloc
  fenced : Bool
  retireSeq : ℕ
  pending : List PendingRetire
  freed : List ℕ
  blobs : ℕ → Bytes
  nextBlob : ℕ
  blobPtrs : List ℕ

namespace ByteTree

def setNode (t : ByteTree) (a : ℕ) (s : NodeBytes) : ByteTree :=
  { t with nodes := fun x => if x = a then s else t.nodes x }

def setLeaf (t : ByteTree) (a : ℕ) (l : ByteLeaf) : ByteTree :=
  { t with leaves := fun x => if x = a then l else t.leaves x }

/-- `NewLeaf`: the header is constructed in place, and the data keeps what the memory held. -/
def newLeaf (t : ByteTree) : ℕ × ByteTree :=
  let a := t.alloc.newLeaf.1
  (a, { t with alloc := t.alloc.newLeaf.2 }.setLeaf a ⟨LeafBytes.empty (t.leaves a).page.raw, none⟩)

/-- `NewInternal`. -/
def newInternal (t : ByteTree) : ℕ × ByteTree :=
  (t.alloc.newInternal.1, { t with alloc := t.alloc.newInternal.2 }.setNode t.alloc.newInternal.1 NodeBytes.empty)

/-! ## Retired pages -/

def books (t : ByteTree) : Table :=
  ⟨Heap.noTree, t.alloc, t.fenced, t.retireSeq, t.pending, t.freed, fun _ => none, fun _ => 0⟩

def withBooks (t : ByteTree) (b : Table) : ByteTree :=
  { t with alloc := b.alloc, retireSeq := b.retireSeq, pending := b.pending, freed := b.freed }

/-- `RetireNode` and `RetireLeaf`. -/
def retire (t : ByteTree) (clock : ℕ) (x : Retired) : ByteTree := t.withBooks (t.books.retire clock x)

/-- `DrainRetired`. -/
def drainRetired (t : ByteTree) (minTs : ℕ) : ByteTree := t.withBooks (t.books.drainRetired minTs)

/-! ## Blobs -/

/-- What is read of a blob: its size, and then as many bytes. -/
def blobValue (t : ByteTree) (b : ℕ) : Bytes := ((t.blobs b).drop 8).take (ofLe ((t.blobs b).take 8))

/-- The blob that `InsertEntry` allocates. -/
def addBlob (t : ByteTree) (value : Bytes) : ByteTree :=
  { t with blobs := Function.update t.blobs t.nextBlob (leBytes 8 value.length ++ value), nextBlob := t.nextBlob + 1 }

/-- The pointer that is read from a record and put into `blob_ptrs_`. -/
def addBlobPtr (t : ByteTree) (p : LeafBytes) (i : ℕ) : ByteTree :=
  { t with blobPtrs := t.blobPtrs.insert (ofLe (read p.raw (p.offset i + p.keyLen i) 8)) }

/-- The entry as `InsertEntry` stores it. -/
def entryOf (t : ByteTree) (e : KeyValuePair) : PageEntry :=
  ⟨e.key, if LeafPage.largeValue e.value then .blob t.nextBlob else .inline e.value, e.timestamp, e.isTombstone⟩

/-! ## The path to a leaf -/

/-- `FindLeafForWrite`. -/
def findLeafForWrite (t : ByteTree) (key : Bytes) : ℕ → ℕ → List (ℕ × ℕ) → Option (ℕ × List (ℕ × ℕ))
  | 0, _, _ => none
  | fuel + 1, node, path =>
    let idx := (t.nodes node).findChild key
    match (t.nodes node).children.get idx with
    | some next => findLeafForWrite t key fuel next ((node, idx) :: path)
    | none => ((t.nodes node).childLeaves.get idx).map fun leaf => (leaf, (node, idx) :: path)

/-- `FindLeaf`. -/
def findLeaf (t : ByteTree) (key : Bytes) : ℕ → ℕ → Option ℕ
  | 0, _ => none
  | fuel + 1, node =>
    let idx := (t.nodes node).findChild key
    match (t.nodes node).children.get idx with
    | some next => findLeaf t key fuel next
    | none => (t.nodes node).childLeaves.get idx

/-- The last leaf below a node. -/
def lastLeaf (t : ByteTree) : ℕ → ℕ → Option ℕ
  | 0, _ => none
  | fuel + 1, node =>
    match (t.nodes node).children.get ((t.nodes node).children.n - 1) with
    | some next => lastLeaf t fuel next
    | none => (t.nodes node).childLeaves.get ((t.nodes node).childLeaves.n - 1)

/-- `FindPredecessor`. -/
def findPredecessor (t : ByteTree) (fuel : ℕ) : List (ℕ × ℕ) → Option ℕ
  | [] => none
  | (node, idx) :: path =>
    if 0 < idx then
      match (t.nodes node).children.data (idx - 1) with
      | some child => lastLeaf t fuel child
      | none => (t.nodes node).childLeaves.data (idx - 1)
    else findPredecessor t fuel path

def relink (t : ByteTree) (pred : Option ℕ) (page : ℕ) : ByteTree :=
  match pred with
  | some p => t.setLeaf p { t.leaves p with next := some page }
  | none => { t with firstLeaf := page }

/-! ## Splits -/

/-- How the loop of `SplitCoW` ends. -/
inductive Ascent where
  | placed (tree : ByteTree) (saved : ℕ) (up : List (ℕ × ℕ))
  | top (tree : ByteTree) (pair : Pair) (sep : Bytes)

/-- The loop of `SplitCoW`. -/
def ascend : List (ℕ × ℕ) → ByteTree → Pair → Bytes → Option Ascent
  | [], t, pair, sep => some (.top t pair sep)
  | (cp, cidx) :: up, t, pair, sep =>
    let nn := t.newInternal
    ((t.nodes cp).copyNode.bind fun c => (c.putPair cidx pair).bind fun c' => c'.insKey cidx sep).bind fun s =>
      let t2 := nn.2.setNode nn.1 s
      if s.keyCount < internalFanout then some (.placed t2 nn.1 up)
      else
        let mid := s.keyCount / 2
        let l := t2.newInternal
        let r := l.2.newInternal
        (s.half 0 mid).bind fun left =>
          (s.half (mid + 1) (s.keyCount - (mid + 1))).bind fun right =>
            ascend up ((r.2.setNode l.1 left).setNode r.1 right) (.nodes l.1 r.1) (s.keyStr mid)

/-- The end of `SplitCoW`: one pointer is replaced, and the old node is retired. -/
def replaceRoot (t : ByteTree) (clock : ℕ) (saved : ℕ) : List (ℕ × ℕ) → ByteTree
  | [] => { t with root := saved }.retire clock ⟨t.root, true⟩
  | (lock, idx) :: _ =>
    let swapped := t.setNode lock ((t.nodes lock).setChild idx (some saved))
    match (t.nodes lock).children.data idx with
    | some old => swapped.retire clock ⟨old, true⟩
    | none => swapped

/-- The root that `SplitCoW` puts above a pair. -/
def newRoot (t : ByteTree) (pair : Pair) (sep : Bytes) : Option ByteTree :=
  let nr := t.newInternal
  ((NodeBytes.empty.pushKey sep).bind fun s => s.pushPair pair).map fun s => { nr.2.setNode nr.1 s with root := nr.1 }

/-- The leaves that `SplitCoW` prepares, with the blob of the entry and the pointer that is read back. -/
def prepareLeaves (t : ByteTree) (leaf : ℕ) (e : KeyValuePair) (pos : ℕ) : ByteTree × ℕ × ℕ :=
  let left := t.newLeaf
  let right := left.2.newLeaf
  let old := (t.leaves leaf).page
  let halves := old.splitLeaf (left.2.leaves left.1).page (right.2.leaves right.1).page pos (t.entryOf e)
  let pages := (right.2.setLeaf left.1 ⟨halves.1.1, some right.1⟩).setLeaf right.1 ⟨halves.1.2, (t.leaves leaf).next⟩
  let stored := if halves.2 && LeafPage.largeValue e.value then pages.addBlob e.value else pages
  let mid := old.count / 2
  let listed :=
    if LeafPage.largeValue e.value then
      if pos < mid then stored.addBlobPtr halves.1.1 pos else stored.addBlobPtr halves.1.2 (pos - mid)
    else stored
  (listed, left.1, right.1)

/-- The part of `SplitCoW` that readers see. -/
def publish (clock leaf left : ℕ) (path : List (ℕ × ℕ)) : Ascent → Option ByteTree
  | .placed t saved up =>
    let pred := t.findPredecessor t.alloc.next path
    some (((t.relink pred left).replaceRoot clock saved up).retire clock ⟨leaf, false⟩)
  | .top t pair sep =>
    let pred := t.findPredecessor t.alloc.next path
    ((t.relink pred left).newRoot pair sep).map fun t' => t'.retire clock ⟨leaf, false⟩

/-- `SplitCoW`. -/
def splitCoW (t : ByteTree) (clock : ℕ) (leaf : ℕ) (path : List (ℕ × ℕ)) (e : KeyValuePair) (pos : ℕ) : Option ByteTree :=
  let new := t.prepareLeaves leaf e pos
  (ascend path new.1 (.leaves new.2.1 new.2.2) ((new.1.leaves new.2.2).page.keyAt 0)).bind
    (publish clock leaf new.2.1 path)

/-! ## The tree -/

/-- The constructor, in a memory with any contents. -/
def new (fenced : Bool) (raw : ℕ → UInt8) : ByteTree where
  root := 1
  firstLeaf := 0
  nodes := fun _ => { NodeBytes.empty with
    children := ⟨fun _ => none, 1⟩
    childLeaves := ⟨Function.update (fun _ => none) 0 (some 0), 1⟩ }
  leaves := fun _ => ⟨LeafBytes.empty raw, none⟩
  alloc := ⟨[], 2⟩
  fenced := fenced
  retireSeq := 1
  pending := []
  freed := []
  blobs := fun _ => []
  nextBlob := 0
  blobPtrs := []

/-- The copy of the leaf in `Insert`, with the blob of the entry and the pointer that is read back. -/
def withCopy (t : ByteTree) (e : KeyValuePair) (page : LeafBytes) (next : Option ℕ) (pos : ℕ) : ByteTree :=
  let t0 := t.newLeaf.2.setLeaf t.newLeaf.1 ⟨page, next⟩
  if LeafPage.largeValue e.value then (t0.addBlob e.value).addBlobPtr page pos else t0

/-- The new pointers to the copy. -/
def linkCopy (t : ByteTree) (clock leaf nleaf : ℕ) (path : List (ℕ × ℕ)) : Option ByteTree :=
  let t' := t.relink (t.findPredecessor t.alloc.next path) nleaf
  match path with
  | (parent, idx) :: _ =>
    some ((t'.setNode parent ((t'.nodes parent).setLeaf idx (some nleaf))).retire clock ⟨leaf, false⟩)
  | [] =>
    let nr := t'.newInternal
    (NodeBytes.empty.pushLeaf (some nleaf)).map fun s =>
      ({ nr.2.setNode nr.1 s with root := nr.1 }.retire clock ⟨t'.root, true⟩).retire clock ⟨leaf, false⟩

/-- The pages of `Insert` up to `DrainRetired`. -/
def place (t : ByteTree) (clock : ℕ) (e : KeyValuePair) : Option ByteTree :=
  (t.findLeafForWrite e.key t.alloc.next t.root []).bind fun found =>
    let leaf := t.leaves found.1
    let pos := leaf.page.find e.key
    let nleaf := t.newLeaf
    let copy := (nleaf.2.leaves nleaf.1).page.copyLeafContent leaf.page
    let ins := copy.insertEntry pos (t.entryOf e)
    if ins.2 then (t.withCopy e ins.1 leaf.next pos).linkCopy clock found.1 nleaf.1 found.2
    else (nleaf.2.setLeaf nleaf.1 ⟨copy, leaf.next⟩).splitCoW clock found.1 found.2 e pos

/-- `Insert`; `clock` is the value of the fence source, and a tree without one drains its queue. -/
def insert (t : ByteTree) (clock : ℕ) (e : KeyValuePair) : Option ByteTree :=
  (t.place clock e).map fun t' => if t'.fenced then t' else t'.drainRetired (2 ^ 64 - 1)

/-- A sequence of insertions, each with the clock it reads. -/
def inserts (t : ByteTree) : List (ℕ × KeyValuePair) → Option ByteTree
  | [] => some t
  | (clock, e) :: es => (t.insert clock e).bind fun t' => inserts t' es

/-- The version that `Lookup` stops at. -/
def lookupVersion (t : ByteTree) (aborted : List ℕ) (key : Bytes) (readTs : ℕ) : Option KeyValuePair :=
  (t.findLeaf key t.alloc.next t.root).bind fun a =>
    let leaf := (t.leaves a).page
    if leaf.found key then
      leaf.scanVersions t.blobValue aborted readTs key (leaf.count - leaf.find key) (leaf.find key)
    else none

/-- `Lookup`. -/
def lookup (t : ByteTree) (aborted : List ℕ) (key : Bytes) (readTs : ℕ) : Option Bytes :=
  match t.lookupVersion aborted key readTs with
  | some e => if e.isTombstone then none else some e.value
  | none => none

/-- The loop of `Export` from a leaf on. -/
def exportFrom (t : ByteTree) : ℕ → Option ℕ → List KeyValuePair
  | fuel + 1, some a =>
    (List.range (t.leaves a).page.count).map ((t.leaves a).page.versionAt t.blobValue) ++
      exportFrom t fuel (t.leaves a).next
  | _, _ => []

/-- `Export`. -/
def exportAll (t : ByteTree) : List KeyValuePair := t.exportFrom t.alloc.next (some t.firstLeaf)

end ByteTree

end Kvdb
