import Kvdb.Base.Types
import Kvdb.Lib.Bisect

/-! # The memtable (`bptree.hpp`, `memtable.cpp`)

`LeafPage` is a slotted page given by its slots in directory order; its free space is what the page
header computes. `BPlusTree` is the leaf chain from `first_leaf_` together with the separators that
route a key to its leaf: `FindChild` takes the child after the last separator not above the key, so
the internal levels act as the separators in key order. How the separators are grouped into nodes
of fanout 16 is not kept.

`insertInto` is `Insert` with its copy-on-write leaf or `SplitCoW`, including the fallback that
appends a new entry to the wrong half when its own half has no room, and the case where neither
half has room and the entry is lost. `memTableWalk` follows the leaf chain as the flush does. -/
namespace Kvdb
set_option autoImplicit false

/-- A slot directory: the slots of a leaf page from position 0. -/
structure LeafPage where
  slots : List KeyValuePair
  deriving DecidableEq, Repr

namespace LeafPage

/-- `value.size() > kPageSize / 2`: the value is kept in a separate blob. -/
def largeValue (value : Bytes) : Bool := decide (Config.pageSize / 2 < value.length)

/-- Bytes of the record of an entry inside the page. -/
def recSize (e : KeyValuePair) : ℕ :=
  e.key.length + if largeValue e.value then 8 else e.value.length

def slotSize : ℕ := 14

/-- `Free()`: `data_start - slot_end`, the 4072 data bytes less the records and the slots. -/
def free (leaf : LeafPage) : ℕ := 4072 - (leaf.slots.map fun e => recSize e + slotSize).sum

/-- `Find`: the position the binary search ends at. The source's `hi` is inclusive. -/
def find (leaf : LeafPage) (key : Bytes) : ℕ :=
  Bisect.bisect (fun e : KeyValuePair => decide (key ≤ e.key)) (fun lo hi => (lo + (hi - 1)) / 2)
    leaf.slots leaf.slots.length 0 leaf.slots.length

/-- The Boolean that `Find` returns. -/
def found (leaf : LeafPage) (key : Bytes) : Bool :=
  match leaf.slots[leaf.find key]? with
  | some e => decide (e.key = key)
  | none => false

/-- `InsertEntry`: `none` when the page has no room. -/
def insertEntry (leaf : LeafPage) (pos : ℕ) (e : KeyValuePair) : Option LeafPage :=
  if leaf.free < recSize e + slotSize then none else some ⟨leaf.slots.insertIdx pos e⟩

/-- The halves that `SplitCoW` copies a full leaf into. -/
def leftHalf (leaf : LeafPage) : LeafPage := ⟨leaf.slots.take (leaf.slots.length / 2)⟩
def rightHalf (leaf : LeafPage) : LeafPage := ⟨leaf.slots.drop (leaf.slots.length / 2)⟩

/-- The leaf part of `SplitCoW`: the new entry goes to the half of its position, or to the end of
the other half, or nowhere. -/
def splitLeaf (leaf : LeafPage) (pos : ℕ) (e : KeyValuePair) : LeafPage × LeafPage :=
  let mid := leaf.slots.length / 2
  let left := leaf.leftHalf
  let right := leaf.rightHalf
  if pos < mid then
    match left.insertEntry pos e with
    | some left' => (left', right)
    | none =>
      match right.insertEntry right.slots.length e with
      | some right' => (left, right')
      | none => (left, right)
  else
    match right.insertEntry (pos - mid) e with
    | some right' => (left, right')
    | none =>
      match left.insertEntry left.slots.length e with
      | some left' => (left', right)
      | none => (left, right)

/-- The separator of a split: the first key of the right page. -/
def firstKey (leaf : LeafPage) : Bytes := (leaf.slots.head?.map KeyValuePair.key).getD []

/-- The entry finds room in its leaf, or in the half its position falls in, and then no key has
versions in both halves. -/
def Placed (leaf : LeafPage) (e : KeyValuePair) : Prop :=
  (leaf.insertEntry (leaf.find e.key) e).isSome = true ∨
  ((if leaf.find e.key < leaf.slots.length / 2
      then (leaf.leftHalf.insertEntry (leaf.find e.key) e).isSome
      else (leaf.rightHalf.insertEntry (leaf.find e.key - leaf.slots.length / 2) e).isSome) = true ∧
    ∀ a ∈ (leaf.splitLeaf (leaf.find e.key) e).1.slots,
      ∀ b ∈ (leaf.splitLeaf (leaf.find e.key) e).2.slots, a.key ≠ b.key)

/-- Some page takes the entry. -/
def Kept (leaf : LeafPage) (e : KeyValuePair) : Prop :=
  (leaf.insertEntry (leaf.find e.key) e).isSome = true ∨
    LeafPage.recSize e + slotSize ≤ leaf.leftHalf.free ∨
    LeafPage.recSize e + slotSize ≤ leaf.rightHalf.free

instance decidablePlaced (leaf : LeafPage) (e : KeyValuePair) : Decidable (leaf.Placed e) :=
  inferInstanceAs (Decidable (_ ∨ _))

instance decidableKept (leaf : LeafPage) (e : KeyValuePair) : Decidable (leaf.Kept e) :=
  inferInstanceAs (Decidable (_ ∨ _))

end LeafPage

/-- The leaf chain: the first leaf, then each further leaf with the separator to its left. -/
structure BPlusTree where
  firstLeaf : LeafPage
  rest : List (Bytes × LeafPage)
  count : ℕ
  memoryUsage : ℕ
  abortedBatchTs : List ℕ
  deriving DecidableEq, Repr

namespace BPlusTree

def empty : BPlusTree := ⟨⟨[]⟩, [], 0, 0, []⟩

/-- `FindLeaf`. -/
def findLeaf (key : Bytes) : LeafPage → List (Bytes × LeafPage) → LeafPage
  | leaf, [] => leaf
  | leaf, (sep, right) :: rest => if sep ≤ key then findLeaf key right rest else leaf

/-- Replace a leaf by its copy with the entry, or by the two pages of a split. -/
def replaceLeaf (e : KeyValuePair) (leaf : LeafPage) (rest : List (Bytes × LeafPage)) :
    LeafPage × List (Bytes × LeafPage) :=
  match leaf.insertEntry (leaf.find e.key) e with
  | some leaf' => (leaf', rest)
  | none =>
    let halves := leaf.splitLeaf (leaf.find e.key) e
    (halves.1, (halves.2.firstKey, halves.2) :: rest)

/-- The chain after `Insert`: the leaf that the key is routed to is replaced. -/
def insertInto (e : KeyValuePair) :
    LeafPage → List (Bytes × LeafPage) → LeafPage × List (Bytes × LeafPage)
  | leaf, [] => replaceLeaf e leaf []
  | leaf, (sep, right) :: rest =>
    if sep ≤ e.key then
      let chain := insertInto e right rest
      (leaf, (sep, chain.1) :: chain.2)
    else replaceLeaf e leaf ((sep, right) :: rest)

/-- `Insert`: `count_` counts the keys that `Find` did not find, `memory_usage_` every entry. -/
def insert (t : BPlusTree) (e : KeyValuePair) : BPlusTree :=
  let leaf := findLeaf e.key t.firstLeaf t.rest
  let chain := insertInto e t.firstLeaf t.rest
  { t with
    firstLeaf := chain.1
    rest := chain.2
    count := if leaf.found e.key then t.count else t.count + 1
    memoryUsage := t.memoryUsage + (e.key.length + e.value.length + Config.memTableEntryOverheadBytes) }

/-- The loop of `Lookup` over the slots from `idx` on. -/
def scanVersions (aborted : List ℕ) (readTs : ℕ) (key : Bytes) : List KeyValuePair → Option KeyValuePair
  | [] => none
  | e :: es =>
    if e.key ≠ key then none
    else if e.timestamp ∈ aborted then scanVersions aborted readTs key es
    else if e.timestamp ≤ readTs then some e
    else scanVersions aborted readTs key es

/-- The version that `Lookup` stops at. -/
def lookupVersion (t : BPlusTree) (key : Bytes) (readTs : ℕ) : Option KeyValuePair :=
  let leaf := findLeaf key t.firstLeaf t.rest
  if leaf.found key then
    scanVersions t.abortedBatchTs readTs key (leaf.slots.drop (leaf.find key))
  else none

/-- `Lookup`: a tombstone answers `false`, as an absent key does. -/
def lookup (t : BPlusTree) (key : Bytes) (readTs : ℕ) : Option Bytes :=
  match t.lookupVersion key readTs with
  | some e => if e.isTombstone then none else some e.value
  | none => none

/-- The pages of the chain from `first_leaf_`. -/
def leaves (t : BPlusTree) : List (List KeyValuePair) :=
  t.firstLeaf.slots :: t.rest.map fun p => p.2.slots

/-- The slots of a chain in order. -/
def chainEntries (leaf : LeafPage) (rest : List (Bytes × LeafPage)) : List KeyValuePair :=
  leaf.slots ++ rest.flatMap fun p => p.2.slots

def entries (t : BPlusTree) : List KeyValuePair := chainEntries t.firstLeaf t.rest

/-- `Insert` finds its place for the entry (`LeafPage.Placed`). -/
def Placed (t : BPlusTree) (e : KeyValuePair) : Prop := (findLeaf e.key t.firstLeaf t.rest).Placed e

/-- `Insert` does not lose the entry. -/
def Kept (t : BPlusTree) (e : KeyValuePair) : Prop := (findLeaf e.key t.firstLeaf t.rest).Kept e

instance decidablePlaced (t : BPlusTree) (e : KeyValuePair) : Decidable (t.Placed e) :=
  inferInstanceAs (Decidable ((findLeaf e.key t.firstLeaf t.rest).Placed e))

instance decidableKept (t : BPlusTree) (e : KeyValuePair) : Decidable (t.Kept e) :=
  inferInstanceAs (Decidable ((findLeaf e.key t.firstLeaf t.rest).Kept e))

/-! ## The walk that a flush reads

The state is what is left of the current page, then the pages after it; `[]` is a null `leaf_`. -/

def skipEmpty (pages : List (List KeyValuePair)) : List (List KeyValuePair) :=
  pages.dropWhile List.isEmpty

def skipAborted (aborted : List ℕ) (page : List KeyValuePair) : List KeyValuePair :=
  page.dropWhile fun e => decide (e.timestamp ∈ aborted)

/-- The constructor of `MemTableWalk`. -/
def walkBegin (aborted : List ℕ) (pages : List (List KeyValuePair)) : List (List KeyValuePair) :=
  match skipEmpty pages with
  | [] => []
  | page :: rest =>
    if (skipAborted aborted page).isEmpty then rest else skipAborted aborted page :: rest

/-- `MemTableWalk::Next`, from a page whose current entry has been dropped. -/
def walkNext (aborted : List ℕ) (pages : List (List KeyValuePair)) : List (List KeyValuePair) :=
  match pages with
  | [] => []
  | page :: rest =>
    match (if page.isEmpty then skipEmpty rest else page :: rest) with
    | [] => []
    | page' :: rest' =>
      if (skipAborted aborted page').isEmpty then skipEmpty rest' else skipAborted aborted page' :: rest'

/-- The entries the walk yields while `Valid()`. -/
def walkList (aborted : List ℕ) : ℕ → List (List KeyValuePair) → List KeyValuePair
  | fuel + 1, (e :: page) :: rest => e :: walkList aborted fuel (walkNext aborted (page :: rest))
  | _, _ => []

def memTableWalk (t : BPlusTree) : List KeyValuePair :=
  walkList t.abortedBatchTs t.entries.length (walkBegin t.abortedBatchTs t.leaves)

end BPlusTree

/-- `MemTable` (memtable.hpp). -/
structure MemTable where
  tree : BPlusTree
  id : ℕ
  maxBytes : ℕ
  frozen : Bool
  deriving DecidableEq, Repr

namespace MemTable

def new (id maxBytes : ℕ) : MemTable := ⟨BPlusTree.empty, id, maxBytes, false⟩

def insert (m : MemTable) (key value : Bytes) (timestamp : ℕ) (isTombstone : Bool) : MemTable :=
  if m.frozen then m else { m with tree := m.tree.insert ⟨key, value, timestamp, isTombstone⟩ }

def lookup (m : MemTable) (key : Bytes) (readTs : ℕ) : Option Bytes := m.tree.lookup key readTs

def isFull (m : MemTable) : Bool := decide (m.maxBytes ≤ m.tree.memoryUsage)

def entryCount (m : MemTable) : ℕ := m.tree.count

def freeze (m : MemTable) : MemTable := { m with frozen := true }

def addAbortedBatch (m : MemTable) (ts : ℕ) : MemTable :=
  { m with tree := { m.tree with abortedBatchTs := ts :: m.tree.abortedBatchTs } }

/-- The versions the table holds, along the leaf chain. -/
def entries (m : MemTable) : List KeyValuePair := m.tree.entries

@[simp] theorem entries_new (id maxBytes : ℕ) : (new id maxBytes).entries = [] := rfl

@[simp] theorem entries_freeze (m : MemTable) : m.freeze.entries = m.entries := rfl

end MemTable

end Kvdb
