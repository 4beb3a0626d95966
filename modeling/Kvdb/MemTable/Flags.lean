import Kvdb.MemTable.Contents

/-! # Insertion without the tombstone flags

The log keeps no tombstone flag, so a replay inserts the versions with the flag cleared. Where a version goes, which
pages are split and when a memtable is full do not depend on the flag. -/
namespace Kvdb
set_option autoImplicit false

/-- The version as the log gives it back. -/
def KeyValuePair.unflagged (e : KeyValuePair) : KeyValuePair := { e with isTombstone := false }

namespace LeafPage

def unflagged (leaf : LeafPage) : LeafPage := ⟨leaf.slots.map KeyValuePair.unflagged⟩

theorem free_unflagged (leaf : LeafPage) : leaf.unflagged.free = leaf.free := by
  simp only [free, unflagged, List.map_map]
  rfl

theorem find_unflagged (leaf : LeafPage) (key : Bytes) : leaf.unflagged.find key = leaf.find key := by
  simp only [find, unflagged, List.length_map, Bisect.bisect_map]
  rfl

theorem found_unflagged (leaf : LeafPage) (key : Bytes) : leaf.unflagged.found key = leaf.found key := by
  unfold found
  rw [find_unflagged, unflagged, List.getElem?_map]
  cases leaf.slots[leaf.find key]? with
  | none => rfl
  | some e => rfl

theorem insertEntry_unflagged (leaf : LeafPage) (pos : ℕ) (e : KeyValuePair) :
    leaf.unflagged.insertEntry pos e.unflagged = (leaf.insertEntry pos e).map unflagged := by
  unfold insertEntry
  rw [free_unflagged]
  show (if leaf.free < recSize e + slotSize then none else _) = _
  split
  · rfl
  · simp only [unflagged, Option.map_some, List.map_insertIdx]

theorem leftHalf_unflagged (leaf : LeafPage) : leaf.unflagged.leftHalf = leaf.leftHalf.unflagged := by
  simp only [leftHalf, unflagged, List.length_map, List.map_take]

theorem rightHalf_unflagged (leaf : LeafPage) : leaf.unflagged.rightHalf = leaf.rightHalf.unflagged := by
  simp only [rightHalf, unflagged, List.length_map, List.map_drop]

theorem length_unflagged (leaf : LeafPage) : leaf.unflagged.slots.length = leaf.slots.length := List.length_map _

theorem splitLeaf_unflagged (leaf : LeafPage) (pos : ℕ) (e : KeyValuePair) :
    leaf.unflagged.splitLeaf pos e.unflagged =
      ((leaf.splitLeaf pos e).1.unflagged, (leaf.splitLeaf pos e).2.unflagged) := by
  simp only [splitLeaf, leftHalf_unflagged, rightHalf_unflagged, length_unflagged, insertEntry_unflagged]
  split
  · cases leaf.leftHalf.insertEntry pos e with
    | some left => rfl
    | none =>
      cases leaf.rightHalf.insertEntry leaf.rightHalf.slots.length e with
      | some right => rfl
      | none => rfl
  · cases leaf.rightHalf.insertEntry (pos - leaf.slots.length / 2) e with
    | some right => rfl
    | none =>
      cases leaf.leftHalf.insertEntry leaf.leftHalf.slots.length e with
      | some left => rfl
      | none => rfl

theorem firstKey_unflagged (leaf : LeafPage) : leaf.unflagged.firstKey = leaf.firstKey := by
  obtain ⟨slots⟩ := leaf
  cases slots with
  | nil => rfl
  | cons e es => rfl

end LeafPage

namespace BPlusTree

def unflaggedChain (rest : List (Bytes × LeafPage)) : List (Bytes × LeafPage) :=
  rest.map fun p => (p.1, p.2.unflagged)

/-- The tree with its flags cleared and without its marks of aborted batches. -/
def unflagged (t : BPlusTree) : BPlusTree :=
  { t with
    firstLeaf := t.firstLeaf.unflagged
    rest := unflaggedChain t.rest
    abortedBatchTs := [] }

theorem findLeaf_unflagged (key : Bytes) (leaf : LeafPage) (rest : List (Bytes × LeafPage)) :
    findLeaf key leaf.unflagged (unflaggedChain rest) = (findLeaf key leaf rest).unflagged := by
  induction rest generalizing leaf with
  | nil => rfl
  | cons p rest ih =>
    obtain ⟨sep, right⟩ := p
    simp only [unflaggedChain, List.map_cons, findLeaf]
    split
    · exact ih right
    · rfl

theorem replaceLeaf_unflagged (e : KeyValuePair) (leaf : LeafPage) (rest : List (Bytes × LeafPage)) :
    replaceLeaf e.unflagged leaf.unflagged (unflaggedChain rest) =
      ((replaceLeaf e leaf rest).1.unflagged, unflaggedChain (replaceLeaf e leaf rest).2) := by
  have hkey : e.unflagged.key = e.key := rfl
  unfold replaceLeaf
  rw [hkey, LeafPage.find_unflagged, LeafPage.insertEntry_unflagged, LeafPage.splitLeaf_unflagged]
  cases leaf.insertEntry (leaf.find e.key) e with
  | some page => rfl
  | none =>
    simp only [Option.map_none, LeafPage.firstKey_unflagged]
    rfl

theorem insertInto_unflagged (e : KeyValuePair) (leaf : LeafPage) (rest : List (Bytes × LeafPage)) :
    insertInto e.unflagged leaf.unflagged (unflaggedChain rest) =
      ((insertInto e leaf rest).1.unflagged, unflaggedChain (insertInto e leaf rest).2) := by
  induction rest generalizing leaf with
  | nil => exact replaceLeaf_unflagged e leaf []
  | cons p rest ih =>
    obtain ⟨sep, right⟩ := p
    show insertInto e.unflagged leaf.unflagged ((sep, right.unflagged) :: unflaggedChain rest) = _
    simp only [insertInto]
    have hkey : e.unflagged.key = e.key := rfl
    rw [hkey]
    split
    · rw [ih right]
      rfl
    · exact replaceLeaf_unflagged e leaf ((sep, right) :: rest)

/-- Clearing the flags commutes with an insertion. -/
theorem insert_unflagged (t : BPlusTree) (e : KeyValuePair) :
    (t.insert e).unflagged = t.unflagged.insert e.unflagged := by
  have hchain := insertInto_unflagged e t.firstLeaf t.rest
  have hleaf := findLeaf_unflagged e.key t.firstLeaf t.rest
  have hkey : e.unflagged.key = e.key := rfl
  have hvalue : e.unflagged.value = e.value := rfl
  simp only [unflagged, insert, hkey, hvalue, hchain, hleaf, LeafPage.found_unflagged]

theorem entries_unflagged (t : BPlusTree) : t.unflagged.entries = t.entries.map KeyValuePair.unflagged := by
  simp only [entries, chainEntries, unflagged, unflaggedChain, LeafPage.unflagged, List.map_append,
    List.flatMap_map, List.map_flatMap]

theorem memoryUsage_unflagged (t : BPlusTree) : t.unflagged.memoryUsage = t.memoryUsage := rfl

end BPlusTree

end Kvdb
