import Kvdb.MemTable.Tree
import Mathlib.Data.List.Perm.Basic

/-! # What a memtable holds

Whatever an insertion does to the leaf chain, it adds at most the new entry. When some page takes
the entry (`Kept`) it adds exactly that. The walk of a flush and a lookup read entries of the chain
only. -/
namespace Kvdb
set_option autoImplicit false

namespace LeafPage

theorem find_middle : Bisect.Middle fun lo hi => (lo + (hi - 1)) / 2 := by
  intro lo hi h
  show lo ≤ (lo + (hi - 1)) / 2 ∧ (lo + (hi - 1)) / 2 < hi
  omega

theorem find_le (leaf : LeafPage) (key : Bytes) : leaf.find key ≤ leaf.slots.length :=
  Bisect.bisect_le find_middle leaf.slots _ 0 _ (Nat.zero_le _)

theorem insertEntry_eq_some {leaf leaf' : LeafPage} {pos : ℕ} {e : KeyValuePair}
    (h : leaf.insertEntry pos e = some leaf') :
    leaf'.slots = leaf.slots.insertIdx pos e ∧ recSize e + slotSize ≤ leaf.free := by
  unfold insertEntry at h
  split at h
  · cases h
  · next hroom =>
    cases h
    exact ⟨rfl, Nat.le_of_not_lt hroom⟩

theorem insertEntry_eq_none {leaf : LeafPage} {pos : ℕ} {e : KeyValuePair}
    (h : leaf.insertEntry pos e = none) : leaf.free < recSize e + slotSize := by
  unfold insertEntry at h
  split at h
  · next hroom => exact hroom
  · cases h

theorem halves_append (leaf : LeafPage) : leaf.leftHalf.slots ++ leaf.rightHalf.slots = leaf.slots :=
  List.take_append_drop _ _

/-- The slots of the two pages of a split: the old ones, and the new one if some half has room. -/
theorem splitLeaf_cases (leaf : LeafPage) (pos : ℕ) (e : KeyValuePair) (hpos : pos ≤ leaf.slots.length) :
    ((leaf.splitLeaf pos e).1.slots ++ (leaf.splitLeaf pos e).2.slots).Perm (e :: leaf.slots) ∨
      ((leaf.splitLeaf pos e).1.slots ++ (leaf.splitLeaf pos e).2.slots = leaf.slots ∧
        leaf.leftHalf.free < recSize e + slotSize ∧ leaf.rightHalf.free < recSize e + slotSize) := by
  have hhalves := leaf.halves_append
  have hleft : ∀ i left', leaf.leftHalf.insertEntry i e = some left' → i ≤ leaf.leftHalf.slots.length →
      (left'.slots ++ leaf.rightHalf.slots).Perm (e :: leaf.slots) := by
    intro i left' h hi
    rw [(insertEntry_eq_some h).1, ← hhalves, ← List.cons_append]
    exact (List.perm_insertIdx e _ hi).append_right _
  have hright : ∀ i right', leaf.rightHalf.insertEntry i e = some right' → i ≤ leaf.rightHalf.slots.length →
      (leaf.leftHalf.slots ++ right'.slots).Perm (e :: leaf.slots) := by
    intro i right' h hi
    rw [(insertEntry_eq_some h).1, ← hhalves]
    exact ((List.perm_insertIdx e _ hi).append_left _).trans List.perm_middle
  have hllen : leaf.leftHalf.slots.length = leaf.slots.length / 2 := by
    simp only [leftHalf, List.length_take]
    omega
  have hrlen : leaf.rightHalf.slots.length = leaf.slots.length - leaf.slots.length / 2 := by
    simp [rightHalf]
  unfold splitLeaf
  simp only []
  split
  · next hlt =>
    split
    · next left' h => exact .inl (hleft pos left' h (by omega))
    · next h =>
      split
      · next right' h' => exact .inl (hright _ right' h' (Nat.le_refl _))
      · next h' => exact .inr ⟨hhalves, insertEntry_eq_none h, insertEntry_eq_none h'⟩
  · next hge =>
    split
    · next right' h => exact .inl (hright _ right' h (by omega))
    · next h =>
      split
      · next left' h' => exact .inl (hleft _ left' h' (Nat.le_refl _))
      · next h' => exact .inr ⟨hhalves, insertEntry_eq_none h', insertEntry_eq_none h⟩

theorem splitLeaf_subset (leaf : LeafPage) (pos : ℕ) (e x : KeyValuePair) (hpos : pos ≤ leaf.slots.length)
    (hx : x ∈ (leaf.splitLeaf pos e).1.slots ++ (leaf.splitLeaf pos e).2.slots) :
    x = e ∨ x ∈ leaf.slots := by
  rcases leaf.splitLeaf_cases pos e hpos with h | ⟨h, -⟩
  · exact List.mem_cons.mp (h.subset hx)
  · rw [h] at hx
    exact .inr hx

theorem splitLeaf_perm (leaf : LeafPage) (pos : ℕ) (e : KeyValuePair) (hpos : pos ≤ leaf.slots.length)
    (hroom : recSize e + slotSize ≤ leaf.leftHalf.free ∨ recSize e + slotSize ≤ leaf.rightHalf.free) :
    ((leaf.splitLeaf pos e).1.slots ++ (leaf.splitLeaf pos e).2.slots).Perm (e :: leaf.slots) := by
  rcases leaf.splitLeaf_cases pos e hpos with h | ⟨-, hl, hr⟩
  · exact h
  · omega

end LeafPage

namespace BPlusTree

theorem chainEntries_cons (leaf right : LeafPage) (sep : Bytes) (rest : List (Bytes × LeafPage)) :
    chainEntries leaf ((sep, right) :: rest) = leaf.slots ++ chainEntries right rest := by
  simp [chainEntries]

theorem mem_replaceLeaf {e x : KeyValuePair} {leaf : LeafPage} {rest : List (Bytes × LeafPage)}
    (hx : x ∈ chainEntries (replaceLeaf e leaf rest).1 (replaceLeaf e leaf rest).2) :
    x = e ∨ x ∈ chainEntries leaf rest := by
  unfold replaceLeaf at hx
  split at hx
  · next leaf' h =>
    simp only [chainEntries, (LeafPage.insertEntry_eq_some h).1, List.mem_append] at hx ⊢
    rcases hx with hx | hx
    · rcases List.eq_or_mem_of_mem_insertIdx hx with rfl | hx
      · exact .inl rfl
      · exact .inr (.inl hx)
    · exact .inr (.inr hx)
  · rw [chainEntries_cons] at hx
    simp only [chainEntries, List.mem_append] at hx ⊢
    rw [← or_assoc, ← List.mem_append] at hx
    rcases hx with hx | hx
    · rcases leaf.splitLeaf_subset _ e x (leaf.find_le e.key) hx with rfl | hx
      · exact .inl rfl
      · exact .inr (.inl hx)
    · exact .inr (.inr hx)

/-- An insertion brings in no other entry. -/
theorem mem_insertInto {e x : KeyValuePair} (leaf : LeafPage) (rest : List (Bytes × LeafPage))
    (hx : x ∈ chainEntries (insertInto e leaf rest).1 (insertInto e leaf rest).2) :
    x = e ∨ x ∈ chainEntries leaf rest := by
  induction rest generalizing leaf with
  | nil => exact mem_replaceLeaf hx
  | cons p rest ih =>
    obtain ⟨sep, right⟩ := p
    unfold insertInto at hx
    split at hx
    · rw [chainEntries_cons, List.mem_append] at hx ⊢
      rcases hx with hx | hx
      · exact .inr (.inl hx)
      · rcases ih right hx with rfl | hx
        · exact .inl rfl
        · exact .inr (.inr hx)
    · exact mem_replaceLeaf hx

theorem replaceLeaf_perm {e : KeyValuePair} {leaf : LeafPage} (rest : List (Bytes × LeafPage))
    (hkept : leaf.Kept e) :
    (chainEntries (replaceLeaf e leaf rest).1 (replaceLeaf e leaf rest).2).Perm
      (e :: chainEntries leaf rest) := by
  unfold replaceLeaf
  split
  · next leaf' h =>
    simp only [chainEntries, (LeafPage.insertEntry_eq_some h).1, ← List.cons_append]
    exact (List.perm_insertIdx e _ (leaf.find_le e.key)).append_right _
  · next h =>
    have hroom := hkept.resolve_left (by simp [h])
    rw [chainEntries_cons, chainEntries, chainEntries, ← List.append_assoc, ← List.cons_append]
    exact (leaf.splitLeaf_perm _ e (leaf.find_le e.key) hroom).append_right _

theorem insertInto_perm {e : KeyValuePair} (leaf : LeafPage) (rest : List (Bytes × LeafPage))
    (hkept : (findLeaf e.key leaf rest).Kept e) :
    (chainEntries (insertInto e leaf rest).1 (insertInto e leaf rest).2).Perm
      (e :: chainEntries leaf rest) := by
  induction rest generalizing leaf with
  | nil => exact replaceLeaf_perm [] hkept
  | cons p rest ih =>
    obtain ⟨sep, right⟩ := p
    unfold findLeaf at hkept
    unfold insertInto
    split
    · next hle =>
      rw [if_pos hle] at hkept
      rw [chainEntries_cons, chainEntries_cons]
      exact ((ih right hkept).append_left _).trans List.perm_middle
    · next hgt =>
      rw [if_neg hgt] at hkept
      exact replaceLeaf_perm _ hkept

theorem mem_insert {t : BPlusTree} {e x : KeyValuePair} (hx : x ∈ (t.insert e).entries) :
    x = e ∨ x ∈ t.entries := mem_insertInto _ _ hx

/-- An insertion that some page takes adds the entry and keeps the others. -/
theorem insert_perm {t : BPlusTree} {e : KeyValuePair} (hkept : t.Kept e) :
    (t.insert e).entries.Perm (e :: t.entries) := insertInto_perm _ _ hkept

@[simp] theorem insert_abortedBatchTs (t : BPlusTree) (e : KeyValuePair) :
    (t.insert e).abortedBatchTs = t.abortedBatchTs := rfl

/-! ## Lookup -/

theorem findLeaf_subset (key : Bytes) (leaf : LeafPage) (rest : List (Bytes × LeafPage)) :
    (findLeaf key leaf rest).slots ⊆ chainEntries leaf rest := by
  induction rest generalizing leaf with
  | nil =>
    intro x hx
    exact List.mem_append_left _ hx
  | cons p rest ih =>
    obtain ⟨sep, right⟩ := p
    unfold findLeaf
    rw [chainEntries_cons]
    split
    · exact List.subset_append_of_subset_right _ (ih right)
    · exact List.subset_append_left _ _

theorem scanVersions_eq_some {aborted : List ℕ} {readTs : ℕ} {key : Bytes} {es : List KeyValuePair}
    {x : KeyValuePair} (h : scanVersions aborted readTs key es = some x) :
    x ∈ es ∧ x.key = key ∧ x.timestamp ≤ readTs := by
  induction es with
  | nil => cases h
  | cons e es ih =>
    unfold scanVersions at h
    split at h
    · cases h
    · next hkey =>
      split at h
      · obtain ⟨hx, hrest⟩ := ih h
        exact ⟨List.mem_cons_of_mem e hx, hrest⟩
      · split at h
        · next hts =>
          cases h
          exact ⟨List.mem_cons_self, not_not.mp hkey, hts⟩
        · obtain ⟨hx, hrest⟩ := ih h
          exact ⟨List.mem_cons_of_mem e hx, hrest⟩

/-- A version that a lookup stops at is in the table, belongs to the key and is visible. -/
theorem lookupVersion_eq_some {t : BPlusTree} {key : Bytes} {readTs : ℕ} {x : KeyValuePair}
    (h : t.lookupVersion key readTs = some x) :
    x ∈ t.entries ∧ x.key = key ∧ x.timestamp ≤ readTs := by
  unfold lookupVersion at h
  simp only [] at h
  split at h
  · obtain ⟨hx, hrest⟩ := scanVersions_eq_some h
    exact ⟨findLeaf_subset _ _ _ (List.mem_of_mem_drop hx), hrest⟩
  · cases h

theorem lookup_eq_some {t : BPlusTree} {key value : Bytes} {readTs : ℕ}
    (h : t.lookup key readTs = some value) :
    ∃ x ∈ t.entries, x.key = key ∧ x.timestamp ≤ readTs ∧ x.value = value := by
  unfold lookup at h
  split at h
  · next x hx =>
    obtain ⟨hmem, hkey, hts⟩ := lookupVersion_eq_some hx
    split at h
    · cases h
    · cases h
      exact ⟨x, hmem, hkey, hts, rfl⟩
  · cases h

/-! ## The count -/

theorem found_ne_nil {leaf : LeafPage} {key : Bytes} (h : leaf.found key = true) : leaf.slots ≠ [] := by
  intro hnil
  simp [LeafPage.found, hnil] at h

/-- `count_` misses versions of a key that is already there, but not the first one of a table. -/
theorem insert_count_ne_zero {t : BPlusTree} (e : KeyValuePair) (h : t.count = 0 → t.entries = []) :
    (t.insert e).count ≠ 0 := by
  show (if (findLeaf e.key t.firstLeaf t.rest).found e.key then t.count else t.count + 1) ≠ 0
  split
  · next hfound =>
    intro hzero
    obtain ⟨x, hx⟩ := List.exists_mem_of_ne_nil _ (found_ne_nil hfound)
    have hin : x ∈ t.entries := findLeaf_subset _ _ _ hx
    rw [h hzero] at hin
    cases hin
  · omega

/-! ## The walk -/

theorem skipEmpty_sublist (pages : List (List KeyValuePair)) :
    (skipEmpty pages).flatten.Sublist pages.flatten := by
  have hsplit : pages.takeWhile List.isEmpty ++ skipEmpty pages = pages := List.takeWhile_append_dropWhile
  have hflat := congrArg List.flatten hsplit
  rw [List.flatten_append] at hflat
  rw [← hflat]
  exact List.sublist_append_right _ _

theorem walkBegin_sublist (aborted : List ℕ) (pages : List (List KeyValuePair)) :
    (walkBegin aborted pages).flatten.Sublist pages.flatten := by
  have hskip := skipEmpty_sublist pages
  unfold walkBegin
  split
  · exact List.nil_sublist _
  · next page rest h =>
    rw [h, List.flatten_cons] at hskip
    split
    · exact (List.sublist_append_right _ _).trans hskip
    · rw [List.flatten_cons]
      exact ((List.dropWhile_sublist _).append (List.Sublist.refl _)).trans hskip

theorem walkNext_sublist (aborted : List ℕ) (pages : List (List KeyValuePair)) :
    (walkNext aborted pages).flatten.Sublist pages.flatten := by
  cases pages with
  | nil => exact List.Sublist.refl _
  | cons page rest =>
    have hcur : (if page.isEmpty then skipEmpty rest else page :: rest).flatten.Sublist
        (page :: rest).flatten := by
      split
      · exact (skipEmpty_sublist rest).trans (List.sublist_append_right _ _)
      · exact List.Sublist.refl _
    unfold walkNext
    simp only []
    split
    · exact List.nil_sublist _
    · next page' rest' h =>
      rw [h, List.flatten_cons] at hcur
      split
      · exact ((skipEmpty_sublist rest').trans (List.sublist_append_right _ _)).trans hcur
      · rw [List.flatten_cons]
        exact ((List.dropWhile_sublist _).append (List.Sublist.refl _)).trans hcur

theorem walkList_sublist (aborted : List ℕ) (fuel : ℕ) (pages : List (List KeyValuePair)) :
    (walkList aborted fuel pages).Sublist pages.flatten := by
  induction fuel generalizing pages with
  | zero =>
    unfold walkList
    exact List.nil_sublist _
  | succ fuel ih =>
    cases pages with
    | nil => exact List.nil_sublist _
    | cons page rest =>
      cases page with
      | nil => exact List.nil_sublist _
      | cons e page =>
        have hnext := (ih _).trans (walkNext_sublist aborted (page :: rest))
        rw [List.flatten_cons] at hnext
        rw [walkList, List.flatten_cons, List.cons_append]
        exact hnext.cons_cons e

theorem leaves_flatten (t : BPlusTree) : t.leaves.flatten = t.entries := by
  simp [leaves, entries, chainEntries, List.flatMap_def]

/-- The walk yields entries of the table, each at most once and in chain order. -/
theorem memTableWalk_sublist (t : BPlusTree) : t.memTableWalk.Sublist t.entries := by
  rw [← t.leaves_flatten]
  exact (walkList_sublist _ _ _).trans (walkBegin_sublist _ _)

end BPlusTree

namespace MemTable

theorem mem_insert {m : MemTable} {key value : Bytes} {ts : ℕ} {isTombstone : Bool} {x : KeyValuePair}
    (hx : x ∈ (m.insert key value ts isTombstone).entries) :
    x = ⟨key, value, ts, isTombstone⟩ ∨ x ∈ m.entries := by
  unfold insert at hx
  split at hx
  · exact .inr hx
  · exact BPlusTree.mem_insert hx

/-- A table whose count is zero holds nothing. -/
def Counted (m : MemTable) : Prop := m.entryCount = 0 → m.entries = []

theorem counted_new (id maxBytes : ℕ) : (new id maxBytes).Counted := fun _ => rfl

theorem Counted.insert {m : MemTable} (h : m.Counted) (key value : Bytes) (ts : ℕ) (isTombstone : Bool) :
    (m.insert key value ts isTombstone).Counted := by
  intro hzero
  unfold MemTable.insert at hzero ⊢
  split
  · next hfrozen =>
    rw [if_pos hfrozen] at hzero
    exact h hzero
  · next hfrozen =>
    rw [if_neg hfrozen] at hzero
    exact absurd hzero (BPlusTree.insert_count_ne_zero _ h)

theorem insert_perm {m : MemTable} (hfrozen : m.frozen = false) {e : KeyValuePair} (hkept : m.tree.Kept e) :
    (m.insert e.key e.value e.timestamp e.isTombstone).entries.Perm (e :: m.entries) := by
  unfold insert
  rw [if_neg (by simp [hfrozen])]
  exact BPlusTree.insert_perm hkept

theorem insert_id (m : MemTable) (key value : Bytes) (ts : ℕ) (isTombstone : Bool) :
    (m.insert key value ts isTombstone).id = m.id := by
  unfold insert
  split <;> rfl

/-- A memtable without aborted batches, whose count does not hide an entry. -/
structure Clean (m : MemTable) : Prop where
  noAborted : m.tree.abortedBatchTs = []
  counted : m.Counted

theorem clean_new (id maxBytes : ℕ) : Clean (new id maxBytes) :=
  ⟨rfl, counted_new id maxBytes⟩

theorem Clean.insert {m : MemTable} (h : Clean m) (key value : Bytes) (ts : ℕ) (isTombstone : Bool) :
    Clean (m.insert key value ts isTombstone) := by
  refine ⟨?_, h.counted.insert key value ts isTombstone⟩
  unfold MemTable.insert
  split <;> exact h.noAborted

theorem Clean.freeze {m : MemTable} (h : Clean m) : Clean m.freeze := ⟨h.noAborted, h.counted⟩

@[simp] theorem insert_frozen (m : MemTable) (key value : Bytes) (ts : ℕ) (isTombstone : Bool) :
    (m.insert key value ts isTombstone).frozen = m.frozen := by
  unfold insert
  split <;> rfl

end MemTable

end Kvdb
