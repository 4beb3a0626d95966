import Kvdb.MemTable.Keys
import Mathlib.Data.List.Nodup

/-! # The order of the leaf chain

The entries of a chain stand by key, and the versions of a key from the newest to the oldest; the
separators divide the keys. An insertion keeps this when the entry is newer than the versions of its
key and finds its place (`Placed`): then a lookup returns the newest visible version and the walk is
sorted. -/
namespace Kvdb
set_option autoImplicit false

/-- The order of a table: by key, then from the newest version to the oldest. -/
def Before (a b : KeyValuePair) : Prop := a.key < b.key ∨ (a.key = b.key ∧ b.timestamp < a.timestamp)

theorem Before.key_le {a b : KeyValuePair} (h : Before a b) : a.key ≤ b.key := by
  rcases h with h | h
  · exact le_of_lt h
  · exact le_of_eq h.1

/-- Entries in key order are in the order of a table if the versions of each key are. -/
theorem pairwise_before {es : List KeyValuePair} (hkeys : es.Pairwise KeyLe)
    (hversions : ∀ key, (versionsOf key es).Pairwise fun a b => b.timestamp < a.timestamp) : es.Pairwise Before :=
  pairwise_versions hkeys hversions

/-- A sorted table has no two versions of one key and timestamp. -/
theorem eq_of_before {es : List KeyValuePair} (h : es.Pairwise Before) {x y : KeyValuePair} (hx : x ∈ es)
    (hy : y ∈ es) (hkey : x.key = y.key) (hts : x.timestamp = y.timestamp) : x = y := by
  have hnodup : (es.map fun a => (a.key, a.timestamp)).Nodup := by
    refine List.pairwise_map.mpr (h.imp ?_)
    intro a b hab heq
    obtain ⟨hakey, hats⟩ := Prod.mk.inj heq
    rcases hab with hlt | ⟨-, hlt⟩
    · exact absurd hakey (ne_of_lt hlt)
    · exact absurd hats (Nat.ne_of_gt hlt)
  exact List.inj_on_of_nodup_map hnodup hx hy (Prod.ext hkey hts)

namespace BPlusTree

/-- The chain is sorted, and each separator lies between the keys on its two sides. -/
def ChainOrdered : LeafPage → List (Bytes × LeafPage) → Prop
  | leaf, [] => leaf.slots.Pairwise Before
  | leaf, (sep, right) :: rest =>
    leaf.slots.Pairwise Before ∧ (∀ a ∈ leaf.slots, a.key < sep) ∧
      (∀ b ∈ chainEntries right rest, sep ≤ b.key) ∧ ChainOrdered right rest

def Ordered (t : BPlusTree) : Prop := ChainOrdered t.firstLeaf t.rest

/-- A chain is ordered if its keys are and its entries stand in the order of a table. -/
theorem chainOrdered_iff {leaf : LeafPage} {rest : List (Bytes × LeafPage)} :
    ChainOrdered leaf rest ↔ ChainKeyed leaf rest ∧ (chainEntries leaf rest).Pairwise Before := by
  induction rest generalizing leaf with
  | nil =>
    have hentries : chainEntries leaf [] = leaf.slots := by simp [chainEntries]
    rw [hentries]
    exact ⟨fun h => ⟨h.imp Before.key_le, h⟩, fun h => h.2⟩
  | cons p rest ih =>
    obtain ⟨sep, right⟩ := p
    rw [chainEntries_cons, List.pairwise_append]
    constructor
    · rintro ⟨hleaf, hlt, hge, hrest⟩
      obtain ⟨hkeyed, hsorted⟩ := ih.mp hrest
      refine ⟨⟨hleaf.imp Before.key_le, hlt, hge, hkeyed⟩, hleaf, hsorted, ?_⟩
      intro a ha b hb
      exact .inl (lt_of_lt_of_le (hlt a ha) (hge b hb))
    · rintro ⟨⟨-, hlt, hge, hkeyed⟩, hleaf, hsorted, -⟩
      exact ⟨hleaf, hlt, hge, ih.mpr ⟨hkeyed, hsorted⟩⟩

theorem Ordered.keyOrdered {t : BPlusTree} (h : t.Ordered) : t.KeyOrdered := (chainOrdered_iff.mp h).1

theorem ChainOrdered.pairwise {leaf : LeafPage} {rest : List (Bytes × LeafPage)}
    (h : ChainOrdered leaf rest) : (chainEntries leaf rest).Pairwise Before := (chainOrdered_iff.mp h).2

/-- An insertion that finds its place keeps the order. -/
theorem Ordered.insert {t : BPlusTree} {e : KeyValuePair} (h : t.Ordered) (hplaced : t.Placed e)
    (hnew : ∀ x ∈ t.entries, x.key = e.key → x.timestamp < e.timestamp) : (t.insert e).Ordered := by
  have hkeyed := h.keyOrdered.insert hplaced
  refine chainOrdered_iff.mpr ⟨hkeyed, pairwise_before hkeyed.pairwise ?_⟩
  intro key
  have hold : (versionsOf key t.entries).Pairwise fun a b => b.timestamp < a.timestamp := by
    refine (List.Pairwise.and_mem.mp (h.pairwise.sublist List.filter_sublist)).imp ?_
    rintro a b ⟨ha, hb, hlt | heq⟩
    · exact absurd ((mem_versionsOf.mp ha).2.trans (mem_versionsOf.mp hb).2.symm) (ne_of_lt hlt)
    · exact heq.2
  show (versionsOf key (t.insert e).entries).Pairwise _
  rw [versionsOf_insert h.keyOrdered hplaced]
  split
  · next hkey =>
    refine List.pairwise_cons.mpr ⟨?_, hold⟩
    intro x hx
    obtain ⟨hmem, hxkey⟩ := mem_versionsOf.mp hx
    exact hnew x hmem (hxkey.trans hkey.symm)
  · exact hold

theorem empty_ordered : empty.Ordered := List.Pairwise.nil

/-! ## The walk over a table without aborted batches -/

theorem skipAborted_nil (page : List KeyValuePair) : skipAborted [] page = page := by
  cases page <;> simp [skipAborted]

theorem skipEmpty_cons_ne {page : List KeyValuePair} {pages rest : List (List KeyValuePair)}
    (h : skipEmpty pages = page :: rest) : page ≠ [] := by
  have := List.head?_dropWhile_not List.isEmpty pages
  rw [skipEmpty] at h
  rw [h] at this
  intro hnil
  simp [hnil] at this

theorem skipEmpty_flatten (pages : List (List KeyValuePair)) :
    (skipEmpty pages).flatten = pages.flatten := by
  induction pages with
  | nil => rfl
  | cons page pages ih =>
    cases page with
    | nil => exact ih
    | cons e page => rfl

theorem walkNext_nil (pages : List (List KeyValuePair)) : walkNext [] pages = skipEmpty pages := by
  cases pages with
  | nil => rfl
  | cons page rest =>
    cases page with
    | nil =>
      simp only [walkNext, List.isEmpty_nil, if_true, skipAborted_nil]
      show _ = skipEmpty rest
      split
      · next h => exact h.symm
      · next page' rest' h =>
        have hne := skipEmpty_cons_ne h
        rw [h, if_neg (by simpa using hne)]
    | cons e page => simp [walkNext, skipAborted_nil, skipEmpty]

theorem walkList_nil (fuel : ℕ) (pages : List (List KeyValuePair)) (hfuel : pages.flatten.length ≤ fuel) :
    walkList [] fuel (skipEmpty pages) = pages.flatten := by
  induction fuel generalizing pages with
  | zero =>
    have hnil : pages.flatten = [] := List.length_eq_zero_iff.mp (Nat.le_zero.mp hfuel)
    rw [hnil]
    unfold walkList
    rfl
  | succ fuel ih =>
    rw [← skipEmpty_flatten] at hfuel ⊢
    cases hp : skipEmpty pages with
    | nil => rfl
    | cons page rest =>
      cases page with
      | nil => exact absurd rfl (skipEmpty_cons_ne hp)
      | cons e page =>
        rw [hp, List.flatten_cons, List.cons_append, List.length_cons] at hfuel
        rw [walkList, walkNext_nil, ih (page :: rest) (by
          rw [List.flatten_cons]
          omega), List.flatten_cons, List.flatten_cons, List.cons_append]

/-- Without aborted batches a flush reads every entry. -/
theorem memTableWalk_eq {t : BPlusTree} (h : t.abortedBatchTs = []) : t.memTableWalk = t.entries := by
  have hbegin : walkBegin [] t.leaves = skipEmpty t.leaves := by
    unfold walkBegin
    split
    · next hp => exact hp.symm
    · next page rest hp =>
      have hne := skipEmpty_cons_ne hp
      rw [skipAborted_nil, if_neg (by simpa using hne), hp]
  rw [memTableWalk, h, hbegin, ← t.leaves_flatten]
  exact walkList_nil _ _ (Nat.le_refl _)

end BPlusTree

end Kvdb
