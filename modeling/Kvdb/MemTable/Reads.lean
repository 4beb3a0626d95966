import Kvdb.MemTable.InOrder

/-! # What `Lookup` reads in the tree

`FindLeaf` leads a key to the right of every separator that is not above it, so versions of a key on the left of a
separator that equals the key are never read. `Undivided` says when an insertion goes to its place and a split leaves
all versions of each key in one leaf. Then the versions of a key stand from the newest to the oldest in the leaf that
the key is led to, and `Lookup` finds the newest one that the reader may see. -/
namespace Kvdb
set_option autoImplicit false

namespace LeafPage

/-- The entry goes to its place, and if the leaf is split, no key has versions in both halves. -/
def Undivided (leaf : LeafPage) (e : KeyValuePair) : Prop :=
  entrySize e ≤ leaf.free ∨
    ((∀ a ∈ leaf.leftHalf.slots, ∀ b ∈ leaf.rightHalf.slots, a.key ≠ b.key) ∧
      ((leaf.find e.key < leaf.slots.length / 2 ∧ entrySize e ≤ leaf.leftHalf.free) ∨
        (leaf.slots.length / 2 ≤ leaf.find e.key ∧ entrySize e ≤ leaf.rightHalf.free) ∨
        (leaf.find e.key = leaf.slots.length / 2 ∧ entrySize e ≤ leaf.leftHalf.free ∧
          ∀ b ∈ leaf.rightHalf.slots, b.key ≠ e.key)))

instance decidableUndivided (leaf : LeafPage) (e : KeyValuePair) : Decidable (leaf.Undivided e) :=
  inferInstanceAs (Decidable (_ ∨ (_ ∧ (_ ∨ _ ∨ _))))

theorem Undivided.inPlace {leaf : LeafPage} {e : KeyValuePair} (h : leaf.Undivided e) : leaf.InPlace e := by
  rcases h with h | ⟨-, ⟨hlt, hleft⟩ | ⟨hge, hright⟩ | ⟨heq, hleft, -⟩⟩
  · exact Or.inl h
  · exact Or.inr (Or.inl ⟨hlt, Or.inl hleft⟩)
  · exact Or.inr (Or.inr ⟨hge, Or.inl hright⟩)
  · exact Or.inr (Or.inr ⟨le_of_eq heq.symm, Or.inr ⟨hleft, heq⟩⟩)

/-- The slots of the two pages are those of the leaf with the entry at its position. -/
theorem Undivided.splitLeaf_eq {leaf : LeafPage} {e : KeyValuePair} (hfull : leaf.free < entrySize e)
    (h : leaf.Undivided e) : (leaf.splitLeaf (leaf.find e.key) e).1.slots ++
      (leaf.splitLeaf (leaf.find e.key) e).2.slots = leaf.slots.insertIdx (leaf.find e.key) e := by
  rcases (splitLeaf_inPlace hfull h.inPlace).2 with heq | ⟨-, -, hlt, hnoroom⟩
  · exact heq
  · rcases h with h | ⟨-, ⟨-, hleft⟩ | ⟨hge, -⟩ | ⟨heq, -⟩⟩
    · omega
    · omega
    · omega
    · omega

/-- No key has versions in both pages. -/
theorem Undivided.ne_of_mem {leaf : LeafPage} {e : KeyValuePair} (hsorted : leaf.slots.Pairwise KeyLe)
    (hfull : leaf.free < entrySize e) (h : leaf.Undivided e) :
    ∀ x ∈ (leaf.splitLeaf (leaf.find e.key) e).1.slots, ∀ y ∈ (leaf.splitLeaf (leaf.find e.key) e).2.slots,
      x.key ≠ y.key := by
  obtain ⟨hdisj, hcase⟩ := h.resolve_left (Nat.not_le.mpr hfull)
  by_cases hlt : leaf.find e.key < leaf.slots.length / 2
  · -- The entry goes to the left half, and stands there before a key that is not smaller.
    have hleft : entrySize e ≤ leaf.leftHalf.free := by
      rcases hcase with ⟨-, hleft⟩ | ⟨hge, -⟩ | ⟨heq, -⟩
      · exact hleft
      · omega
      · omega
    rw [splitLeaf_left hlt hleft]
    intro x hx y hy heq
    rcases List.eq_or_mem_of_mem_insertIdx hx with rfl | hx
    · have hlen := leaf.length_leftHalf
      have hin : leaf.find x.key < leaf.leftHalf.slots.length := by omega
      have hz : leaf.leftHalf.slots[leaf.find x.key] ∈ leaf.leftHalf.slots := List.getElem_mem hin
      have hge : x.key ≤ leaf.leftHalf.slots[leaf.find x.key].key := by
        refine le_drop_find hsorted x.key _ ?_
        rw [← leaf.halves_append, List.drop_append_of_le_length (by omega)]
        exact List.mem_append_left _ (by rw [List.drop_eq_getElem_cons hin]; exact List.mem_cons_self)
      rw [← leaf.halves_append] at hsorted
      have hle := (List.pairwise_append.mp hsorted).2.2 _ hz y hy
      exact hdisj _ hz y hy (le_antisymm hle (heq ▸ hge))
    · exact hdisj x hx y hy heq
  · have hge := Nat.le_of_not_lt hlt
    by_cases hright : entrySize e ≤ leaf.rightHalf.free
    · rw [splitLeaf_right hge hright]
      intro x hx y hy heq
      rcases List.eq_or_mem_of_mem_insertIdx hy with rfl | hy
      · have htake : x ∈ leaf.slots.take (leaf.find y.key) :=
          (List.take_sublist_take_left hge).subset hx
        exact absurd heq (ne_of_lt (take_find_lt hsorted y.key x htake))
      · exact hdisj x hx y hy heq
    · obtain ⟨hleft, hnew⟩ : entrySize e ≤ leaf.leftHalf.free ∧ ∀ b ∈ leaf.rightHalf.slots, b.key ≠ e.key := by
        rcases hcase with ⟨hlt', -⟩ | ⟨-, hright'⟩ | ⟨-, hleft, hnew⟩
        · omega
        · omega
        · exact ⟨hleft, hnew⟩
      rw [splitLeaf_end hge (Nat.lt_of_not_le hright) hleft]
      intro x hx y hy heq
      rcases List.mem_append.mp hx with hx | hx
      · exact hdisj x hx y hy heq
      · rw [List.mem_singleton.mp hx] at heq
        exact hnew y hy heq.symm

end LeafPage

namespace Nodes

theorem divides_lt {leaf : LeafPage} {e : KeyValuePair} (hsorted : leaf.slots.Pairwise KeyLe) (h : leaf.Undivided e) :
    Divides (· < ·) leaf e := by
  intro hfull x hx
  have hle := divides_le hsorted h.inPlace hfull x hx
  obtain ⟨y, hy, hkey⟩ := LeafPage.firstKey_mem (LeafPage.splitLeaf_inPlace hfull h.inPlace).1
  refine lt_of_le_of_ne hle ?_
  rw [← hkey]
  exact h.ne_of_mem hsorted hfull x hx y hy

/-- The slots of the new leaves. -/
theorem entriesOf_insertLeaf {e : KeyValuePair} (al : Alloc) (a : ℕ) {leaf : LeafPage} (sep : Bytes)
    (h : leaf.Undivided e) : entriesOf ((insertLeaf e al a leaf).grown.chain sep) =
      leaf.slots.insertIdx (leaf.find e.key) e := by
  rcases insertLeaf_chain e al a leaf sep with ⟨page, x, hroom, hchain⟩ | ⟨hroom, x, y, hchain⟩
  · rw [hchain, ← (LeafPage.insertEntry_eq_some hroom).1]
    simp [entriesOf]
  · rw [hchain, ← h.splitLeaf_eq (LeafPage.insertEntry_eq_none hroom)]
    simp [entriesOf]

theorem entriesOf_append (as bs : List Page) : entriesOf (as ++ bs) = entriesOf as ++ entriesOf bs :=
  List.flatMap_append

/-- The leaf that a key is led to has all its versions. -/
theorem Keyed.versionsOf_eq {as bs : List Page} {p : Page} {key : Bytes} (h : Keyed (· < ·) (as ++ p :: bs))
    (hsep : p.sep ≤ key) (hbelow : ∀ b ∈ bs, key < b.sep) :
    versionsOf key (entriesOf as) = [] ∧ versionsOf key (entriesOf bs) = [] := by
  obtain ⟨-, -, hcross⟩ := List.pairwise_append.mp h.apart
  constructor
  · refine versionsOf_eq_nil fun x hx => ?_
    obtain ⟨a, ha, hxa⟩ := List.mem_flatMap.mp hx
    exact ne_of_lt (lt_of_lt_of_le ((hcross a ha p List.mem_cons_self).2 x hxa) hsep)
  · refine versionsOf_eq_nil fun x hx => ?_
    obtain ⟨b, hb, hxb⟩ := List.mem_flatMap.mp hx
    exact ne_of_gt (lt_of_lt_of_le (hbelow b hb) (h.above b (by simp [hb]) x hxb))

end Nodes

namespace Heap

open Nodes

def Undivided (h : Heap) (e : KeyValuePair) : Prop := h.AtLeaf e.key fun a _ => (h.leaves a).page.Undivided e

instance decidableUndivided (h : Heap) (e : KeyValuePair) : Decidable (h.Undivided e) :=
  inferInstanceAs (Decidable (h.AtLeaf e.key _))

/-- The chain holds the versions inserted so far; those of a key stand from the newest to the oldest, if they came with
increasing timestamps. -/
structure Versioned (h : Heap) (done : List KeyValuePair) : Prop where
  exists_tree : ∃ root, h.Holds root [] ∧ Keyed (· < ·) (root.chain []) ∧ (entriesOf (root.chain [])).Perm done ∧
    (done.Pairwise (fun a b => a.timestamp < b.timestamp) →
      ∀ key, (versionsOf key (entriesOf (root.chain []))).Pairwise fun a b => b.timestamp < a.timestamp)

theorem new_versioned (fenced : Bool) : (new fenced).Versioned [] :=
  ⟨_, new_holds fenced, new_keyed _, by simp [entriesOf, Node.chain, chainAll],
    by simp [entriesOf, Node.chain, chainAll, versionsOf]⟩

/-- An insertion puts the entry in front of the other versions of its key. -/
theorem versionsOf_insert {h : Heap} {root root' : Node} {e : KeyValuePair} {path : List Ctx} {a : ℕ}
    (hh : h.Holds root []) (hf : Found h root e.key path a) (hkeyed : Keyed (· < ·) (root.chain []))
    (hundivided : (h.leaves a).page.Undivided e)
    (hchain : root'.chain [] = before path [] ++
      (insertLeaf e h.alloc a (h.leaves a).page).grown.chain (sepOf path []) ++ after path) (key : Bytes) :
    versionsOf key (entriesOf (root'.chain [])) =
      if e.key = key then e :: versionsOf key (entriesOf (root.chain []))
      else versionsOf key (entriesOf (root.chain [])) := by
  obtain ⟨hsep, hbelow⟩ := hf.route hh hkeyed
  rw [hf.chain] at hkeyed
  have hsorted := hkeyed.sorted ⟨sepOf path [], a, (h.leaves a).page⟩ (by simp)
  have hleaf : entriesOf (root.chain []) =
      entriesOf (before path []) ++ ((h.leaves a).page.slots ++ entriesOf (after path)) := by
    rw [hf.chain, entriesOf_append]
    rfl
  rw [hchain, hleaf, List.append_assoc, entriesOf_append, entriesOf_append, entriesOf_insertLeaf _ _ _ hundivided]
  simp only [versionsOf_append, LeafPage.versionsOf_insertIdx hsorted]
  split
  · next hkey =>
    have hnone := (hkeyed.versionsOf_eq hsep hbelow).1
    rw [hkey] at hnone
    rw [hnone, List.nil_append, List.nil_append, List.cons_append]
  · rfl

theorem Versioned.insert {h : Heap} {done : List KeyValuePair} {e : KeyValuePair} (hv : h.Versioned done)
    (hfit : h.Fits e) (hundivided : h.Undivided e) (clock : ℕ) :
    ∃ h', h.insert clock e = some h' ∧ h'.Versioned (done ++ [e]) := by
  obtain ⟨root, hholds, hkeyed, hperm, hversions⟩ := hv.exists_tree
  obtain ⟨h', root', path, a, hins, hholds', hf, hkeyed', hperm', hchain⟩ := insert_keyed (fun _ _ hab => le_of_lt hab)
    (fun _ _ hab => hab) (fun _ _ _ hab hbc => lt_of_lt_of_le hab hbc) hholds hkeyed hfit
    (fun found hfind => (hundivided found hfind).inPlace)
    (fun found hfind hsorted => divides_lt hsorted (hundivided found hfind)) clock
  refine ⟨h', hins, ⟨root', hholds', hkeyed', (hperm'.trans (hperm.cons e)).trans (List.perm_append_singleton e done).symm,
    ?_⟩⟩
  intro hincreasing key
  obtain ⟨hdone, -, hnew⟩ := List.pairwise_append.mp hincreasing
  rw [versionsOf_insert hholds hf hkeyed (hundivided (a, _) hf.find) hchain]
  split
  · refine List.pairwise_cons.mpr ⟨?_, hversions hdone key⟩
    intro x hx
    exact hnew x (hperm.subset (mem_versionsOf.mp hx).1) e (List.mem_singleton_self e)
  · exact hversions hdone key

/-! ## Lookups -/

/-- The version that a reader is to find: the newest one of the key that no aborted batch wrote and whose timestamp is
not above that of the reader. -/
structure IsNewest (aborted : List ℕ) (key : Bytes) (readTs : ℕ) (es : List KeyValuePair) (e : KeyValuePair) : Prop where
  mem : e ∈ es
  ofKey : e.key = key
  live : e.timestamp ∉ aborted
  le : e.timestamp ≤ readTs
  newest : ∀ x ∈ es, x.key = key → x.timestamp ∉ aborted → x.timestamp ≤ readTs → x.timestamp ≤ e.timestamp

theorem visible_iff {aborted : List ℕ} {readTs : ℕ} {x : KeyValuePair} :
    BPlusTree.visible aborted readTs x = true ↔ x.timestamp ∉ aborted ∧ x.timestamp ≤ readTs := by
  simp [BPlusTree.visible]

theorem Holds.lookupVersion_eq {h : Heap} {root : Node} {todo : List Retired} (hh : h.Holds root todo)
    (hkeyed : Keyed (· < ·) (root.chain [])) (aborted : List ℕ) (key : Bytes) (readTs : ℕ) :
    h.lookupVersion aborted key readTs =
      (versionsOf key (entriesOf (root.chain []))).find? (BPlusTree.visible aborted readTs) := by
  obtain ⟨path, a, hf⟩ := hh.found key
  obtain ⟨hsep, hbelow⟩ := hf.route hh hkeyed
  rw [hf.chain] at hkeyed
  have hsorted := hkeyed.sorted ⟨sepOf path [], a, (h.leaves a).page⟩ (by simp)
  obtain ⟨hbefore, hafter⟩ := hkeyed.versionsOf_eq hsep hbelow
  have hleaf : entriesOf (root.chain []) =
      entriesOf (before path []) ++ ((h.leaves a).page.slots ++ entriesOf (after path)) := by
    rw [hf.chain, entriesOf_append]
    rfl
  have hfind : h.findLeaf key h.alloc.next h.root = some a := by
    rw [findLeaf_eq h key _ _ [], hf.find]
    rfl
  rw [hleaf, versionsOf_append, versionsOf_append, hbefore, hafter, List.nil_append, List.append_nil,
    ← BPlusTree.scanLeaf_eq hsorted, lookupVersion, hfind]
  rfl

/-- The first version of a list from the newest to the oldest that passes the test is the newest one that does. -/
theorem find_newest {vis : KeyValuePair → Bool} {versions : List KeyValuePair} {e : KeyValuePair}
    (hsorted : versions.Pairwise fun a b => b.timestamp < a.timestamp) (he : e ∈ versions) (hvis : vis e = true)
    (hnewest : ∀ x ∈ versions, vis x = true → x.timestamp ≤ e.timestamp) : versions.find? vis = some e := by
  induction versions with
  | nil => cases he
  | cons x versions ih =>
    obtain ⟨hhead, htail⟩ := List.pairwise_cons.mp hsorted
    rcases List.mem_cons.mp he with rfl | hmem
    · exact List.find?_cons_of_pos hvis
    · have hx : ¬ vis x = true := by
        intro hx
        have hle := hnewest x List.mem_cons_self hx
        have hlt := hhead e hmem
        omega
      rw [List.find?_cons_of_neg hx]
      exact ih htail hmem fun y hy => hnewest y (List.mem_cons_of_mem x hy)

theorem Versioned.lookup {h : Heap} {done : List KeyValuePair} (hv : h.Versioned done)
    (hincreasing : done.Pairwise fun a b => a.timestamp < b.timestamp) (aborted : List ℕ) (key : Bytes) (readTs : ℕ) :
    (∀ e, IsNewest aborted key readTs done e →
        h.lookup aborted key readTs = if e.isTombstone then none else some e.value) ∧
      ((∀ x ∈ done, x.key = key → x.timestamp ∉ aborted → ¬ x.timestamp ≤ readTs) →
        h.lookup aborted key readTs = none) := by
  obtain ⟨root, hholds, hkeyed, hperm, hversions⟩ := hv.exists_tree
  have hlookup := hholds.lookupVersion_eq hkeyed aborted key readTs
  have hmem : ∀ x ∈ versionsOf key (entriesOf (root.chain [])), x ∈ done ∧ x.key = key := fun x hx =>
    ⟨hperm.subset (mem_versionsOf.mp hx).1, (mem_versionsOf.mp hx).2⟩
  constructor
  · intro e he
    have hin : e ∈ versionsOf key (entriesOf (root.chain [])) :=
      mem_versionsOf.mpr ⟨hperm.mem_iff.mpr he.mem, he.ofKey⟩
    have hfind := find_newest (hversions hincreasing key) hin (visible_iff.mpr ⟨he.live, he.le⟩) fun x hx hvis =>
      he.newest x (hmem x hx).1 (hmem x hx).2 (visible_iff.mp hvis).1 (visible_iff.mp hvis).2
    rw [Heap.lookup, hlookup, hfind]
  · intro hnone
    have hfind : (versionsOf key (entriesOf (root.chain []))).find? (BPlusTree.visible aborted readTs) = none := by
      refine List.find?_eq_none.mpr fun x hx hvis => ?_
      obtain ⟨hlive, hle⟩ := visible_iff.mp hvis
      exact hnone x (hmem x hx).1 (hmem x hx).2 hlive hle
    rw [Heap.lookup, hlookup, hfind]

/-- In a sequence of insertions with increasing timestamps that leave the versions of each key in one leaf and keep the
separators within the nodes, every `Lookup` answers with the newest version that it may see. -/
theorem inserts_lookup_newest (fenced : Bool) (es : List (ℕ × KeyValuePair))
    (hincreasing : (es.map Prod.snd).Pairwise fun a b => a.timestamp < b.timestamp)
    (hall : Along (fun h e => h.Fits e ∧ h.Undivided e) (new fenced) es) :
    ∃ h, (new fenced).inserts es = some h ∧ ∀ aborted key readTs,
      (∀ e, IsNewest aborted key readTs (es.map Prod.snd) e →
          h.lookup aborted key readTs = if e.isTombstone then none else some e.value) ∧
        ((∀ x ∈ es.map Prod.snd, x.key = key → x.timestamp ∉ aborted → ¬ x.timestamp ≤ readTs) →
          h.lookup aborted key readTs = none) := by
  have hstep : ∀ (h : Heap) (done : List KeyValuePair) (clock : ℕ) (e : KeyValuePair), h.Versioned done →
      (h.Fits e ∧ h.Undivided e) → ∃ h', h.insert clock e = some h' ∧ h'.Versioned (done ++ [e]) :=
    fun h done clock e hv hok => hv.insert hok.1 hok.2 clock
  obtain ⟨h, hins, hv⟩ := Along.run hstep [] (new_versioned fenced) hall
  exact ⟨h, hins, fun aborted key readTs => hv.lookup hincreasing aborted key readTs⟩

theorem descendingRun_newest : (descendingRun.map Prod.snd).Pairwise (fun a b => a.timestamp < b.timestamp) ∧
    Along (fun h e => h.Fits e ∧ h.Undivided e) (new false) descendingRun ∧
    ∃ h, (new false).inserts descendingRun = some h ∧ ∀ aborted key readTs,
      (∀ e, IsNewest aborted key readTs (descendingRun.map Prod.snd) e →
          h.lookup aborted key readTs = if e.isTombstone then none else some e.value) ∧
        ((∀ x ∈ descendingRun.map Prod.snd, x.key = key → x.timestamp ∉ aborted → ¬ x.timestamp ≤ readTs) →
          h.lookup aborted key readTs = none) :=
  ⟨by decide +kernel, by decide +kernel,
    inserts_lookup_newest false descendingRun (by decide +kernel) (by decide +kernel)⟩

/-- The greater key goes to the left page for lack of room in the right one, and is not found there. -/
theorem greater_key_not_found : (ascendingRun.map Prod.snd).Pairwise (fun a b => a.timestamp < b.timestamp) ∧
    IsNewest [] [2] 2 (ascendingRun.map Prod.snd) ⟨[2], List.replicate 2040 0, 2, false⟩ ∧
    ((new false).inserts ascendingRun).map (fun h => h.lookup [] [2] 2) = some none := by
  refine ⟨by decide +kernel, ⟨by decide +kernel, rfl, by decide, by decide, ?_⟩, by decide +kernel⟩
  intro x hx hkey hlive hle
  exact hle

end Heap

end Kvdb
