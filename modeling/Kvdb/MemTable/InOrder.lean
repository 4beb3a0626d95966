import Kvdb.MemTable.Balance

/-! # The key order of the leaf chain

A leaf is divided by the number of its entries and not by their sizes, so the half that a new entry belongs to may
have no room for it. `SplitCoW` then appends the entry to the other half, and if that has no room either, drops it.
`InPlace` says when the entry still goes where its key belongs; as long as it does, `Export` lists every inserted
version once and by key. -/
namespace Kvdb
set_option autoImplicit false

namespace LeafPage

/-- Bytes that an entry takes in a page. -/
def entrySize (e : KeyValuePair) : ℕ := recSize e + slotSize

/-- The entry goes where its key belongs: into the leaf; else into the half of its position; else to the end of the
left half if its position is the start of the right half; else to the end of the right half, if no key there is
greater. -/
def InPlace (leaf : LeafPage) (e : KeyValuePair) : Prop :=
  entrySize e ≤ leaf.free ∨
    (leaf.find e.key < leaf.slots.length / 2 ∧ (entrySize e ≤ leaf.leftHalf.free ∨
      (entrySize e ≤ leaf.rightHalf.free ∧ ∀ x ∈ leaf.rightHalf.slots, x.key ≤ e.key))) ∨
    (leaf.slots.length / 2 ≤ leaf.find e.key ∧ (entrySize e ≤ leaf.rightHalf.free ∨
      (entrySize e ≤ leaf.leftHalf.free ∧ leaf.find e.key = leaf.slots.length / 2)))

instance decidableInPlace (leaf : LeafPage) (e : KeyValuePair) : Decidable (leaf.InPlace e) :=
  inferInstanceAs (Decidable (_ ∨ _ ∨ _))

theorem insertEntry_of_le {leaf : LeafPage} {e : KeyValuePair} (h : entrySize e ≤ leaf.free) (pos : ℕ) :
    leaf.insertEntry pos e = some ⟨leaf.slots.insertIdx pos e⟩ := if_neg (Nat.not_lt.mpr h)

theorem insertEntry_of_lt {leaf : LeafPage} {e : KeyValuePair} (h : leaf.free < entrySize e) (pos : ℕ) :
    leaf.insertEntry pos e = none := if_pos h

theorem length_leftHalf (leaf : LeafPage) : leaf.leftHalf.slots.length = leaf.slots.length / 2 := by
  simp only [leftHalf, List.length_take]
  omega

theorem length_rightHalf (leaf : LeafPage) :
    leaf.rightHalf.slots.length = leaf.slots.length - leaf.slots.length / 2 := by
  simp [rightHalf]

/-- A leaf that is split has entries, and its right half too. -/
theorem rightHalf_ne_nil {leaf : LeafPage} {e : KeyValuePair} (hfull : leaf.free < entrySize e)
    (hroom : entrySize e ≤ leaf.leftHalf.free ∨ entrySize e ≤ leaf.rightHalf.free) : leaf.rightHalf.slots ≠ [] := by
  intro hnil
  have hlen := leaf.length_rightHalf
  rw [hnil, List.length_nil] at hlen
  have hempty : leaf.slots = [] := by
    apply List.eq_nil_of_length_eq_zero
    omega
  have hleft : leaf.leftHalf = leaf := by
    cases leaf
    simp only at hempty
    simp [leftHalf, hempty]
  have hright : leaf.rightHalf = leaf := by
    cases leaf
    simp only at hempty
    simp [rightHalf, hempty]
  rw [hleft, hright] at hroom
  omega

/-- The pages of a split, by where the entry finds room. -/
theorem splitLeaf_left {leaf : LeafPage} {e : KeyValuePair} (hlt : leaf.find e.key < leaf.slots.length / 2)
    (hroom : entrySize e ≤ leaf.leftHalf.free) : leaf.splitLeaf (leaf.find e.key) e =
      (⟨leaf.leftHalf.slots.insertIdx (leaf.find e.key) e⟩, leaf.rightHalf) := by
  unfold splitLeaf
  simp only [if_pos hlt, insertEntry_of_le hroom]

theorem splitLeaf_right {leaf : LeafPage} {e : KeyValuePair} (hge : leaf.slots.length / 2 ≤ leaf.find e.key)
    (hroom : entrySize e ≤ leaf.rightHalf.free) : leaf.splitLeaf (leaf.find e.key) e =
      (leaf.leftHalf, ⟨leaf.rightHalf.slots.insertIdx (leaf.find e.key - leaf.slots.length / 2) e⟩) := by
  unfold splitLeaf
  simp only [if_neg (Nat.not_lt.mpr hge), insertEntry_of_le hroom]

theorem splitLeaf_end {leaf : LeafPage} {e : KeyValuePair} (hge : leaf.slots.length / 2 ≤ leaf.find e.key)
    (hnoroom : leaf.rightHalf.free < entrySize e) (hroom : entrySize e ≤ leaf.leftHalf.free) :
    leaf.splitLeaf (leaf.find e.key) e = (⟨leaf.leftHalf.slots ++ [e]⟩, leaf.rightHalf) := by
  unfold splitLeaf
  simp only [if_neg (Nat.not_lt.mpr hge), insertEntry_of_lt hnoroom, insertEntry_of_le hroom,
    List.insertIdx_length_self]

/-- The two pages of a split in place: the slots with the entry at its position, or at the end where no key is
greater. -/
theorem splitLeaf_inPlace {leaf : LeafPage} {e : KeyValuePair} (hfull : leaf.free < entrySize e) (h : leaf.InPlace e) :
    (leaf.splitLeaf (leaf.find e.key) e).2.slots ≠ [] ∧
      ((leaf.splitLeaf (leaf.find e.key) e).1.slots ++ (leaf.splitLeaf (leaf.find e.key) e).2.slots =
          leaf.slots.insertIdx (leaf.find e.key) e ∨
        ((leaf.splitLeaf (leaf.find e.key) e).1.slots ++ (leaf.splitLeaf (leaf.find e.key) e).2.slots =
            leaf.slots ++ [e] ∧ (∀ x ∈ leaf.rightHalf.slots, x.key ≤ e.key) ∧
          leaf.find e.key < leaf.slots.length / 2 ∧ leaf.leftHalf.free < entrySize e)) := by
  have hpos := leaf.find_le e.key
  have hhalves := leaf.halves_append
  rcases h with h | ⟨hlt, hleft | ⟨hright, hle⟩⟩ | ⟨hge, hright | ⟨hleft, heq⟩⟩
  · omega
  · have hown := splitLeaf_append (e := e) hpos (by rw [if_pos hlt, insertEntry_of_le hleft]; rfl)
    exact ⟨hown.2, Or.inl hown.1⟩
  · by_cases hroom : entrySize e ≤ leaf.leftHalf.free
    · have hown := splitLeaf_append (e := e) hpos (by rw [if_pos hlt, insertEntry_of_le hroom]; rfl)
      exact ⟨hown.2, Or.inl hown.1⟩
    · have hsplit : leaf.splitLeaf (leaf.find e.key) e = (leaf.leftHalf, ⟨leaf.rightHalf.slots ++ [e]⟩) := by
        unfold splitLeaf
        simp only [if_pos hlt, insertEntry_of_lt (Nat.lt_of_not_le hroom), insertEntry_of_le hright,
          List.insertIdx_length_self]
      rw [hsplit]
      refine ⟨by simp, Or.inr ⟨?_, hle, hlt, Nat.lt_of_not_le hroom⟩⟩
      rw [← List.append_assoc, hhalves]
  · have hown := splitLeaf_append (e := e) hpos (by
      rw [if_neg (Nat.not_lt.mpr hge), insertEntry_of_le hright]; rfl)
    exact ⟨hown.2, Or.inl hown.1⟩
  · by_cases hroom : entrySize e ≤ leaf.rightHalf.free
    · have hown := splitLeaf_append (e := e) hpos (by
        rw [if_neg (Nat.not_lt.mpr hge), insertEntry_of_le hroom]; rfl)
      exact ⟨hown.2, Or.inl hown.1⟩
    · rw [splitLeaf_end hge (Nat.lt_of_not_le hroom) hleft]
      refine ⟨rightHalf_ne_nil hfull (Or.inl hleft), Or.inl ?_⟩
      rw [insertIdx_eq_take_drop e _ _ hpos, heq]
      simp [leftHalf, rightHalf]

theorem splitLeaf_sorted {leaf : LeafPage} {e : KeyValuePair} (hsorted : leaf.slots.Pairwise KeyLe)
    (hfull : leaf.free < entrySize e) (h : leaf.InPlace e) :
    ((leaf.splitLeaf (leaf.find e.key) e).1.slots ++ (leaf.splitLeaf (leaf.find e.key) e).2.slots).Pairwise KeyLe ∧
      ((leaf.splitLeaf (leaf.find e.key) e).1.slots ++ (leaf.splitLeaf (leaf.find e.key) e).2.slots).Perm
        (e :: leaf.slots) := by
  rcases (splitLeaf_inPlace hfull h).2 with heq | ⟨heq, hle, -⟩
  · rw [heq]
    exact ⟨insertIdx_keyLe hsorted e, List.perm_insertIdx e _ (leaf.find_le e.key)⟩
  · rw [heq]
    refine ⟨List.pairwise_append.mpr ⟨hsorted, List.pairwise_singleton _ _, ?_⟩, List.perm_append_singleton e _⟩
    intro x hx y hy
    rw [List.mem_singleton.mp hy]
    have hne : leaf.rightHalf.slots ≠ [] := by
      apply List.ne_nil_of_length_pos
      rw [length_rightHalf]
      have hlen := List.length_pos_of_mem hx
      omega
    obtain ⟨z, hz⟩ := List.exists_mem_of_ne_nil _ hne
    rw [← leaf.halves_append] at hsorted hx
    rcases List.mem_append.mp hx with hx | hx
    · exact le_trans ((List.pairwise_append.mp hsorted).2.2 x hx z hz) (hle z hz)
    · exact hle x hx

theorem firstKey_le {leaf : LeafPage} (hsorted : leaf.slots.Pairwise KeyLe) : ∀ x ∈ leaf.slots, leaf.firstKey ≤ x.key := by
  intro x hx
  obtain ⟨slots⟩ := leaf
  cases slots with
  | nil => cases hx
  | cons y slots =>
    rcases List.mem_cons.mp hx with rfl | hx
    · exact le_refl _
    · exact (List.pairwise_cons.mp hsorted).1 x hx

theorem firstKey_mem {leaf : LeafPage} (hne : leaf.slots ≠ []) : ∃ x ∈ leaf.slots, x.key = leaf.firstKey := by
  obtain ⟨slots⟩ := leaf
  cases slots with
  | nil => exact absurd rfl hne
  | cons y slots => exact ⟨y, List.mem_cons_self, rfl⟩

end LeafPage

namespace Nodes

/-! ## Pages in order -/

/-- The pages are in key order, and the keys of each lie between its separator and the next ones; `R` compares them
with the next ones. -/
structure Keyed (R : Bytes → Bytes → Prop) (pages : List Page) : Prop where
  sorted : ∀ p ∈ pages, p.leaf.slots.Pairwise KeyLe
  above : ∀ p ∈ pages, ∀ x ∈ p.leaf.slots, p.sep ≤ x.key
  apart : pages.Pairwise fun p q => p.sep ≤ q.sep ∧ ∀ x ∈ p.leaf.slots, R x.key q.sep

/-- The slots of the pages in order. -/
def entriesOf (pages : List Page) : List KeyValuePair := pages.flatMap fun p => p.leaf.slots

theorem Keyed.pairwise {R : Bytes → Bytes → Prop} {pages : List Page} (hR : ∀ a b, R a b → a ≤ b)
    (h : Keyed R pages) : (entriesOf pages).Pairwise KeyLe := by
  refine List.pairwise_flatMap.mpr ⟨h.sorted, ?_⟩
  refine h.apart.imp_of_mem ?_
  intro p q _ hq hpq x hx y hy
  exact le_trans (hR _ _ (hpq.2 x hx)) (h.above q hq y hy)

/-- Pages that stand for one page of the list. -/
theorem Keyed.replace {R : Bytes → Bytes → Prop} {as bs new : List Page} {p : Page}
    (hR : ∀ a b c, R a b → b ≤ c → R a c) (h : Keyed R (as ++ p :: bs)) (hnew : Keyed R new)
    (hsep : ∀ q ∈ new, p.sep ≤ q.sep)
    (hright : ∀ q ∈ new, ∀ b ∈ bs, q.sep ≤ b.sep ∧ ∀ x ∈ q.leaf.slots, R x.key b.sep) :
    Keyed R (as ++ new ++ bs) := by
  obtain ⟨has, hpbs, hcross⟩ := List.pairwise_append.mp h.apart
  obtain ⟨hp, hbs⟩ := List.pairwise_cons.mp hpbs
  have hmem : ∀ q ∈ as ++ new ++ bs, q ∈ as ++ p :: bs ∨ q ∈ new := by
    intro q hq
    simp only [List.mem_append, List.mem_cons] at hq ⊢
    tauto
  constructor
  · intro q hq
    rcases hmem q hq with hq | hq
    · exact h.sorted q hq
    · exact hnew.sorted q hq
  · intro q hq
    rcases hmem q hq with hq | hq
    · exact h.above q hq
    · exact hnew.above q hq
  · rw [List.append_assoc]
    refine List.pairwise_append.mpr ⟨has, List.pairwise_append.mpr ⟨hnew.apart, hbs, hright⟩, ?_⟩
    intro a ha q hq
    rcases List.mem_append.mp hq with hq | hq
    · obtain ⟨hle, hkeys⟩ := hcross a ha p List.mem_cons_self
      exact ⟨le_trans hle (hsep q hq), fun x hx => hR _ _ _ (hkeys x hx) (hsep q hq)⟩
    · exact hcross a ha q (List.mem_cons_of_mem p hq)

/-- What is asked of a split, for the comparison `R`. -/
def Divides (R : Bytes → Bytes → Prop) (leaf : LeafPage) (e : KeyValuePair) : Prop :=
  leaf.free < LeafPage.entrySize e → ∀ x ∈ (leaf.splitLeaf (leaf.find e.key) e).1.slots,
    R x.key (leaf.splitLeaf (leaf.find e.key) e).2.firstKey

theorem divides_le {leaf : LeafPage} {e : KeyValuePair} (hsorted : leaf.slots.Pairwise KeyLe) (h : leaf.InPlace e) :
    Divides (· ≤ ·) leaf e := by
  intro hfull x hx
  obtain ⟨hpages, -⟩ := LeafPage.splitLeaf_sorted hsorted hfull h
  obtain ⟨y, hy, hkey⟩ := LeafPage.firstKey_mem (LeafPage.splitLeaf_inPlace hfull h).1
  rw [← hkey]
  exact (List.pairwise_append.mp hpages).2.2 x hx y hy

/-- The new pages of an insertion in place: their keys are those of the page and of the entry, and their separators are
the old one or such a key. -/
theorem newPages_keyed {R : Bytes → Bytes → Prop} {e : KeyValuePair} (al : Alloc) (a : ℕ) {leaf : LeafPage} {sep : Bytes}
    (hsorted : leaf.slots.Pairwise KeyLe) (habove : ∀ x ∈ leaf.slots, sep ≤ x.key) (hsep : sep ≤ e.key)
    (hplace : leaf.InPlace e) (hdiv : Divides R leaf e) :
    Keyed R ((insertLeaf e al a leaf).grown.chain sep) ∧
      (entriesOf ((insertLeaf e al a leaf).grown.chain sep)).Perm (e :: leaf.slots) ∧
      ∀ q ∈ (insertLeaf e al a leaf).grown.chain sep, q.sep = sep ∨ ∃ x ∈ e :: leaf.slots, q.sep = x.key := by
  have habove' : ∀ x ∈ e :: leaf.slots, sep ≤ x.key := by
    intro x hx
    rcases List.mem_cons.mp hx with rfl | hx
    · exact hsep
    · exact habove x hx
  rcases insertLeaf_chain e al a leaf sep with ⟨page, x, hroom, hchain⟩ | ⟨hroom, x, y, hchain⟩
  · obtain ⟨hslots, -⟩ := LeafPage.insertEntry_eq_some hroom
    have hperm := List.perm_insertIdx e leaf.slots (leaf.find_le e.key)
    have hpage := LeafPage.insertIdx_keyLe hsorted e
    rw [← hslots] at hperm hpage
    rw [hchain]
    refine ⟨⟨by simpa using hpage, ?_, List.pairwise_singleton _ _⟩, by simpa [entriesOf] using hperm, by simp⟩
    intro q hq z hz
    rw [List.mem_singleton.mp hq] at hz ⊢
    exact habove' z (hperm.subset hz)
  · have hfull := LeafPage.insertEntry_eq_none hroom
    obtain ⟨hpages, hperm⟩ := LeafPage.splitLeaf_sorted hsorted hfull hplace
    obtain ⟨hl, hr, -⟩ := List.pairwise_append.mp hpages
    obtain ⟨z, hz, hkey⟩ := LeafPage.firstKey_mem (LeafPage.splitLeaf_inPlace hfull hplace).1
    have hz' := hperm.subset (List.mem_append_right _ hz)
    rw [hchain]
    refine ⟨⟨by simpa using ⟨hl, hr⟩, ?_, ?_⟩, by simpa [entriesOf] using hperm, ?_⟩
    · intro q hq w hw
      simp only [List.mem_cons, List.not_mem_nil, or_false] at hq
      rcases hq with rfl | rfl
      · exact habove' w (hperm.subset (List.mem_append_left _ hw))
      · exact LeafPage.firstKey_le hr w hw
    · refine List.pairwise_pair.mpr ⟨?_, hdiv hfull⟩
      show sep ≤ _
      rw [← hkey]
      exact habove' z hz'
    · intro q hq
      simp only [List.mem_cons, List.not_mem_nil, or_false] at hq
      rcases hq with rfl | rfl
      · exact Or.inl rfl
      · exact Or.inr ⟨z, hz', hkey.symm⟩

/-- The pages after an insertion in place. -/
theorem Keyed.insert {R : Bytes → Bytes → Prop} {as bs : List Page} {p : Page} {e : KeyValuePair} (al : Alloc)
    (hle : ∀ a b, R a b → a ≤ b) (hlt : ∀ a b, a < b → R a b) (htrans : ∀ a b c, R a b → b ≤ c → R a c)
    (h : Keyed R (as ++ p :: bs)) (hplace : p.leaf.InPlace e) (hdiv : Divides R p.leaf e) (hsep : p.sep ≤ e.key)
    (hbelow : ∀ b ∈ bs, e.key < b.sep) :
    Keyed R (as ++ (insertLeaf e al p.addr p.leaf).grown.chain p.sep ++ bs) ∧
      (entriesOf (as ++ (insertLeaf e al p.addr p.leaf).grown.chain p.sep ++ bs)).Perm
        (e :: entriesOf (as ++ p :: bs)) := by
  have hpmem : p ∈ as ++ p :: bs := by simp
  have habove := h.above p hpmem
  have hapart := (List.pairwise_cons.mp (List.pairwise_append.mp h.apart).2.1).1
  obtain ⟨hnew, hperm, hseps⟩ := newPages_keyed al p.addr (h.sorted p hpmem) habove hsep hplace hdiv
  have hright : ∀ x ∈ e :: p.leaf.slots, p.sep ≤ x.key ∧ ∀ b ∈ bs, R x.key b.sep := by
    intro x hx
    rcases List.mem_cons.mp hx with rfl | hx
    · exact ⟨hsep, fun b hb => hlt _ _ (hbelow b hb)⟩
    · exact ⟨habove x hx, fun b hb => (hapart b hb).2 x hx⟩
  generalize (insertLeaf e al p.addr p.leaf).grown.chain p.sep = new at *
  refine ⟨h.replace htrans hnew ?_ ?_, ?_⟩
  · intro q hq
    rcases hseps q hq with heq | ⟨x, hx, heq⟩
    · exact le_of_eq heq.symm
    · rw [heq]
      exact (hright x hx).1
  · intro q hq b hb
    constructor
    · rcases hseps q hq with heq | ⟨x, hx, heq⟩
      · rw [heq]
        exact (hapart b hb).1
      · rw [heq]
        exact hle _ _ ((hright x hx).2 b hb)
    · intro x hx
      exact (hright x (hperm.subset (List.mem_flatMap.mpr ⟨q, hq, hx⟩))).2 b hb
  · simp only [entriesOf, List.flatMap_append, List.flatMap_cons, List.append_assoc] at hperm ⊢
    refine ((hperm.append_right _).append_left _).trans ?_
    rw [List.cons_append]
    exact List.perm_middle

end Nodes

namespace Heap

open Nodes

/-! ## `Export` -/

theorem Rep.chain {h : Heap} {n : Node} (hrep : Rep h n) (lo : Bytes) :
    ∀ p ∈ n.chain lo, (h.leaves p.addr).page = p.leaf := by
  induction hrep generalizing lo with
  | leaf addr page hpage =>
    intro p hp
    rw [List.mem_singleton.mp hp]
    exact hpage
  | internal addr keys children _ _ ih =>
    intro p hp
    obtain ⟨c, hc, sep, hmem⟩ := mem_chainAll hp
    exact ih c hc sep p hmem

theorem exportFrom_eq {h : Heap} {s : Option ℕ} {as : List ℕ} (hlinked : Segment h.next s as none) {fuel : ℕ}
    (hfuel : as.length ≤ fuel) : h.exportFrom fuel s = as.flatMap fun a => (h.leaves a).page.slots := by
  induction as generalizing s fuel with
  | nil =>
    have hs : s = none := hlinked
    subst hs
    cases fuel with
    | zero => rfl
    | succ fuel => rfl
  | cons a as ih =>
    obtain ⟨rfl, hrest⟩ := hlinked
    cases fuel with
    | zero => cases hfuel
    | succ fuel =>
      rw [exportFrom, List.flatMap_cons]
      exact congrArg _ (ih hrest (Nat.le_of_succ_le_succ hfuel))

/-- `Export` lists the slots of the leaves from left to right. -/
theorem Holds.exportAll_eq {h : Heap} {root : Node} {todo : List Retired} (hh : h.Holds root todo) :
    h.exportAll = entriesOf (root.chain []) := by
  have hlen : ((root.chain []).map Page.addr).length ≤ h.alloc.next := by
    have hnodup := hh.owns.root_nodup.sublist (chain_sublist root [])
    have hsub : (root.chain []).map Page.addr ⊆ List.range h.alloc.next := fun x hx =>
      List.mem_range.mpr (hh.owns.root_below x ((chain_sublist root []).subset hx))
    have hle := (hnodup.subperm hsub).length_le
    rwa [List.length_range] at hle
  rw [exportAll, exportFrom_eq hh.linked hlen, List.flatMap_map, entriesOf]
  refine List.flatMap_congr fun p hp => ?_
  rw [hh.rep.chain [] p hp]

/-! ## Insertions in place -/

/-- The leaf of the key takes the entry in its place. -/
def InPlace (h : Heap) (e : KeyValuePair) : Prop := h.AtLeaf e.key fun a _ => (h.leaves a).page.InPlace e

instance decidableInPlace (h : Heap) (e : KeyValuePair) : Decidable (h.InPlace e) :=
  inferInstanceAs (Decidable (h.AtLeaf e.key _))

/-- Every insertion of the sequence meets `ok` in the state it starts from. -/
def Along (ok : Heap → KeyValuePair → Prop) : Heap → List (ℕ × KeyValuePair) → Prop
  | _, [] => True
  | h, (clock, e) :: es => ok h e ∧ ∀ h' ∈ h.insert clock e, Along ok h' es

instance decidableAlong (ok : Heap → KeyValuePair → Prop) [∀ h e, Decidable (ok h e)] :
    (h : Heap) → (es : List (ℕ × KeyValuePair)) → Decidable (Along ok h es)
  | _, [] => isTrue trivial
  | h, (clock, e) :: es =>
    let _ := fun h' => decidableAlong ok h' es
    inferInstanceAs (Decidable (ok h e ∧ ∀ h' ∈ h.insert clock e, Along ok h' es))

/-- The invariant rule for insertions that meet `ok`. -/
theorem Along.run {ok : Heap → KeyValuePair → Prop} {I : Heap → List KeyValuePair → Prop}
    (hstep : ∀ h done clock e, I h done → ok h e → ∃ h', h.insert clock e = some h' ∧ I h' (done ++ [e])) {h : Heap}
    (done : List KeyValuePair) {es : List (ℕ × KeyValuePair)} (hI : I h done) (hall : Along ok h es) :
    ∃ h', h.inserts es = some h' ∧ I h' (done ++ es.map Prod.snd) := by
  induction es generalizing h done with
  | nil => exact ⟨h, rfl, by simpa using hI⟩
  | cons p es ih =>
    obtain ⟨clock, e⟩ := p
    obtain ⟨hok, hrest⟩ := hall
    obtain ⟨h₁, hins, hI₁⟩ := hstep h done clock e hI hok
    obtain ⟨h', hinserts, hI'⟩ := ih _ hI₁ (hrest h₁ hins)
    refine ⟨h', by rw [inserts, hins, Option.bind_some, hinserts], ?_⟩
    simpa using hI'

theorem nil_le_key (key : Bytes) : [] ≤ key := by
  cases key with
  | nil => exact le_refl _
  | cons b bs => exact le_of_lt List.Lex.nil

/-- The separators around the leaf of a key. -/
theorem Found.route {R : Bytes → Bytes → Prop} {h : Heap} {root : Node} {todo : List Retired} {key : Bytes}
    {path : List Ctx} {a : ℕ} (hf : Found h root key path a) (hh : h.Holds root todo) (hkeyed : Keyed R (root.chain [])) :
    sepOf path [] ≤ key ∧ ∀ b ∈ after path, key < b.sep := by
  obtain ⟨d, hshape⟩ := hh.shape
  have hseps : ((root.chain []).map Page.sep).Pairwise (· ≤ ·) := List.pairwise_map.mpr (hkeyed.apart.imp And.left)
  rw [hf.tree] at hshape hseps
  have hsorted : ∀ c ∈ path, c.keys.Pairwise (· ≤ ·) := fun c hc => hseps.sublist (path_seps hshape hf.full hc [])
  refine ⟨sepOf_le hf.follows hf.full hsorted (nil_le_key key), ?_⟩
  rw [chain_plugAll hf.full, List.map_append] at hseps
  have hafter := (List.pairwise_append.mp hseps).2.1
  intro b hb
  cases hlist : after path with
  | nil =>
    rw [hlist] at hb
    cases hb
  | cons b₀ bs =>
    have hlt := lt_head_after hshape hf.follows hf.full hsorted (b := b₀) (by rw [hlist]; rfl)
    rw [hlist] at hb hafter
    rcases List.mem_cons.mp hb with rfl | hb
    · exact hlt
    · exact lt_of_lt_of_le hlt ((List.pairwise_cons.mp hafter).1 b.sep (List.mem_map_of_mem hb))

theorem insert_keyed {R : Bytes → Bytes → Prop} (hle : ∀ a b, R a b → a ≤ b) (hlt : ∀ a b, a < b → R a b)
    (htrans : ∀ a b c, R a b → b ≤ c → R a c) {h : Heap} {root : Node} {e : KeyValuePair} (hh : h.Holds root [])
    (hkeyed : Keyed R (root.chain [])) (hfit : h.Fits e) (hplace : h.InPlace e)
    (hdiv : h.AtLeaf e.key fun a _ => (h.leaves a).page.slots.Pairwise KeyLe → Divides R (h.leaves a).page e)
    (clock : ℕ) :
    ∃ h' root' path a, h.insert clock e = some h' ∧ h'.Holds root' [] ∧ Found h root e.key path a ∧
      Keyed R (root'.chain []) ∧ (entriesOf (root'.chain [])).Perm (e :: entriesOf (root.chain [])) ∧
      root'.chain [] = before path [] ++ (insertLeaf e h.alloc a (h.leaves a).page).grown.chain (sepOf path []) ++
        after path := by
  obtain ⟨h', root', path, a, hins, hholds, hf, hchain⟩ := insert_chain hh hfit clock
  obtain ⟨hsep, hbelow⟩ := hf.route hh hkeyed
  rw [hf.chain] at hkeyed
  have hsorted := hkeyed.sorted ⟨sepOf path [], a, (h.leaves a).page⟩ (by simp)
  have hnew := hkeyed.insert h.alloc hle hlt htrans (hplace (a, _) hf.find) (hdiv (a, _) hf.find hsorted) hsep hbelow
  refine ⟨h', root', path, a, hins, hholds, hf, ?_, ?_, hchain⟩
  · rw [hchain]
    exact hnew.1
  · rw [hchain, hf.chain]
    exact hnew.2

theorem new_keyed (R : Bytes → Bytes → Prop) : Keyed R ((Node.internal 1 [] [.leaf 0 ⟨[]⟩]).chain []) := by
  constructor <;> simp [Node.chain, chainAll]

/-- The chain holds the versions inserted so far, by key. -/
structure Ordered (h : Heap) (done : List KeyValuePair) : Prop where
  exists_tree : ∃ root, h.Holds root [] ∧ Keyed (· ≤ ·) (root.chain []) ∧ (entriesOf (root.chain [])).Perm done

theorem Ordered.insert {h : Heap} {done : List KeyValuePair} {e : KeyValuePair} (ho : h.Ordered done) (hfit : h.Fits e)
    (hplace : h.InPlace e) (clock : ℕ) : ∃ h', h.insert clock e = some h' ∧ h'.Ordered (done ++ [e]) := by
  obtain ⟨root, hholds, hkeyed, hperm⟩ := ho.exists_tree
  obtain ⟨h', root', path, a, hins, hholds', -, hkeyed', hperm', -⟩ := insert_keyed (fun _ _ hab => hab)
    (fun _ _ hab => le_of_lt hab) (fun _ _ _ hab hbc => le_trans hab hbc) hholds hkeyed hfit hplace
    (fun found hfind hsorted => divides_le hsorted (hplace found hfind)) clock
  refine ⟨h', hins, ⟨root', hholds', hkeyed', ?_⟩⟩
  exact (hperm'.trans (hperm.cons e)).trans (List.perm_append_singleton e done).symm

theorem new_ordered (fenced : Bool) : (new fenced).Ordered [] :=
  ⟨_, new_holds fenced, new_keyed _, by simp [entriesOf, Node.chain, chainAll]⟩

theorem Ordered.exportAll {h : Heap} {done : List KeyValuePair} (ho : h.Ordered done) :
    h.exportAll.Perm done ∧ h.exportAll.Pairwise KeyLe := by
  obtain ⟨root, hholds, hkeyed, hperm⟩ := ho.exists_tree
  rw [hholds.exportAll_eq]
  exact ⟨hperm, hkeyed.pairwise fun _ _ hab => hab⟩

/-- In a sequence of insertions that each go to their place and keep the separators within the nodes, `Export` lists
every inserted version once and by key. -/
theorem inserts_export_in_order (fenced : Bool) (es : List (ℕ × KeyValuePair))
    (hall : Along (fun h e => h.Fits e ∧ h.InPlace e) (new fenced) es) :
    ∃ h, (new fenced).inserts es = some h ∧ h.exportAll.Perm (es.map Prod.snd) ∧ h.exportAll.Pairwise KeyLe := by
  have hstep : ∀ (h : Heap) (done : List KeyValuePair) (clock : ℕ) (e : KeyValuePair), h.Ordered done →
      (h.Fits e ∧ h.InPlace e) → ∃ h', h.insert clock e = some h' ∧ h'.Ordered (done ++ [e]) :=
    fun h done clock e ho hok => ho.insert hok.1 hok.2 clock
  obtain ⟨h, hins, ho⟩ := Along.run hstep [] (new_ordered fenced) hall
  exact ⟨h, hins, ho.exportAll⟩

/-- Two versions of which only one fits a leaf, the greater key first. -/
def descendingRun : List (ℕ × KeyValuePair) :=
  [(0, ⟨[2], List.replicate 2040 0, 1, false⟩), (0, ⟨[1], List.replicate 2040 0, 2, false⟩)]

theorem descendingRun_in_order : Along (fun h e => h.Fits e ∧ h.InPlace e) (new false) descendingRun ∧
    ∃ h, (new false).inserts descendingRun = some h ∧ h.exportAll.Perm (descendingRun.map Prod.snd) ∧
      h.exportAll.Pairwise KeyLe :=
  ⟨by decide +kernel, inserts_export_in_order false descendingRun (by decide +kernel)⟩

/-- The same two versions, the smaller key first. -/
def ascendingRun : List (ℕ × KeyValuePair) :=
  [(0, ⟨[1], List.replicate 2040 0, 1, false⟩), (0, ⟨[2], List.replicate 2040 0, 2, false⟩)]

theorem ascendingRun_keys : ((new false).inserts ascendingRun).map (fun h => h.exportAll.map KeyValuePair.key) =
    some [[2], [1]] := by
  decide +kernel

/-- The second version has no room in the right page and goes to the left one. -/
theorem ascending_keys_exported_backwards :
    (∀ p ∈ ascendingRun, p.2.key.length ≤ Config.maxKeyBytes ∧ p.2.value.length ≤ 2048) ∧
      ∃ h, (new false).inserts ascendingRun = some h ∧ h.exportAll.map KeyValuePair.key = [[2], [1]] ∧
        ¬ h.exportAll.Pairwise KeyLe := by
  obtain ⟨h, hins, hkeys⟩ := Option.map_eq_some_iff.mp ascendingRun_keys
  refine ⟨by decide +kernel, h, hins, hkeys, ?_⟩
  intro hsorted
  have hpairs : (h.exportAll.map KeyValuePair.key).Pairwise (· ≤ ·) := List.pairwise_map.mpr hsorted
  rw [hkeys] at hpairs
  revert hpairs
  decide

end Heap

end Kvdb
