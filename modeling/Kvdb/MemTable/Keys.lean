import Kvdb.MemTable.Contents

/-! # The keys of the leaf chain

The entries of a chain stand by key and the separators divide the keys. An insertion that finds its place
(`Placed`) keeps this and puts the new version in front of the older ones of its key, whatever their
timestamps are: the versions of a key are a stack, and a lookup returns the first one that it may see. -/
namespace Kvdb
set_option autoImplicit false

def KeyLe (a b : KeyValuePair) : Prop := a.key ≤ b.key

/-- The versions of a key, in the order of the table. -/
def versionsOf (key : Bytes) (es : List KeyValuePair) : List KeyValuePair :=
  es.filter fun x => decide (x.key = key)

theorem mem_versionsOf {key : Bytes} {es : List KeyValuePair} {x : KeyValuePair} :
    x ∈ versionsOf key es ↔ x ∈ es ∧ x.key = key := by
  simp [versionsOf]

theorem versionsOf_append (key : Bytes) (as bs : List KeyValuePair) :
    versionsOf key (as ++ bs) = versionsOf key as ++ versionsOf key bs := List.filter_append as bs

theorem versionsOf_eq_nil {key : Bytes} {es : List KeyValuePair} (h : ∀ x ∈ es, x.key ≠ key) :
    versionsOf key es = [] := by
  refine List.filter_eq_nil_iff.mpr ?_
  intro x hx heq
  exact h x hx (of_decide_eq_true heq)

/-- Entries in key order whose versions of each key are ordered by a relation. -/
theorem pairwise_versions {R : KeyValuePair → KeyValuePair → Prop} {es : List KeyValuePair} (hkeys : es.Pairwise KeyLe)
    (hversions : ∀ key, (versionsOf key es).Pairwise R) :
    es.Pairwise fun a b => a.key < b.key ∨ (a.key = b.key ∧ R a b) := by
  induction es with
  | nil => exact List.Pairwise.nil
  | cons e es ih =>
    obtain ⟨hhead, htail⟩ := List.pairwise_cons.mp hkeys
    refine List.pairwise_cons.mpr ⟨?_, ih htail ?_⟩
    · intro x hx
      rcases lt_or_eq_of_le (hhead x hx) with hlt | heq
      · exact .inl hlt
      · have hpair := hversions e.key
        rw [versionsOf, List.filter_cons_of_pos (by simp), List.pairwise_cons] at hpair
        exact .inr ⟨heq, hpair.1 x (mem_versionsOf.mpr ⟨hx, heq.symm⟩)⟩
    · intro key
      exact (hversions key).sublist ((List.sublist_cons_self e es).filter _)

theorem insertIdx_eq_take_drop {α : Type} (x : α) (xs : List α) (i : ℕ) (h : i ≤ xs.length) :
    xs.insertIdx i x = xs.take i ++ x :: xs.drop i := by
  induction xs generalizing i with
  | nil =>
    have hi : i = 0 := Nat.le_zero.mp h
    subst hi
    rfl
  | cons y ys ih =>
    cases i with
    | zero => rfl
    | succ i =>
      rw [List.insertIdx_succ_cons, ih i (Nat.le_of_succ_le_succ h)]
      rfl

namespace LeafPage

/-- The position that `Find` returns divides the slots of a page in key order. -/
theorem find_splits {leaf : LeafPage} (h : leaf.slots.Pairwise KeyLe) (key : Bytes) :
    Bisect.Splits (fun e : KeyValuePair => decide (key ≤ e.key)) leaf.slots (leaf.find key) := by
  refine Bisect.bisect_all find_middle (h.imp ?_)
  intro a b hab hle
  exact decide_eq_true (le_trans (of_decide_eq_true hle) hab)

theorem take_find_lt {leaf : LeafPage} (h : leaf.slots.Pairwise KeyLe) (key : Bytes) :
    ∀ x ∈ leaf.slots.take (leaf.find key), x.key < key := by
  intro x hx
  have := (find_splits h key).take x hx
  exact lt_of_not_ge (of_decide_eq_false this)

theorem le_drop_find {leaf : LeafPage} (h : leaf.slots.Pairwise KeyLe) (key : Bytes) :
    ∀ x ∈ leaf.slots.drop (leaf.find key), key ≤ x.key := by
  intro x hx
  exact of_decide_eq_true ((find_splits h key).drop x hx)

/-- The page with a new version at the position `Find` gives is in key order. -/
theorem insertIdx_keyLe {leaf : LeafPage} (h : leaf.slots.Pairwise KeyLe) (e : KeyValuePair) :
    (leaf.slots.insertIdx (leaf.find e.key) e).Pairwise KeyLe := by
  rw [insertIdx_eq_take_drop e _ _ (leaf.find_le e.key), List.pairwise_append, List.pairwise_cons]
  refine ⟨h.sublist (List.take_sublist _ _), ⟨le_drop_find h e.key, h.sublist (List.drop_sublist _ _)⟩, ?_⟩
  intro x hx y hy
  have hlt := take_find_lt h e.key x hx
  rcases List.mem_cons.mp hy with rfl | hy
  · exact le_of_lt hlt
  · exact le_of_lt (lt_of_lt_of_le hlt (le_drop_find h e.key y hy))

/-- The new version stands in front of the others of its key. -/
theorem versionsOf_insertIdx {leaf : LeafPage} (h : leaf.slots.Pairwise KeyLe) (e : KeyValuePair) (key : Bytes) :
    versionsOf key (leaf.slots.insertIdx (leaf.find e.key) e) =
      if e.key = key then e :: versionsOf key leaf.slots else versionsOf key leaf.slots := by
  rw [insertIdx_eq_take_drop e _ _ (leaf.find_le e.key)]
  have hwhole : versionsOf key leaf.slots = versionsOf key (leaf.slots.take (leaf.find e.key)) ++
      versionsOf key (leaf.slots.drop (leaf.find e.key)) := by
    rw [← versionsOf_append, List.take_append_drop]
  rw [hwhole, versionsOf_append]
  split
  · next hkey =>
    subst hkey
    rw [versionsOf_eq_nil fun x hx => ne_of_lt (take_find_lt h e.key x hx), List.nil_append, List.nil_append]
    simp [versionsOf]
  · next hkey => simp [versionsOf, hkey]

/-- In a split whose new entry goes to its own half the two pages are the page with the entry. -/
theorem splitLeaf_append {leaf : LeafPage} {pos : ℕ} {e : KeyValuePair} (hpos : pos ≤ leaf.slots.length)
    (hown : (if pos < leaf.slots.length / 2 then (leaf.leftHalf.insertEntry pos e).isSome
      else (leaf.rightHalf.insertEntry (pos - leaf.slots.length / 2) e).isSome) = true) :
    (leaf.splitLeaf pos e).1.slots ++ (leaf.splitLeaf pos e).2.slots = leaf.slots.insertIdx pos e ∧
      ((leaf.splitLeaf pos e).2.slots ≠ []) := by
  have hmid : leaf.slots.length / 2 ≤ leaf.slots.length := Nat.div_le_self _ _
  have hllen : leaf.leftHalf.slots.length = leaf.slots.length / 2 := by
    simp only [leftHalf, List.length_take]
    omega
  have hrlen : leaf.rightHalf.slots.length = leaf.slots.length - leaf.slots.length / 2 := by
    simp [rightHalf]
  unfold splitLeaf
  simp only []
  split
  · next hlt =>
    rw [if_pos hlt] at hown
    obtain ⟨left', hleft⟩ := Option.isSome_iff_exists.mp hown
    rw [hleft]
    simp only []
    refine ⟨?_, ?_⟩
    · rw [(insertEntry_eq_some hleft).1, insertIdx_eq_take_drop e _ _ (by omega),
        insertIdx_eq_take_drop e _ _ hpos, List.append_assoc, List.cons_append]
      congr 1
      · rw [leftHalf, List.take_take, Nat.min_eq_left (Nat.le_of_lt hlt)]
      · congr 1
        conv_rhs => rw [← leaf.halves_append]
        rw [List.drop_append_of_le_length (by omega)]
    · intro hnil
      rw [hnil] at hrlen
      simp only [List.length_nil] at hrlen
      omega
  · next hge =>
    rw [if_neg hge] at hown
    obtain ⟨right', hright⟩ := Option.isSome_iff_exists.mp hown
    rw [hright]
    simp only []
    have hright' := (insertEntry_eq_some hright).1
    rw [insertIdx_eq_take_drop e _ _ (by omega)] at hright'
    refine ⟨?_, ?_⟩
    · rw [hright', insertIdx_eq_take_drop e _ _ hpos, ← List.append_assoc]
      have htake : leaf.slots.take pos =
          leaf.leftHalf.slots ++ leaf.rightHalf.slots.take (pos - leaf.slots.length / 2) := by
        conv_lhs => rw [← leaf.halves_append, List.take_append, hllen]
        rw [List.take_of_length_le (by omega)]
      have hdrop : leaf.slots.drop pos = leaf.rightHalf.slots.drop (pos - leaf.slots.length / 2) := by
        rw [rightHalf, List.drop_drop]
        congr 1
        omega
      rw [htake, hdrop]
    · rw [hright']
      simp

end LeafPage

namespace BPlusTree

/-- The chain is in key order, and each separator lies between the keys on its two sides. -/
def ChainKeyed : LeafPage → List (Bytes × LeafPage) → Prop
  | leaf, [] => leaf.slots.Pairwise KeyLe
  | leaf, (sep, right) :: rest =>
    leaf.slots.Pairwise KeyLe ∧ (∀ a ∈ leaf.slots, a.key < sep) ∧
      (∀ b ∈ chainEntries right rest, sep ≤ b.key) ∧ ChainKeyed right rest

def KeyOrdered (t : BPlusTree) : Prop := ChainKeyed t.firstLeaf t.rest

theorem ChainKeyed.leaf {leaf : LeafPage} {rest : List (Bytes × LeafPage)}
    (h : ChainKeyed leaf rest) : leaf.slots.Pairwise KeyLe := by
  cases rest with
  | nil => exact h
  | cons p rest => exact h.1

theorem ChainKeyed.pairwise {leaf : LeafPage} {rest : List (Bytes × LeafPage)}
    (h : ChainKeyed leaf rest) : (chainEntries leaf rest).Pairwise KeyLe := by
  induction rest generalizing leaf with
  | nil =>
    have hleaf : leaf.slots.Pairwise KeyLe := h
    simpa [chainEntries] using hleaf
  | cons p rest ih =>
    obtain ⟨sep, right⟩ := p
    obtain ⟨hleaf, hlt, hge, hrest⟩ := h
    rw [chainEntries_cons, List.pairwise_append]
    refine ⟨hleaf, ih hrest, ?_⟩
    intro a ha b hb
    exact le_of_lt (lt_of_lt_of_le (hlt a ha) (hge b hb))

theorem empty_keyOrdered : empty.KeyOrdered := List.Pairwise.nil

/-! ## Insertion -/

/-- Two pages in key order with no key in common, divided by the first key of the second. -/
theorem chainKeyed_split {left right : LeafPage} {rest : List (Bytes × LeafPage)}
    (hsorted : (left.slots ++ right.slots).Pairwise KeyLe) (hne : right.slots ≠ [])
    (hdisj : ∀ a ∈ left.slots, ∀ b ∈ right.slots, a.key ≠ b.key)
    (hrest : ∀ sep r rs, rest = (sep, r) :: rs → (∀ b ∈ right.slots, b.key < sep) ∧
      (∀ b ∈ chainEntries r rs, sep ≤ b.key) ∧ ChainKeyed r rs) :
    ChainKeyed left ((right.firstKey, right) :: rest) := by
  obtain ⟨hl, hr, hcross⟩ := List.pairwise_append.mp hsorted
  obtain ⟨b0, bs, hbs⟩ := List.exists_cons_of_ne_nil hne
  have hfirst : right.firstKey = b0.key := by simp [LeafPage.firstKey, hbs]
  have hge : ∀ b ∈ right.slots, b0.key ≤ b.key := by
    intro b hb
    rw [hbs] at hb hr
    rcases List.mem_cons.mp hb with rfl | hb
    · exact le_refl _
    · exact (List.pairwise_cons.mp hr).1 b hb
  have hb0 : b0 ∈ right.slots := by rw [hbs]; exact List.mem_cons_self
  have hright : ChainKeyed right rest := by
    cases rest with
    | nil => exact hr
    | cons p rest =>
      obtain ⟨sep, r⟩ := p
      obtain ⟨h1, h2, h3⟩ := hrest sep r rest rfl
      exact ⟨hr, h1, h2, h3⟩
  refine ⟨hl, ?_, ?_, hright⟩
  · intro a ha
    rw [hfirst]
    exact lt_of_le_of_ne (hcross a ha b0 hb0) (hdisj a ha b0 hb0)
  · intro b hb
    rw [hfirst]
    rcases List.mem_append.mp hb with hb | hb
    · exact hge b hb
    · cases rest with
      | nil => cases hb
      | cons p rest =>
        obtain ⟨sep, r⟩ := p
        obtain ⟨h1, h2, -⟩ := hrest sep r rest rfl
        have hsep : sep ≤ b.key := by
          refine h2 b ?_
          simpa [chainEntries] using hb
        exact le_of_lt (lt_of_lt_of_le (h1 b0 hb0) hsep)

theorem replaceLeaf_keyed {e : KeyValuePair} {leaf : LeafPage} {rest : List (Bytes × LeafPage)}
    (h : ChainKeyed leaf rest) (hplaced : leaf.Placed e)
    (hbelow : ∀ sep r rs, rest = (sep, r) :: rs → e.key < sep) :
    ChainKeyed (replaceLeaf e leaf rest).1 (replaceLeaf e leaf rest).2 := by
  have hsorted := LeafPage.insertIdx_keyLe h.leaf e
  have hlt : ∀ sep r rs, rest = (sep, r) :: rs → ∀ b, (b = e ∨ b ∈ leaf.slots) → b.key < sep := by
    intro sep r rs hrs b hb
    rcases hb with rfl | hb
    · exact hbelow sep r rs hrs
    · subst hrs
      exact h.2.1 b hb
  unfold replaceLeaf
  split
  · next leaf' hins =>
    have hslots := (LeafPage.insertEntry_eq_some hins).1
    rw [← hslots] at hsorted
    cases rest with
    | nil => exact hsorted
    | cons p rest =>
      obtain ⟨sep, r⟩ := p
      refine ⟨hsorted, ?_, h.2.2.1, h.2.2.2⟩
      intro a ha
      rw [hslots] at ha
      exact hlt sep r rest rfl a (List.eq_or_mem_of_mem_insertIdx ha)
  · next hnone =>
    obtain ⟨hown, hdisj⟩ := hplaced.resolve_left (by simp [hnone])
    obtain ⟨happend, hne⟩ := LeafPage.splitLeaf_append (leaf.find_le e.key) hown
    rw [← happend] at hsorted
    refine chainKeyed_split hsorted hne hdisj ?_
    intro sep r rs hrs
    refine ⟨?_, ?_⟩
    · intro b hb
      refine hlt sep r rs hrs b (leaf.splitLeaf_subset _ e b (leaf.find_le e.key) ?_)
      exact List.mem_append_right _ hb
    · subst hrs
      exact h.2.2

/-- The entries of a leaf that takes the entry, or of the two leaves it is split into. -/
theorem chainEntries_replaceLeaf {e : KeyValuePair} {leaf : LeafPage} (rest : List (Bytes × LeafPage))
    (hplaced : leaf.Placed e) :
    chainEntries (replaceLeaf e leaf rest).1 (replaceLeaf e leaf rest).2 =
      leaf.slots.insertIdx (leaf.find e.key) e ++ rest.flatMap fun p => p.2.slots := by
  unfold replaceLeaf
  split
  · next leaf' hins => rw [chainEntries, (LeafPage.insertEntry_eq_some hins).1]
  · next hnone =>
    obtain ⟨hown, -⟩ := hplaced.resolve_left (by simp [hnone])
    obtain ⟨happend, -⟩ := LeafPage.splitLeaf_append (leaf.find_le e.key) hown
    rw [← happend, chainEntries, List.flatMap_cons, List.append_assoc]

theorem versionsOf_replaceLeaf {e : KeyValuePair} {leaf : LeafPage} {rest : List (Bytes × LeafPage)}
    (h : ChainKeyed leaf rest) (hplaced : leaf.Placed e) (key : Bytes) :
    versionsOf key (chainEntries (replaceLeaf e leaf rest).1 (replaceLeaf e leaf rest).2) =
      if e.key = key then e :: versionsOf key (chainEntries leaf rest)
      else versionsOf key (chainEntries leaf rest) := by
  rw [chainEntries_replaceLeaf rest hplaced, chainEntries, versionsOf_append, versionsOf_append,
    LeafPage.versionsOf_insertIdx h.leaf]
  split
  · rfl
  · rfl

theorem insertInto_keyed {e : KeyValuePair} {leaf : LeafPage} {rest : List (Bytes × LeafPage)}
    (h : ChainKeyed leaf rest) (hplaced : (findLeaf e.key leaf rest).Placed e) :
    ChainKeyed (insertInto e leaf rest).1 (insertInto e leaf rest).2 ∧
      ∀ key, versionsOf key (chainEntries (insertInto e leaf rest).1 (insertInto e leaf rest).2) =
        if e.key = key then e :: versionsOf key (chainEntries leaf rest)
        else versionsOf key (chainEntries leaf rest) := by
  induction rest generalizing leaf with
  | nil =>
    refine ⟨replaceLeaf_keyed h hplaced ?_, versionsOf_replaceLeaf h hplaced⟩
    intro sep r rs hrs
    cases hrs
  | cons p rest ih =>
    obtain ⟨sep, right⟩ := p
    unfold findLeaf at hplaced
    unfold insertInto
    split
    · next hle =>
      rw [if_pos hle] at hplaced
      obtain ⟨hleaf, hlt, hge, hrest⟩ := h
      obtain ⟨hkeyed, hversions⟩ := ih hrest hplaced
      refine ⟨⟨hleaf, hlt, ?_, hkeyed⟩, ?_⟩
      · intro b hb
        rcases mem_insertInto right rest hb with rfl | hb
        · exact hle
        · exact hge b hb
      · intro key
        rw [chainEntries_cons, chainEntries_cons, versionsOf_append, versionsOf_append, hversions key]
        split
        · next hkey =>
          have hleft : versionsOf key leaf.slots = [] := by
            refine versionsOf_eq_nil ?_
            intro x hx
            exact ne_of_lt (lt_of_lt_of_le (hlt x hx) (hkey ▸ hle))
          rw [hleft, List.nil_append, List.nil_append]
        · rfl
    · next hgt =>
      rw [if_neg hgt] at hplaced
      refine ⟨replaceLeaf_keyed h hplaced ?_, versionsOf_replaceLeaf h hplaced⟩
      intro sep' r rs hrs
      cases hrs
      exact lt_of_not_ge hgt

/-- An insertion that finds its place keeps the key order. -/
theorem KeyOrdered.insert {t : BPlusTree} {e : KeyValuePair} (h : t.KeyOrdered) (hplaced : t.Placed e) :
    (t.insert e).KeyOrdered :=
  (insertInto_keyed h hplaced).1

/-- An insertion that finds its place puts the entry on top of the versions of its key. -/
theorem versionsOf_insert {t : BPlusTree} {e : KeyValuePair} (h : t.KeyOrdered) (hplaced : t.Placed e)
    (key : Bytes) : versionsOf key (t.insert e).entries =
      if e.key = key then e :: versionsOf key t.entries else versionsOf key t.entries :=
  (insertInto_keyed h hplaced).2 key

theorem Placed.kept {t : BPlusTree} {e : KeyValuePair} (h : t.Placed e) : t.Kept e := by
  rcases h with h | ⟨h, -⟩
  · exact .inl h
  · refine .inr ?_
    split at h
    · obtain ⟨l, hl⟩ := Option.isSome_iff_exists.mp h
      exact .inl (LeafPage.insertEntry_eq_some hl).2
    · obtain ⟨r, hr⟩ := Option.isSome_iff_exists.mp h
      exact .inr (LeafPage.insertEntry_eq_some hr).2

/-! ## Lookup -/

/-- The test that `Lookup` makes on a version of the key. -/
def visible (aborted : List ℕ) (readTs : ℕ) (x : KeyValuePair) : Bool :=
  !decide (x.timestamp ∈ aborted) && decide (x.timestamp ≤ readTs)

theorem scanVersions_eq (aborted : List ℕ) (readTs : ℕ) (key : Bytes) (es : List KeyValuePair) :
    scanVersions aborted readTs key es =
      (es.takeWhile fun x => decide (x.key = key)).find? (visible aborted readTs) := by
  induction es with
  | nil => rfl
  | cons e es ih =>
    unfold scanVersions
    by_cases hkey : e.key = key
    · rw [if_neg (not_not.mpr hkey), List.takeWhile_cons_of_pos (by simpa using hkey), List.find?_cons]
      by_cases habort : e.timestamp ∈ aborted
      · rw [if_pos habort, ih]
        simp [visible, habort]
      · by_cases hts : e.timestamp ≤ readTs
        · simp [visible, habort, hts]
        · rw [if_neg habort, if_neg hts, ih]
          simp [visible, hts]
    · rw [if_pos hkey, List.takeWhile_cons_of_neg (by simpa using hkey)]
      rfl

/-- From a point on where no key is below `key`, the versions of `key` come first. -/
theorem takeWhile_eq_versionsOf {key : Bytes} {es : List KeyValuePair} (h : es.Pairwise KeyLe)
    (hge : ∀ x ∈ es, key ≤ x.key) : (es.takeWhile fun x => decide (x.key = key)) = versionsOf key es := by
  induction es with
  | nil => rfl
  | cons e es ih =>
    obtain ⟨hhead, htail⟩ := List.pairwise_cons.mp h
    by_cases hkey : e.key = key
    · rw [List.takeWhile_cons_of_pos (by simpa using hkey), versionsOf,
        List.filter_cons_of_pos (by simpa using hkey), ih htail fun x hx => hge x (List.mem_cons_of_mem e hx)]
      rfl
    · have hlt : key < e.key := lt_of_le_of_ne (hge e List.mem_cons_self) (Ne.symm hkey)
      rw [List.takeWhile_cons_of_neg (by simpa using hkey)]
      refine (versionsOf_eq_nil ?_).symm
      intro x hx
      rcases List.mem_cons.mp hx with rfl | hx
      · exact hkey
      · exact ne_of_gt (lt_of_lt_of_le hlt (hhead x hx))

/-- The leaf a key is routed to has all its versions. -/
theorem versionsOf_findLeaf {leaf : LeafPage} {rest : List (Bytes × LeafPage)} (h : ChainKeyed leaf rest)
    (key : Bytes) : versionsOf key (findLeaf key leaf rest).slots = versionsOf key (chainEntries leaf rest) := by
  induction rest generalizing leaf with
  | nil => simp [findLeaf, chainEntries]
  | cons p rest ih =>
    obtain ⟨sep, right⟩ := p
    obtain ⟨-, hlt, hge, hrest⟩ := h
    rw [chainEntries_cons, versionsOf_append]
    unfold findLeaf
    split
    · next hle =>
      rw [ih hrest, versionsOf_eq_nil fun x hx => ne_of_lt (lt_of_lt_of_le (hlt x hx) hle), List.nil_append]
    · next hgt =>
      have hnone : versionsOf key (chainEntries right rest) = [] :=
        versionsOf_eq_nil fun x hx => ne_of_gt (lt_of_lt_of_le (lt_of_not_ge hgt) (hge x hx))
      rw [hnone, List.append_nil]

theorem findLeaf_keyLe {leaf : LeafPage} {rest : List (Bytes × LeafPage)} (h : ChainKeyed leaf rest)
    (key : Bytes) : (findLeaf key leaf rest).slots.Pairwise KeyLe := by
  induction rest generalizing leaf with
  | nil => exact h
  | cons p rest ih =>
    obtain ⟨sep, right⟩ := p
    unfold findLeaf
    split
    · exact ih h.2.2.2
    · exact h.1

/-- The search of `Lookup` in a leaf in key order stops at the first visible version of the key. -/
theorem scanLeaf_eq {leaf : LeafPage} (hsorted : leaf.slots.Pairwise KeyLe) (aborted : List ℕ) (key : Bytes) (readTs : ℕ) :
    (if leaf.found key then scanVersions aborted readTs key (leaf.slots.drop (leaf.find key)) else none) =
      (versionsOf key leaf.slots).find? (visible aborted readTs) := by
  have hge := LeafPage.le_drop_find hsorted key
  have hlt := LeafPage.take_find_lt hsorted key
  have hdrop : versionsOf key (leaf.slots.drop (leaf.find key)) = versionsOf key leaf.slots := by
    conv_rhs => rw [← List.take_append_drop (leaf.find key) leaf.slots, versionsOf_append]
    rw [versionsOf_eq_nil fun x hx => ne_of_lt (hlt x hx), List.nil_append]
  have htake := takeWhile_eq_versionsOf (hsorted.sublist (List.drop_sublist _ _)) hge
  rw [← hdrop, ← htake, ← scanVersions_eq]
  split
  · rfl
  · next hnot =>
    rw [scanVersions_eq]
    cases hslots : leaf.slots.drop (leaf.find key) with
    | nil => rfl
    | cons e es =>
      have hget : leaf.slots[leaf.find key]? = some e := by
        have h0 := congrArg (fun l => l[0]?) hslots
        simpa [List.getElem?_drop] using h0
      have hkey : e.key ≠ key := by
        intro heq
        simp [LeafPage.found, hget, heq] at hnot
      rw [List.takeWhile_cons_of_neg (by simpa using hkey)]
      rfl

/-- A lookup returns the first visible version of the key. -/
theorem lookupVersion_eq {t : BPlusTree} (h : t.KeyOrdered) (key : Bytes) (readTs : ℕ) :
    t.lookupVersion key readTs = (versionsOf key t.entries).find? (visible t.abortedBatchTs readTs) := by
  unfold lookupVersion
  simp only []
  rw [scanLeaf_eq (findLeaf_keyLe h key), versionsOf_findLeaf h key]
  rfl

end BPlusTree

end Kvdb
