import Kvdb.Cache.FlatTable
import Kvdb.Lib.Lru

/-! # The entries of a shard in the order of their use

`Lists` ties the buckets, the entries and the linked list of a shard to the pairs that an LRU cache holds. It says nothing
of the counters: what it gives holds whatever the values are charged. -/
namespace Kvdb.FlatCache
set_option autoImplicit false

namespace Shard

variable {κ ν : Type}

/-- The entry of a pair. -/
def entryOf (item : κ × ν) : Entry κ ν := ⟨item.1, some item.2⟩

/-- The linked list has the entries of `order`, which are those of `items`, and the buckets find them. -/
structure Lists (hash : κ → ℕ) (s : Shard κ ν) (order : List ℕ) (items : List (κ × ν)) : Prop where
  finds : s.Finds hash order
  linked : Linked s.links order
  pairs : order.map s.entries = items.map entryOf

variable {hash : κ → ℕ} {s : Shard κ ν} {order : List ℕ} {items : List (κ × ν)} {i b fuel : ℕ} {key : κ}

namespace Lists

/-- The keys held are those of the entries. -/
theorem key_iff {xs : List (κ × ν)} {as : List ℕ} (h : as.map s.entries = xs.map entryOf) (P : κ → Prop) :
    (∀ item ∈ xs, P item.1) ↔ ∀ i ∈ as, P (s.entries i).key := by
  have hkeys : as.map (fun i => (s.entries i).key) = xs.map Prod.fst := by
    have heq := congrArg (List.map Entry.key) h
    rw [List.map_map, List.map_map] at heq
    exact heq
  have hleft : (∀ item ∈ xs, P item.1) ↔ ∀ k ∈ xs.map Prod.fst, P k := by simp
  rw [hleft, ← hkeys]
  simp

theorem map_update {f : ℕ → Entry κ ν} {as : List ℕ} {e : Entry κ ν} (h : i ∉ as) :
    as.map (Function.update f i e) = as.map f := by
  refine List.map_congr_left ?_
  intro j hj
  have hne : j ≠ i := fun heq => h (heq ▸ hj)
  exact Function.update_of_ne hne e f

theorem length_eq (h : Lists hash s order items) : order.length = items.length := by
  have hlen := congrArg List.length h.pairs
  rw [List.length_map, List.length_map] at hlen
  exact hlen

/-- An entry in the middle of the order has its pair in the middle of the pairs. -/
theorem split {as bs : List ℕ} (h : Lists hash s (as ++ i :: bs) items) :
    ∃ xs ys value, items = xs ++ ((s.entries i).key, value) :: ys ∧
      s.entries i = ⟨(s.entries i).key, some value⟩ ∧ as.map s.entries = xs.map entryOf ∧
      bs.map s.entries = ys.map entryOf ∧ (∀ item ∈ xs, item.1 ≠ (s.entries i).key) ∧
      ∀ item ∈ ys, item.1 ≠ (s.entries i).key := by
  have heq := h.pairs
  rw [List.map_append, List.map_cons] at heq
  obtain ⟨xs, zs, rfl, hxs, hzs⟩ := List.append_eq_map_iff.mp heq
  obtain ⟨item, ys, rfl, hitem, hys⟩ := List.map_eq_cons_iff.mp hzs
  obtain ⟨k, value⟩ := item
  have hkey : k = (s.entries i).key := by rw [← hitem]; rfl
  subst hkey
  have hother : ∀ j ∈ as ++ bs, (s.entries j).key ≠ (s.entries i).key := by
    intro j hj heq
    have hmem : j ∈ as ++ i :: bs := by
      rcases List.mem_append.mp hj with hj | hj
      · exact List.mem_append_left _ hj
      · exact List.mem_append_right _ (List.mem_cons_of_mem i hj)
    have hji := h.finds.keys j hmem i (List.mem_append_right _ List.mem_cons_self) heq
    exact (List.nodup_cons.mp (List.nodup_middle.mp h.linked.nodup)).1 (hji ▸ hj)
  refine ⟨xs, ys, value, rfl, hitem.symm, hxs.symm, hys.symm, ?_, ?_⟩
  · exact (key_iff hxs.symm (· ≠ (s.entries i).key)).mpr fun j hj => hother j (List.mem_append_left _ hj)
  · exact (key_iff hys.symm (· ≠ (s.entries i).key)).mpr fun j hj => hother j (List.mem_append_right _ hj)

theorem value (h : Lists hash s order items) (hi : i ∈ order) : ∃ value, (s.entries i).value = some value := by
  obtain ⟨as, bs, rfl⟩ := List.append_of_mem hi
  obtain ⟨-, -, value, -, hentry, -⟩ := h.split
  exact ⟨value, congrArg Entry.value hentry⟩

theorem absent (h : Lists hash s order items) (hkey : ∀ i ∈ order, (s.entries i).key ≠ key) :
    ∀ item ∈ items, item.1 ≠ key :=
  (key_iff h.pairs (· ≠ key)).mpr hkey

/-- A new entry at a free index: the first free bucket of its probe leads to it. -/
theorem inserted {value : ν} (h : Lists hash s order items) (s₁ : Shard κ ν) (hbuckets : s₁.buckets = s.buckets)
    (hcount : s₁.bucketCount = s.bucketCount) (hentries : s₁.entries = Function.update s.entries i ⟨key, some value⟩)
    (hlinks : s₁.links = s.links.setCell i none none) (hcrowd : order.length < s.bucketCount)
    (hnew : ∀ j ∈ order, (s.entries j).key ≠ key) (hfresh : i ∉ order) (hsmall : i < kTombstone)
    (hfuel : s.bucketCount ≤ fuel) :
    ∃ slot, s₁.freeSlotFrom fuel (hash key &&& s₁.mask) 0 = some slot ∧
      Lists hash { s₁ with
        buckets := Function.update s₁.buckets slot ⟨hash key, i⟩
        links := s₁.links.pushFront i } (i :: order) ((key, value) :: items) := by
  have hself : s₁.entries i = ⟨key, some value⟩ := by
    rw [hentries, Function.update_self]
  have hkey : (s₁.entries i).key = key := congrArg Entry.key hself
  have hother : ∀ j ∈ order, (s₁.entries j).key = (s.entries j).key := by
    intro j hj
    have hji : j ≠ i := fun heq => hfresh (heq ▸ hj)
    rw [hentries, Function.update_of_ne hji]
  have hfinds : s₁.Finds hash order := h.finds.congr hbuckets hcount (fun _ => Iff.rfl) hother
  obtain ⟨t, ht, hslot, hfree, hpath⟩ := hfinds.freeSlot (hcount ▸ hcrowd) (hash key) (hcount ▸ hfuel)
  have htable : Table (Function.update s₁.buckets ((hash (s₁.entries i).key + t) % s₁.bucketCount)
      ⟨hash (s₁.entries i).key, i⟩) s₁.bucketCount (fun j => (s₁.entries j).key) hash (i :: order) := by
    refine hfinds.insert ht ?_ ?_ hfresh hsmall ?_ fun _ _ => rfl
    · rw [hkey]
      exact hfree
    · rw [hkey]
      exact hpath
    · intro j hj
      rw [hother j hj, hkey]
      exact hnew j hj
  rw [hkey] at htable
  have hlinked := (h.linked.setCell (p := none) (n := none) hfresh).pushFront hfresh
  rw [← hlinks] at hlinked
  refine ⟨(hash key + t) % s₁.bucketCount, hslot, htable, hlinked, ?_⟩
  show (i :: order).map s₁.entries = _
  rw [List.map_cons, hself, hentries, map_update hfresh, h.pairs]
  rfl

variable [DecidableEq κ]

theorem found (h : Lists hash s order items) (hi : i ∈ order) (hfuel : s.bucketCount < fuel) :
    ∃ b < s.bucketCount, b ≠ kEmpty ∧ s.findSlot fuel (s.entries i).key (hash (s.entries i).key) = some b ∧
      (s.buckets b).idx = i := by
  have hle := h.finds.count_le
  have hempty : kEmpty = 2 ^ 32 - 1 := rfl
  obtain ⟨b, hb, hfind, hidx⟩ := h.finds.found hi hfuel
  exact ⟨b, hb, by omega, hfind, hidx⟩

/-- An entry is given a value and becomes the one used last. -/
theorem touched (h : Lists hash s order items) (hi : i ∈ order) (value : ν) :
    ∃ order', order'.Perm order ∧ Lists hash
      ({ s with entries := Function.update s.entries i ⟨(s.entries i).key, some value⟩ }.touch i) order'
      (((s.entries i).key, value) :: Lru.others items (s.entries i).key) := by
  obtain ⟨as, bs, rfl⟩ := List.append_of_mem hi
  obtain ⟨xs, ys, old, rfl, -, has, hbs, hxs, hys⟩ := h.split
  have hnew : i ∉ as ++ bs := (List.nodup_cons.mp (List.nodup_middle.mp h.linked.nodup)).1
  rw [Lru.others_middle hxs hys]
  refine ⟨i :: (as ++ bs), List.perm_middle.symm, ?_, h.linked.remove.pushFront hnew, ?_⟩
  · refine h.finds.congr rfl rfl ?_ ?_
    · intro j
      simp [or_left_comm]
    · intro j _
      by_cases hji : j = i
      · rw [hji]
        show (Function.update s.entries i _ i).key = _
        rw [Function.update_self]
      · show (Function.update s.entries i _ j).key = _
        rw [Function.update_of_ne hji]
  · have hrest : (as ++ bs).map (Function.update s.entries i ⟨(s.entries i).key, some value⟩) =
        (xs ++ ys).map entryOf := by
      rw [map_update hnew, List.map_append, has, hbs, List.map_append]
    show (i :: (as ++ bs)).map (Function.update s.entries i _) = _
    rw [List.map_cons, hrest, Function.update_self]
    rfl

/-- `Get_nolock` changes the linked list only. -/
theorem get (h : Lists hash s order items) (hfuel : s.bucketCount < fuel) (key : κ) :
    ∃ links order', s.get hash fuel key = some (Lru.lookup items key, { s with links := links }) ∧
      order'.Perm order ∧ Lists hash { s with links := links } order' (Lru.touch items key) := by
  by_cases hmem : ∃ i ∈ order, (s.entries i).key = key
  · obtain ⟨i, hi, rfl⟩ := hmem
    obtain ⟨b, -, hne, hfind, hidx⟩ := h.found hi hfuel
    obtain ⟨as, bs, rfl⟩ := List.append_of_mem hi
    obtain ⟨xs, ys, value, hitems, hentry, -, -, hxs, -⟩ := h.split
    obtain ⟨order', hperm, hlists⟩ := h.touched hi value
    have hlookup : Lru.lookup items (s.entries i).key = some value := by
      rw [hitems]
      exact Lru.lookup_middle hxs
    have hsame : Function.update s.entries i ⟨(s.entries i).key, some value⟩ = s.entries := by
      rw [← hentry, Function.update_eq_self]
    have hvalue : (s.entries i).value = some value := by rw [hentry]
    rw [hsame] at hlists
    refine ⟨(s.links.remove i).pushFront i, order', ?_, hperm, ?_⟩
    · simp [Shard.get, hfind, hne, hidx, hlookup, hvalue, Shard.touch]
    · rw [Lru.touch, hlookup]
      exact hlists
  · push Not at hmem
    have hlookup := Lru.lookup_absent (h.absent hmem)
    refine ⟨s.links, order, ?_, List.Perm.refl _, ?_⟩
    · simp [Shard.get, h.finds.missed hmem hfuel, hlookup]
    · rw [Lru.touch, hlookup]
      exact h

/-- An entry leaves the list, and its bucket becomes a tombstone. -/
theorem dropped {as bs : List ℕ} (h : Lists hash s (as ++ i :: bs) items) (hb : b < s.bucketCount)
    (hidx : (s.buckets b).idx = i) :
    Lists hash { s.setIdx b kTombstone with links := s.links.remove i } (as ++ bs)
      (Lru.others items (s.entries i).key) := by
  have hnodup := List.nodup_middle.mp h.linked.nodup
  refine ⟨?_, h.linked.remove, ?_⟩
  · refine h.finds.tombstone hb hidx ?_
    intro j
    have hji : j = i → j ∉ as ++ bs := fun heq => heq ▸ (List.nodup_cons.mp hnodup).1
    rw [List.mem_append] at hji ⊢
    simp only [List.mem_append, List.mem_cons]
    tauto
  · obtain ⟨xs, ys, value, rfl, -, has, hbs, hxs, hys⟩ := h.split
    rw [Lru.others_middle hxs hys, List.map_append, List.map_append]
    exact congrArg₂ _ has hbs

/-- The entry at the tail has the pair that was used least recently. -/
theorem others_tail {as : List ℕ} (h : Lists hash s (as ++ [i]) items) :
    Lru.others items (s.entries i).key = items.dropLast := by
  obtain ⟨xs, ys, value, rfl, -, -, hys, hxs, hys'⟩ := h.split
  obtain rfl : ys = [] := List.map_eq_nil_iff.mp hys.symm
  rw [Lru.others_middle hxs hys', List.append_nil, List.dropLast_concat]

end Lists

end Shard

end Kvdb.FlatCache
