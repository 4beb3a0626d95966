import Kvdb.Cache.FlatLists

/-! # A shard of the block cache holds what a cache of its capacity holds

`Holds` ties a shard to the pairs an LRU cache would hold: the linked list has the entries in that order, the buckets
find them, and the counters count them. Every call keeps it. -/
namespace Kvdb.FlatCache
set_option autoImplicit false

/-- What is fixed when a shard is made, `size` being `sizeof(Value)`. -/
structure Sizes where
  size : ℕ
  maxEntries : ℕ
  maxBytes : ℕ
  bucketCount : ℕ
  size_pos : 0 < size
  size_lt : size < 2 ^ 32
  entries_pos : 1 ≤ maxEntries
  power : ∃ k ≤ 31, bucketCount = 2 ^ k
  room : maxEntries * 2 ≤ bucketCount

namespace Sizes

variable (c : Sizes)

/-- The number of entries that fit both bounds. -/
def capacity : ℕ := min c.maxEntries (c.maxBytes / c.size)

theorem bucketCount_le : c.bucketCount ≤ 2 ^ 31 := by
  obtain ⟨k, hk, hpow⟩ := c.power
  rw [hpow]
  exact Nat.pow_le_pow_right (by decide) hk

theorem bytes_lt {count : ℕ} (h : count ≤ c.maxEntries) : c.size * count + c.size < 2 ^ 64 := by
  have hle := c.bucketCount_le
  have hroom := c.room
  have hmul : c.size * (count + 1) ≤ 2 ^ 32 * 2 ^ 31 :=
    Nat.mul_le_mul (Nat.le_of_lt c.size_lt) (by omega)
  rw [Nat.mul_add_one] at hmul
  omega

/-- The eviction loop goes on exactly where no further entry fits. -/
theorem full_iff {count : ℕ} (h : count ≤ c.capacity) :
    (c.maxEntries ≤ count ∨ c.maxBytes < (c.size * count + c.size) % 2 ^ 64) ↔ count = c.capacity := by
  have hentries : count ≤ c.maxEntries := Nat.le_trans h (Nat.min_le_left ..)
  have hfit : c.size * count + c.size ≤ c.maxBytes ↔ count + 1 ≤ c.maxBytes / c.size := by
    rw [Nat.le_div_iff_mul_le c.size_pos, Nat.add_mul, Nat.one_mul, Nat.mul_comm]
  rw [Nat.mod_eq_of_lt (c.bytes_lt hentries)]
  rw [capacity] at h ⊢
  omega

end Sizes

theorem sub64_of_le {a b : ℕ} (ha : a < 2 ^ 64) (h : b ≤ a) : sub64 a b = a - b := by
  rw [sub64, Nat.mod_eq_of_lt (show b < 2 ^ 64 by omega)]
  have hsum : a + (2 ^ 64 - b) = (a - b) + 2 ^ 64 := by omega
  rw [hsum, Nat.add_mod_right, Nat.mod_eq_of_lt (by omega)]

namespace Shard

variable {κ ν : Type}

/-- The shard holds `items`, in the entries of `order`. -/
structure Holds (c : Sizes) (hash : κ → ℕ) (s : Shard κ ν) (order : List ℕ) (items : List (κ × ν)) : Prop where
  bucketCount : s.bucketCount = c.bucketCount
  maxEntries : s.maxEntries = c.maxEntries
  maxBytes : s.maxBytes = c.maxBytes
  finds : s.Finds hash order
  linked : Linked s.links order
  items : order.map s.entries = items.map entryOf
  count : s.entryCount = order.length
  bytes : s.currentBytes = c.size * order.length
  fits : order.length ≤ c.capacity

/-- The entries in use are the first ones of the array. -/
def Dense (order : List ℕ) : Prop := ∀ i ∈ order, i < order.length

theorem Dense.perm {order order' : List ℕ} (h : Dense order) (hperm : order'.Perm order) : Dense order' := by
  intro i hi
  rw [hperm.length_eq]
  exact h i (hperm.mem_iff.mp hi)

theorem Dense.mem {order : List ℕ} {i : ℕ} (h : Dense order) (hnodup : order.Nodup) (hi : i < order.length) :
    i ∈ order := by
  have hsub : order ⊆ List.range order.length := fun j hj => List.mem_range.mpr (h j hj)
  have hperm := (List.subperm_of_subset hnodup hsub).perm_of_length_le (by rw [List.length_range])
  exact hperm.mem_iff.mpr (List.mem_range.mpr hi)

variable {c : Sizes} {hash : κ → ℕ} {s : Shard κ ν} {order : List ℕ} {items : List (κ × ν)} {i fuel : ℕ} {key : κ}

namespace Holds

theorem lists (h : Holds c hash s order items) : Lists hash s order items := ⟨h.finds, h.linked, h.items⟩

theorem length_eq (h : Holds c hash s order items) : order.length = items.length := h.lists.length_eq

theorem entries_le (h : Holds c hash s order items) : order.length ≤ c.maxEntries :=
  Nat.le_trans h.fits (Nat.min_le_left ..)

theorem bytes_lt (h : Holds c hash s order items) : s.currentBytes + c.size < 2 ^ 64 := by
  rw [h.bytes]
  exact c.bytes_lt h.entries_le

theorem crowd (h : Holds c hash s order items) : order.length < s.bucketCount := by
  have hle := h.entries_le
  have hroom := c.room
  have hpos := c.entries_pos
  rw [h.bucketCount]
  omega

/-- A new entry at a free index. -/
theorem insert (h : Holds c hash s order items) (hroom : order.length < c.capacity)
    (hnew : ∀ j ∈ order, (s.entries j).key ≠ key) (idx : ℕ) (hidx : i = if idx = kEmpty then order.length else idx)
    (hfresh : i ∉ order) (hsmall : i < kTombstone) (hfuel : c.bucketCount < fuel) (value : ν) :
    ∃ s', s.insert c.size hash fuel idx key (some value) = some s' ∧
      Holds c hash s' (i :: order) ((key, value) :: items) := by
  have hle := h.entries_le
  have hroom' := c.room
  have hcount := c.bucketCount_le
  have hentries : order.length < c.maxEntries := Nat.lt_of_lt_of_le hroom (Nat.min_le_left ..)
  have hcalm : ¬ s.bucketCount ≤ s.entryCount * 2 % 2 ^ 64 := by
    rw [h.bucketCount, h.count, Nat.mod_eq_of_lt (by omega)]
    omega
  have hplace : (if idx = kEmpty then s.entryCount % 2 ^ 32 else idx) = i := by
    rw [hidx, h.count, Nat.mod_eq_of_lt (by omega)]
  let s₁ : Shard κ ν := { s with
    entryCount := (s.entryCount + 1) % 2 ^ 64
    entries := Function.update s.entries i ⟨key, some value⟩
    links := s.links.setCell i none none }
  have hbuckets : s.bucketCount ≤ fuel := by
    rw [h.bucketCount]
    omega
  obtain ⟨slot, hslot, hlists⟩ :=
    h.lists.inserted s₁ rfl rfl rfl rfl h.crowd hnew hfresh hsmall hbuckets
  have hsize : byteSize c.size (some value) = c.size := rfl
  have hbytes := h.bytes_lt
  refine ⟨{ s₁ with
    buckets := Function.update s₁.buckets slot ⟨hash key, i⟩
    links := s₁.links.pushFront i
    currentBytes := (s₁.currentBytes + c.size) % 2 ^ 64 }, ?_, h.bucketCount, h.maxEntries, h.maxBytes, hlists.finds,
    hlists.linked, hlists.pairs, ?_, ?_, hroom⟩
  · rw [Shard.insert, if_neg hcalm]
    simp only [Option.bind_eq_bind, Option.bind_some, hplace]
    rw [hslot]
    rfl
  · show (s.entryCount + 1) % 2 ^ 64 = _
    rw [h.count, Nat.mod_eq_of_lt (by omega)]
    rfl
  · show (s.currentBytes + c.size) % 2 ^ 64 = c.size * (order.length + 1)
    rw [Nat.mod_eq_of_lt hbytes, h.bytes, Nat.mul_add_one]

/-- The entry `a` takes the free place `i` of the array. -/
theorem moved {as bs : List ℕ} {a b : ℕ} (h : Holds c hash s (as ++ a :: bs) items) (hb : b < s.bucketCount)
    (hidx : (s.buckets b).idx = a) (has : i ∉ as) (hbs : i ∉ bs) (hia : i ≠ a) (hsmall : i < kTombstone) :
    Holds c hash
      { s.setIdx b i with
        links := s.links.rename a i
        entries := Function.update (Function.update s.entries i (s.entries a)) a
          { s.entries a with value := none } } (as ++ i :: bs) items := by
  have hnodup := List.nodup_middle.mp h.linked.nodup
  have haas : a ∉ as := fun hmem => (List.nodup_cons.mp hnodup).1 (List.mem_append_left _ hmem)
  have habs : a ∉ bs := fun hmem => (List.nodup_cons.mp hnodup).1 (List.mem_append_right _ hmem)
  let entries := Function.update (Function.update s.entries i (s.entries a)) a { s.entries a with value := none }
  have hself : entries i = s.entries a := by
    show Function.update (Function.update s.entries i (s.entries a)) a _ i = _
    rw [Function.update_of_ne hia, Function.update_self]
  have hkey : ∀ j, j ≠ i → (entries j).key = (s.entries j).key := by
    intro j hji
    by_cases hja : j = a
    · have hlast : entries a = { s.entries a with value := none } := Function.update_self a _ _
      rw [hja, hlast]
    · refine congrArg Entry.key ((Function.update_of_ne hja _ _).trans ?_)
      exact Function.update_of_ne hji _ s.entries
  have hlen : (as ++ i :: bs).length = (as ++ a :: bs).length := by simp
  refine ⟨h.bucketCount, h.maxEntries, h.maxBytes, ?_, h.linked.rename has hbs, ?_, ?_, ?_, ?_⟩
  · refine h.finds.moved hb hidx (by simp) (by simp [has, hbs, hia]) hsmall ?_ ?_ ?_
    · intro j
      have hja : j = a → j ∉ as ∧ j ∉ bs := fun heq => heq ▸ ⟨haas, habs⟩
      simp only [List.mem_append, List.mem_cons]
      tauto
    · exact congrArg Entry.key hself
    · intro j hj
      refine hkey j ?_
      rintro rfl
      simp [has, hbs, hia] at hj
  · have hitems := h.items
    rw [List.map_append, List.map_cons] at hitems
    show (as ++ i :: bs).map entries = _
    rw [List.map_append, List.map_cons, hself, Lists.map_update haas, Lists.map_update habs, Lists.map_update has,
      Lists.map_update hbs]
    exact hitems
  · rw [hlen]
    exact h.count
  · rw [hlen]
    exact h.bytes
  · rw [hlen]
    exact h.fits

theorem clear (h : Holds c hash s order items) : Holds c hash s.clear [] ([] : List (κ × ν)) where
  bucketCount := h.bucketCount
  maxEntries := h.maxEntries
  maxBytes := h.maxBytes
  finds := Table.empty h.finds.power
  linked := Linked.nil rfl rfl
  items := rfl
  count := rfl
  bytes := rfl
  fits := Nat.zero_le _

variable [DecidableEq κ]

/-- An entry is given a value and becomes the one used last. -/
theorem touched (h : Holds c hash s order items) (hi : i ∈ order) (value : ν) :
    ∃ order', order'.Perm order ∧ Holds c hash
      ({ s with entries := Function.update s.entries i ⟨(s.entries i).key, some value⟩ }.touch i) order'
      (((s.entries i).key, value) :: Lru.others items (s.entries i).key) := by
  obtain ⟨order', hperm, hlists⟩ := h.lists.touched hi value
  have hlen := hperm.length_eq
  refine ⟨order', hperm, h.bucketCount, h.maxEntries, h.maxBytes, hlists.finds, hlists.linked, hlists.pairs, ?_, ?_, ?_⟩
  · rw [hlen]
    exact h.count
  · rw [hlen]
    exact h.bytes
  · rw [hlen]
    exact h.fits

theorem found (h : Holds c hash s order items) (hi : i ∈ order) (hfuel : c.bucketCount < fuel) :
    ∃ b < s.bucketCount, b ≠ kEmpty ∧ s.findSlot fuel (s.entries i).key (hash (s.entries i).key) = some b ∧
      (s.buckets b).idx = i :=
  h.lists.found hi (h.bucketCount ▸ hfuel)

theorem missed (h : Holds c hash s order items) (hkey : ∀ i ∈ order, (s.entries i).key ≠ key)
    (hfuel : c.bucketCount < fuel) : s.findSlot fuel key (hash key) = some kEmpty :=
  h.finds.missed hkey (h.bucketCount ▸ hfuel)

theorem get (h : Holds c hash s order items) (hdense : Dense order) (hfuel : c.bucketCount < fuel) (key : κ) :
    ∃ s' order', s.get hash fuel key = some (Lru.lookup items key, s') ∧ Dense order' ∧
      Holds c hash s' order' (Lru.touch items key) := by
  obtain ⟨links, order', hget, hperm, hlists⟩ := h.lists.get (h.bucketCount ▸ hfuel) key
  have hlen := hperm.length_eq
  refine ⟨_, order', hget, hdense.perm hperm, h.bucketCount, h.maxEntries, h.maxBytes, hlists.finds, hlists.linked,
    hlists.pairs, ?_, ?_, ?_⟩
  · rw [hlen]
    exact h.count
  · rw [hlen]
    exact h.bytes
  · rw [hlen]
    exact h.fits

theorem put_hit (h : Holds c hash s order items) (hi : i ∈ order) (hfuel : c.bucketCount < fuel) (value : ν) :
    s.put c.size hash fuel (s.entries i).key (some value) =
      some ({ s with entries := Function.update s.entries i ⟨(s.entries i).key, some value⟩ }.touch i) := by
  obtain ⟨b, -, hne, hfind, hidx⟩ := h.found hi hfuel
  obtain ⟨old, hvalue⟩ := h.lists.value hi
  have hpos : 1 ≤ order.length := List.length_pos_of_mem hi
  have hsize : c.size ≤ s.currentBytes := by
    rw [h.bytes]
    exact Nat.le_mul_of_pos_right _ hpos
  have hlt := h.bytes_lt
  have hbytes : (sub64 s.currentBytes c.size + c.size) % 2 ^ 64 = s.currentBytes := by
    rw [sub64_of_le (by omega) hsize, Nat.sub_add_cancel hsize, Nat.mod_eq_of_lt (by omega)]
  have hold : byteSize c.size (some old) = c.size := rfl
  have hnew : byteSize c.size (some value) = c.size := rfl
  simp only [Shard.put, hfind, Option.bind_eq_bind, Option.bind_some, ne_eq, hne, not_false_eq_true, if_true, hidx,
    hvalue, hold, hnew, hbytes]
  rfl

/-- The entry at the tail is evicted. -/
theorem evict {as : List ℕ} (h : Holds c hash s (as ++ [i]) items) (hfuel : c.bucketCount < fuel) :
    ∃ s', s.evict c.size hash fuel = some (i, s') ∧
      Holds c hash { s' with entryCount := sub64 s'.entryCount 1 } as items.dropLast := by
  have hi : i ∈ as ++ [i] := List.mem_append_right _ (List.mem_singleton_self i)
  obtain ⟨b, hb, hne, hfind, hidx⟩ := h.found hi hfuel
  obtain ⟨value, hvalue⟩ := h.lists.value hi
  have htail : s.links.tail = some i := by
    rw [h.linked.tail, List.getLast?_concat]
  have hsize : byteSize c.size (some value) = c.size := rfl
  have hlt := h.bytes_lt
  have hlen : (as ++ [i]).length = as.length + 1 := by simp
  have hbytes := h.bytes
  rw [hlen, Nat.mul_add_one] at hbytes
  have hlists := h.lists.dropped hb hidx
  rw [List.append_nil, h.lists.others_tail] at hlists
  refine ⟨{ { s with currentBytes := sub64 s.currentBytes c.size }.setIdx b kTombstone with
    links := s.links.remove i }, ?_, h.bucketCount, h.maxEntries, h.maxBytes, hlists.finds, hlists.linked, hlists.pairs,
    ?_, ?_, ?_⟩
  · simp only [Shard.evict, htail, hfind, hvalue, hsize, Option.bind_eq_bind, Option.bind_some, ne_eq, hne,
      not_false_eq_true, if_true, hidx]
    rfl
  · show sub64 s.entryCount 1 = as.length
    have hle := h.entries_le
    have hroom := c.room
    have hcount := c.bucketCount_le
    rw [h.count, hlen, sub64_of_le (by omega) (by omega), Nat.add_sub_cancel]
  · show sub64 s.currentBytes c.size = c.size * as.length
    rw [hbytes, sub64_of_le (by omega) (by omega), Nat.add_sub_cancel]
  · have hfits := h.fits
    omega

theorem evict_nil {size : ℕ} (h : s.links.tail = none) :
    s.evict size hash fuel = some (kEmpty, s) := by
  rw [Shard.evict, h]

variable (fuel) in
/-- The loop stops where another entry fits. -/
theorem makeRoom_fits (h : Holds c hash s order items) (hroom : order.length < c.capacity) (idx rounds : ℕ) :
    s.makeRoom c.size hash fuel c.size (rounds + 1) idx = some (some idx, s) := by
  have hfull := (c.full_iff h.fits).not.mpr (Nat.ne_of_lt hroom)
  rw [makeRoom, h.maxEntries, h.maxBytes, h.count, h.bytes, if_neg hfull]
  rfl

theorem makeRoom_evicts (h : Holds c hash s order items) (hfull : order.length = c.capacity) (hpos : 0 < c.capacity)
    (hfuel : c.bucketCount < fuel) (idx rounds : ℕ) :
    ∃ as i s', order = as ++ [i] ∧ Holds c hash s' as items.dropLast ∧
      s.makeRoom c.size hash fuel c.size (rounds + 2) idx = some (some i, s') := by
  have hne : order ≠ [] := by
    rintro rfl
    rw [List.length_nil] at hfull
    omega
  obtain ⟨as, i, rfl⟩ := (List.eq_nil_or_concat' order).resolve_left hne
  obtain ⟨s', hevict, hholds⟩ := h.evict hfuel
  have hlen : (as ++ [i]).length = as.length + 1 := by simp
  have hsmall := h.finds.small i (List.mem_append_right _ (List.mem_singleton_self i))
  have htomb : kTombstone < kEmpty := by decide
  have hgo := (c.full_iff h.fits).mpr hfull
  have hrest := hholds.makeRoom_fits fuel (by omega) i rounds
  refine ⟨as, i, _, rfl, hholds, ?_⟩
  rw [makeRoom, h.maxEntries, h.maxBytes, h.count, h.bytes, if_pos hgo, hevict]
  simp only [Option.bind_eq_bind, Option.bind_some]
  rw [if_neg (by omega)]
  exact hrest

/-- A shard that may hold nothing has nothing to evict. -/
theorem makeRoom_none (h : Holds c hash s order items) (hzero : c.capacity = 0) (idx rounds : ℕ) :
    s.makeRoom c.size hash fuel c.size (rounds + 1) idx = some (none, s) := by
  have hfits := h.fits
  have hnil : order = [] := List.eq_nil_of_length_eq_zero (by omega)
  have hgo := (c.full_iff h.fits).mpr (by rw [hnil, hzero]; rfl)
  have htail : s.links.tail = none := by
    rw [h.linked.tail, hnil]
    rfl
  rw [makeRoom, h.maxEntries, h.maxBytes, h.count, h.bytes, if_pos hgo, evict_nil htail]
  rfl

/-- A key that is not held: `Put_nolock` makes room and inserts, or gives up in a shard that may hold nothing. -/
theorem put_miss (h : Holds c hash s order items) (hdense : Dense order) (hfuel : c.bucketCount < fuel)
    (hmiss : ∀ i ∈ order, (s.entries i).key ≠ key) (value : ν) :
    ∃ s' order', s.put c.size hash fuel key (some value) = some s' ∧ Dense order' ∧
      Holds c hash s' order' (((key, value) :: items).take c.capacity) := by
  have hsize : byteSize c.size (some value) = c.size := rfl
  have hroom := c.room
  have hcount := c.bucketCount_le
  have hentries := h.entries_le
  have hpos := c.entries_pos
  have hlen := h.length_eq
  have htomb : kTombstone = 2 ^ 32 - 2 := rfl
  have hempty : kEmpty = 2 ^ 32 - 1 := rfl
  obtain ⟨rounds, rfl⟩ : ∃ r, fuel = r + 2 := ⟨fuel - 2, by omega⟩
  have hput : s.put c.size hash (rounds + 2) key (some value) =
      (s.makeRoom c.size hash (rounds + 2) c.size (rounds + 2) kEmpty).bind fun r =>
        r.1.elim (some r.2) fun idx => r.2.insert c.size hash (rounds + 2) idx key (some value) := by
    rw [Shard.put, h.missed hmiss hfuel]
    simp only [Option.bind_eq_bind, Option.bind_some, hsize, ne_eq, not_true_eq_false, if_false]
    refine Option.bind_congr fun r _ => ?_
    obtain ⟨room, s'⟩ := r
    cases room with
    | none => rfl
    | some idx => rfl
  rw [hput]
  by_cases hzero : c.capacity = 0
  · have hnil : items = [] := List.eq_nil_of_length_eq_zero (by have := h.fits; omega)
    refine ⟨s, order, ?_, hdense, ?_⟩
    · rw [h.makeRoom_none hzero]
      rfl
    · rw [hzero, List.take_zero, ← hnil]
      exact h
  by_cases hfull : order.length = c.capacity
  · obtain ⟨as, i, s', rfl, hholds, hmake⟩ := h.makeRoom_evicts hfull (by omega) hfuel kEmpty rounds
    have hi : i ∈ as ++ [i] := List.mem_append_right _ (List.mem_singleton_self i)
    have hsmall := h.finds.small i hi
    have hlen' : (as ++ [i]).length = as.length + 1 := by simp
    have hfresh : i ∉ as := fun hmem =>
      (List.nodup_cons.mp (List.nodup_middle.mp h.linked.nodup)).1 (List.mem_append_left [] hmem)
    have hmiss' : ∀ j ∈ as, (s'.entries j).key ≠ key :=
      (Lists.key_iff hholds.items (· ≠ key)).mp fun item hitem =>
        h.lists.absent hmiss item ((List.dropLast_sublist items).subset hitem)
    obtain ⟨s'', hinsert, hholds'⟩ := hholds.insert (by omega) hmiss' i (if_neg (by omega)).symm hfresh hsmall
      hfuel value
    refine ⟨s'', i :: as, ?_, hdense.perm (List.perm_append_singleton i as).symm, ?_⟩
    · rw [hmake]
      exact hinsert
    · have htake : ((key, value) :: items).take c.capacity = (key, value) :: items.dropLast := by
        obtain ⟨cap, hcap⟩ : ∃ n, c.capacity = n + 1 := ⟨c.capacity - 1, by omega⟩
        rw [hcap, List.take_succ_cons, List.dropLast_eq_take]
        congr 2
        omega
      rw [htake]
      exact hholds'
  · have hlt : order.length < c.capacity := Nat.lt_of_le_of_ne h.fits hfull
    have hfresh : order.length ∉ order := fun hmem => Nat.lt_irrefl _ (hdense _ hmem)
    obtain ⟨s', hinsert, hholds⟩ := h.insert hlt hmiss kEmpty (if_pos rfl).symm hfresh
      (by omega) hfuel value
    refine ⟨s', order.length :: order, ?_, ?_, ?_⟩
    · rw [h.makeRoom_fits _ hlt]
      exact hinsert
    · intro i hi
      rw [List.length_cons]
      rcases List.mem_cons.mp hi with rfl | hi
      · omega
      · have := hdense i hi
        omega
    · rw [List.take_of_length_le]
      · exact hholds
      · rw [List.length_cons]
        omega

theorem put (h : Holds c hash s order items) (hdense : Dense order) (hfuel : c.bucketCount < fuel) (key : κ)
    (value : ν) :
    ∃ s' order', s.put c.size hash fuel key (some value) = some s' ∧ Dense order' ∧
      Holds c hash s' order' (Lru.put c.capacity items key value) := by
  by_cases hmem : ∃ i ∈ order, (s.entries i).key = key
  · obtain ⟨i, hi, rfl⟩ := hmem
    obtain ⟨order', hperm, hholds⟩ := h.touched hi value
    refine ⟨_, order', h.put_hit hi hfuel value, hdense.perm hperm, ?_⟩
    have hfits := hholds.fits
    rw [hholds.length_eq] at hfits
    rw [Lru.put, List.take_of_length_le hfits]
    exact hholds
  · push Not at hmem
    rw [Lru.put, Lru.others_absent (h.lists.absent hmem)]
    exact h.put_miss hdense hfuel hmem value

/-- The entry is erased, its place left free. -/
theorem erased {as bs : List ℕ} {b : ℕ} (h : Holds c hash s (as ++ i :: bs) items) (hb : b < s.bucketCount)
    (hidx : (s.buckets b).idx = i) :
    Holds c hash
      { s.setIdx b kTombstone with
        currentBytes := sub64 s.currentBytes c.size
        links := s.links.remove i
        entryCount := s.entryCount - 1 } (as ++ bs) (Lru.others items (s.entries i).key) := by
  have hlen : (as ++ i :: bs).length = (as ++ bs).length + 1 := by simp [Nat.add_assoc]
  have hbytes := h.bytes
  rw [hlen, Nat.mul_add_one] at hbytes
  have hlt := h.bytes_lt
  have hlists := h.lists.dropped hb hidx
  refine ⟨h.bucketCount, h.maxEntries, h.maxBytes, hlists.finds, hlists.linked, hlists.pairs, ?_, ?_, ?_⟩
  · show s.entryCount - 1 = _
    rw [h.count, hlen, Nat.add_sub_cancel]
  · show sub64 s.currentBytes c.size = _
    rw [hbytes, sub64_of_le (by omega) (by omega), Nat.add_sub_cancel]
  · have hfits := h.fits
    omega

theorem dropEntry_eq (h : Holds c hash s order items) (hi : i ∈ order) (hfuel : c.bucketCount < fuel) :
    ∃ b < s.bucketCount, (s.buckets b).idx = i ∧ s.dropEntry c.size hash fuel i = some
      { s.setIdx b kTombstone with
        currentBytes := sub64 s.currentBytes c.size
        links := s.links.remove i } := by
  obtain ⟨b, hb, hne, hfind, hidx⟩ := h.found hi hfuel
  obtain ⟨value, hvalue⟩ := h.lists.value hi
  refine ⟨b, hb, hidx, ?_⟩
  rw [Shard.dropEntry, hfind, hvalue]
  simp only [Option.bind_eq_bind, Option.bind_some, if_pos hne]
  rfl

theorem moveLast_eq {a : ℕ} (h : s.Finds hash order) (ha : a ∈ order) (hcount : s.bucketCount = c.bucketCount)
    (hfuel : c.bucketCount < fuel) (hsmall : i < kTombstone) :
    ∃ b < s.bucketCount, (s.buckets b).idx = a ∧ s.moveLast hash fuel i a = some
      { s.setIdx b i with
        links := s.links.rename a i
        entries := Function.update (Function.update s.entries i (s.entries a)) a
          { s.entries a with value := none } } := by
  obtain ⟨b, hb, hfind, hidx⟩ := h.found ha (hcount ▸ hfuel)
  have hle := c.bucketCount_le
  have hempty : kEmpty = 2 ^ 32 - 1 := rfl
  have htomb : kTombstone = 2 ^ 32 - 2 := rfl
  have hne : b ≠ kEmpty := by omega
  refine ⟨b, hb, hidx, ?_⟩
  rw [Shard.moveLast, hfind, Nat.mod_eq_of_lt (show i < 2 ^ 32 by omega)]
  simp only [Option.bind_eq_bind, Option.bind_some, if_pos hne]
  rfl

/-- One round of `EraseIf_nolock` that erases: the entries in front of it stay where they are. -/
theorem eraseAt (h : Holds c hash s order items) (hdense : Dense order) (hi : i < order.length)
    (hfuel : c.bucketCount < fuel) :
    ∃ s' order', s.eraseAt c.size hash fuel i = some s' ∧ order'.length + 1 = order.length ∧ Dense order' ∧
      Holds c hash s' order' (Lru.others items (s.entries i).key) ∧ ∀ j < i, s'.entries j = s.entries j := by
  have hmem := hdense.mem h.linked.nodup hi
  obtain ⟨b, hb, hidx, hdrop⟩ := h.dropEntry_eq hmem hfuel
  have hsmall := h.finds.small i hmem
  obtain ⟨as, bs, rfl⟩ := List.append_of_mem hmem
  have herased := h.erased hb hidx
  have hnodup := List.nodup_middle.mp h.linked.nodup
  have hlen : (as ++ i :: bs).length = (as ++ bs).length + 1 := by simp [Nat.add_assoc]
  have hlast : s.entryCount - 1 = (as ++ bs).length := by
    rw [h.count, hlen, Nat.add_sub_cancel]
  have hrest : ∀ j ∈ as ++ bs, j < (as ++ bs).length + 1 ∧ j ≠ i := by
    intro j hj
    have hji : j ≠ i := fun heq => (List.nodup_cons.mp hnodup).1 (heq ▸ hj)
    have hlt := hdense j (by simp only [List.mem_append, List.mem_cons] at hj ⊢; tauto)
    omega
  rw [Shard.eraseAt, hdrop]
  simp only [Option.bind_eq_bind, Option.bind_some]
  by_cases hil : i = s.entryCount - 1
  · rw [if_neg (not_not_intro hil)]
    refine ⟨_, as ++ bs, rfl, hlen.symm, fun j hj => ?_, herased, fun _ _ => rfl⟩
    have := hrest j hj
    omega
  · rw [if_pos hil]
    have hlmem : s.entryCount - 1 ∈ as ++ bs := by
      have hl := hdense.mem h.linked.nodup (show s.entryCount - 1 < (as ++ i :: bs).length by omega)
      have hne' := Ne.symm hil
      simp only [List.mem_append, List.mem_cons] at hl ⊢
      tauto
    let s₁ : Shard κ ν := { s.setIdx b kTombstone with
      currentBytes := sub64 s.currentBytes c.size
      links := s.links.remove i }
    have hfinds : s₁.Finds hash (as ++ bs) := herased.finds
    obtain ⟨ls, hls, hlidx, hmove⟩ := moveLast_eq hfinds hlmem h.bucketCount hfuel hsmall
    obtain ⟨as', bs', heq⟩ := List.append_of_mem hlmem
    have hnot : i ∉ as ++ bs := (List.nodup_cons.mp hnodup).1
    rw [heq] at herased hnot hrest hlen hlast
    have hmoved := herased.moved hls hlidx (fun hin => hnot (List.mem_append_left _ hin))
      (fun hin => hnot (List.mem_append_right _ (List.mem_cons_of_mem _ hin))) hil hsmall
    have hlen' : (as' ++ i :: bs').length = (as' ++ (s.entryCount - 1) :: bs').length := by simp
    refine ⟨_, as' ++ i :: bs', ?_, ?_, ?_, hmoved, ?_⟩
    · rw [hmove]
      rfl
    · rw [hlen, hlen']
    · intro j hj
      have hcases : j = i ∨ j ∈ as' ++ (s.entryCount - 1) :: bs' ∧ j ≠ s.entryCount - 1 := by
        have hother := (List.nodup_cons.mp (List.nodup_middle.mp herased.linked.nodup)).1
        have hje : j ∈ as' ++ bs' → j ≠ s.entryCount - 1 := fun hin heq => hother (heq ▸ hin)
        simp only [List.mem_append, List.mem_cons] at hj hje ⊢
        tauto
      rw [hlen']
      rcases hcases with rfl | ⟨hin, hne⟩
      · omega
      · have := hrest j hin
        omega
    · intro j hj
      have hje : j ≠ s.entryCount - 1 := by omega
      exact (Function.update_of_ne hje _ _).trans (Function.update_of_ne (by omega) _ s.entries)

theorem eraseIfFrom (h : Holds c hash s order items) (hdense : Dense order) (hfuel : c.bucketCount < fuel)
    (pred : κ → Bool) (rounds : ℕ) (hi : i ≤ order.length) (hrounds : order.length - i < rounds)
    (hkept : ∀ j < i, pred (s.entries j).key = false) :
    ∃ s' order', s.eraseIfFrom c.size hash fuel pred rounds i = some s' ∧ Dense order' ∧
      Holds c hash s' order' (Lru.eraseIf items pred) := by
  induction rounds generalizing s order items i with
  | zero => exact absurd hrounds (Nat.not_lt_zero _)
  | succ rounds ih =>
    rw [Shard.eraseIfFrom, h.count]
    by_cases hlt : i < order.length
    · rw [if_pos hlt]
      by_cases hpred : pred (s.entries i).key = true
      · obtain ⟨s', order', herase, hlen, hdense', hholds, hsame⟩ := h.eraseAt hdense hlt hfuel
        rw [if_pos hpred, herase, ← Lru.eraseIf_others hpred]
        refine ih hholds hdense' (by omega) (by omega) ?_
        intro j hj
        rw [hsame j hj]
        exact hkept j hj
      · rw [if_neg hpred]
        refine ih h hdense (by omega) (by omega) ?_
        intro j hj
        rcases Nat.lt_succ_iff_lt_or_eq.mp hj with hj | rfl
        · exact hkept j hj
        · simpa using hpred
    · have hnone : ∀ item ∈ items, pred item.1 = false := by
        refine (Lists.key_iff h.items fun k => pred k = false).mpr fun j hj => hkept j ?_
        have := hdense j hj
        omega
      rw [if_neg hlt, Lru.eraseIf_none hnone]
      exact ⟨s, order, rfl, hdense, h⟩

/-- Exactly the keys that satisfy the predicate are erased. -/
theorem eraseIf (h : Holds c hash s order items) (hdense : Dense order) (hfuel : c.bucketCount < fuel)
    (pred : κ → Bool) :
    ∃ s' order', s.eraseIf c.size hash fuel pred = some s' ∧ Dense order' ∧
      Holds c hash s' order' (Lru.eraseIf items pred) := by
  have hle := h.entries_le
  have hroom := c.room
  exact h.eraseIfFrom hdense hfuel pred fuel (Nat.zero_le _) (by omega) fun j hj => absurd hj (Nat.not_lt_zero j)

end Holds

end Shard

end Kvdb.FlatCache
