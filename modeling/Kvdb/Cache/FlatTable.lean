import Kvdb.Cache.FlatCache
import Mathlib.Data.List.Perm.Subperm

/-! # The buckets of a shard find its entries

At most 2^31 buckets, a power of two of them: then the arithmetic of `uint32_t` is exact and the probe of a key meets
the buckets `(hash + t) % n` in turn. `Table` says that the live buckets are those of the entries in `order`, one for
each, and that no bucket in front of an entry's own is empty on its probe. -/
namespace Kvdb.FlatCache
set_option autoImplicit false

variable {κ ν : Type}

structure Table (buckets : ℕ → Bucket) (n : ℕ) (key : ℕ → κ) (hash : κ → ℕ) (order : List ℕ) : Prop where
  power : ∃ k ≤ 31, n = 2 ^ k
  small : ∀ i ∈ order, i < kTombstone
  live : ∀ b < n, (buckets b).Live → (buckets b).idx ∈ order ∧ (buckets b).hash = hash (key (buckets b).idx)
  unique : ∀ b < n, ∀ b' < n, (buckets b).Live → (buckets b).idx = (buckets b').idx → b = b'
  reach : ∀ i ∈ order, ∃ t < n, (buckets ((hash (key i) + t) % n)).idx = i ∧
    ∀ u < t, (buckets ((hash (key i) + u) % n)).idx ≠ kEmpty
  keys : ∀ i ∈ order, ∀ j ∈ order, key i = key j → i = j

namespace Table

variable {buckets : ℕ → Bucket} {n : ℕ} {key : ℕ → κ} {hash : κ → ℕ} {order : List ℕ} {i : ℕ}

/-- A table without entries. -/
theorem empty (hpower : ∃ k ≤ 31, n = 2 ^ k) : Table (fun _ => {}) n key hash [] where
  power := hpower
  small _ hi := absurd hi List.not_mem_nil
  live _ _ hlive := absurd rfl hlive.1
  unique _ _ _ _ hlive := absurd rfl hlive.1
  reach _ hi := absurd hi List.not_mem_nil
  keys _ hi := absurd hi List.not_mem_nil

theorem pos (h : Table buckets n key hash order) : 0 < n := by
  obtain ⟨k, -, rfl⟩ := h.power
  exact Nat.two_pow_pos k

theorem count_le (h : Table buckets n key hash order) : n ≤ 2 ^ 31 := by
  obtain ⟨k, hk, rfl⟩ := h.power
  exact Nat.pow_le_pow_right (by decide) hk

theorem mask_eq (h : Table buckets n key hash order) : (n - 1) % 2 ^ 32 = n - 1 :=
  Nat.mod_eq_of_lt (by have := h.count_le; omega)

theorem and_mask (h : Table buckets n key hash order) (x : ℕ) : x &&& (n - 1) % 2 ^ 32 = x % n := by
  rw [h.mask_eq]
  obtain ⟨k, -, rfl⟩ := h.power
  exact Nat.and_two_pow_sub_one_eq_mod x k

/-- The probe goes from one bucket of a path to the next. -/
theorem nextSlot_path (h : Table buckets n key hash order) (x t : ℕ) :
    nextSlot ((n - 1) % 2 ^ 32) ((x + t) % n) = (x + (t + 1)) % n := by
  have hlt : (x + t) % n < n := Nat.mod_lt _ h.pos
  have hle := h.count_le
  have hexact : ((x + t) % n + 1) % 2 ^ 32 = (x + t) % n + 1 := Nat.mod_eq_of_lt (by omega)
  rw [nextSlot, hexact, h.and_mask, Nat.mod_add_mod, Nat.add_assoc]

/-- Every bucket lies on every probe. -/
theorem path_onto (h : Table buckets n key hash order) (x : ℕ) {b : ℕ} (hb : b < n) : ∃ t < n, (x + t) % n = b := by
  have hlt : x % n < n := Nat.mod_lt _ h.pos
  refine ⟨(b + (n - x % n)) % n, Nat.mod_lt _ h.pos, ?_⟩
  have hdiv := Nat.div_add_mod x n
  have hsum : x + (b + (n - x % n)) = b + n * (x / n + 1) := by
    rw [Nat.mul_add_one]
    omega
  rw [Nat.add_mod_mod, hsum, Nat.add_mul_mod_self_left, Nat.mod_eq_of_lt hb]

theorem live_of_idx (h : Table buckets n key hash order) {b : ℕ} (hi : i ∈ order) (hidx : (buckets b).idx = i) :
    (buckets b).Live := by
  have hsmall := h.small i hi
  have htomb : kTombstone < kEmpty := by decide
  exact ⟨by omega, by omega⟩

/-- One bucket is written, and not emptied: the entry it held (if any) leaves the order, the entry it holds now (if any)
joins it. -/
theorem write (h : Table buckets n key hash order) {b : ℕ} {x : Bucket} {key' : ℕ → κ} {order' : List ℕ} (hb : b < n)
    (hx : x.idx ≠ kEmpty) (hfresh : x.idx ∉ order)
    (hother : ∀ j, j ≠ x.idx → (j ∈ order' ↔ j ∈ order ∧ j ≠ (buckets b).idx))
    (hkey : ∀ j ∈ order', j ≠ x.idx → key' j = key j)
    (hkeys : ∀ i ∈ order', ∀ j ∈ order', key' i = key' j → i = j)
    (hsmall : x.idx ∈ order' → x.idx < kTombstone)
    (hlive : x.Live → x.idx ∈ order' ∧ x.hash = hash (key' x.idx) ∧ ∃ t < n,
      (hash (key' x.idx) + t) % n = b ∧ ∀ u < t, (buckets ((hash (key' x.idx) + u) % n)).idx ≠ kEmpty) :
    Table (Function.update buckets b x) n key' hash order' := by
  have hself : Function.update buckets b x b = x := Function.update_self ..
  have hsame : ∀ c, c ≠ b → Function.update buckets b x c = buckets c := fun c hc => Function.update_of_ne hc ..
  have hfull : ∀ c, (buckets c).idx ≠ kEmpty → (Function.update buckets b x c).idx ≠ kEmpty := by
    intro c hc
    by_cases hcb : c = b
    · rw [hcb, hself]
      exact hx
    · rw [hsame c hcb]
      exact hc
  have hold : ∀ c < n, c ≠ b → (buckets c).Live →
      (buckets c).idx ≠ x.idx ∧ (buckets c).idx ≠ (buckets b).idx := by
    intro c hc hcb hcl
    have hmem := (h.live c hc hcl).1
    refine ⟨fun heq => hfresh (heq ▸ hmem), fun heq => hcb (h.unique c hc b hb hcl heq)⟩
  refine ⟨h.power, ?_, ?_, ?_, ?_, hkeys⟩
  · intro i hi
    by_cases hix : i = x.idx
    · rw [hix] at hi ⊢
      exact hsmall hi
    · exact h.small i ((hother i hix).mp hi).1
  · intro c hc hcl
    by_cases hcb : c = b
    · rw [hcb, hself] at hcl ⊢
      exact ⟨(hlive hcl).1, (hlive hcl).2.1⟩
    · rw [hsame c hcb] at hcl ⊢
      obtain ⟨hne, hne'⟩ := hold c hc hcb hcl
      obtain ⟨hmem, hhash⟩ := h.live c hc hcl
      have hmem' := (hother _ hne).mpr ⟨hmem, hne'⟩
      rw [hkey _ hmem' hne]
      exact ⟨hmem', hhash⟩
  · intro c hc c' hc' hcl heq
    by_cases hcb : c = b <;> by_cases hcb' : c' = b
    · rw [hcb, hcb']
    · rw [hcb, hself] at hcl heq
      rw [hsame c' hcb'] at heq
      have hcl' : (buckets c').Live := by
        rw [Bucket.Live, ← heq]
        exact hcl
      exact absurd heq.symm (hold c' hc' hcb' hcl').1
    · rw [hsame c hcb] at hcl heq
      rw [hcb', hself] at heq
      exact absurd heq (hold c hc hcb hcl).1
    · rw [hsame c hcb] at hcl heq
      rw [hsame c' hcb'] at heq
      exact h.unique c hc c' hc' hcl heq
  · intro i hi
    by_cases hix : i = x.idx
    · rw [hix] at hi ⊢
      have htomb : kTombstone < kEmpty := by decide
      have hlt := hsmall hi
      obtain ⟨-, -, t, ht, hpath, hempty⟩ := hlive ⟨by omega, by omega⟩
      refine ⟨t, ht, ?_, fun u hu => hfull _ (hempty u hu)⟩
      rw [hpath, hself]
    · obtain ⟨hmem, hne⟩ := (hother i hix).mp hi
      obtain ⟨t, ht, hidx, hempty⟩ := h.reach i hmem
      rw [hkey i hi hix]
      refine ⟨t, ht, ?_, fun u hu => hfull _ (hempty u hu)⟩
      rw [hsame]
      · exact hidx
      · intro heq
        rw [heq] at hidx
        exact hne hidx.symm

/-- No more live buckets than entries: some bucket is free. -/
theorem exists_free (h : Table buckets n key hash order) (hcrowd : order.length < n) :
    ∃ b < n, ¬ (buckets b).Live := by
  by_contra hall
  push Not at hall
  have hnodup : ((List.range n).map fun b => (buckets b).idx).Nodup := by
    refine List.Nodup.map_on ?_ List.nodup_range
    intro b hb c hc heq
    have hbn := List.mem_range.mp hb
    exact h.unique b hbn c (List.mem_range.mp hc) (hall b hbn) heq
  have hsub : ((List.range n).map fun b => (buckets b).idx) ⊆ order := by
    intro i hi
    obtain ⟨b, hb, rfl⟩ := List.mem_map.mp hi
    have hbn := List.mem_range.mp hb
    exact (h.live b hbn (hall b hbn)).1
  have hlen := (List.subperm_of_subset hnodup hsub).length_le
  rw [List.length_map, List.length_range] at hlen
  omega

end Table

namespace Shard

variable {s : Shard κ ν} {hash : κ → ℕ} {order : List ℕ} {i fuel : ℕ} {key : κ}

/-- The buckets find the entries in `order`. -/
def Finds (s : Shard κ ν) (hash : κ → ℕ) (order : List ℕ) : Prop :=
  Table s.buckets s.bucketCount (fun i => (s.entries i).key) hash order

/-- `Finds` speaks of the buckets and the keys of the entries in the order. -/
theorem Finds.congr {s' : Shard κ ν} {order' : List ℕ} (h : s.Finds hash order) (hbuckets : s'.buckets = s.buckets)
    (hcount : s'.bucketCount = s.bucketCount) (horder : ∀ i, i ∈ order' ↔ i ∈ order)
    (hkeys : ∀ i ∈ order, (s'.entries i).key = (s.entries i).key) : s'.Finds hash order' where
  power := hcount ▸ h.power
  small i hi := h.small i ((horder i).mp hi)
  live b hb hlive := by
    rw [hbuckets] at hlive ⊢
    obtain ⟨hmem, hhash⟩ := h.live b (hcount ▸ hb) hlive
    rw [hkeys _ hmem]
    exact ⟨(horder _).mpr hmem, hhash⟩
  unique := by
    rw [hbuckets, hcount]
    exact h.unique
  reach i hi := by
    have hmem := (horder i).mp hi
    rw [hbuckets, hcount, hkeys i hmem]
    exact h.reach i hmem
  keys i hi j hj heq := by
    have hmi := (horder i).mp hi
    have hmj := (horder j).mp hj
    rw [hkeys i hmi, hkeys j hmj] at heq
    exact h.keys i hmi j hmj heq

/-- The insertion takes the first free bucket of the probe. -/
theorem freeSlotFrom_path {x t d : ℕ} (h : s.Finds hash order) (hlt : t + d < s.bucketCount) (hfuel : d < fuel)
    (hfree : ¬ (s.buckets ((x + (t + d)) % s.bucketCount)).Live)
    (hlive : ∀ u < t, (s.buckets ((x + u) % s.bucketCount)).Live) :
    ∃ t' < s.bucketCount, s.freeSlotFrom fuel ((x + t) % s.bucketCount) t = some ((x + t') % s.bucketCount) ∧
      ¬ (s.buckets ((x + t') % s.bucketCount)).Live ∧ ∀ u < t', (s.buckets ((x + u) % s.bucketCount)).Live := by
  have hle := h.count_le
  induction d generalizing t fuel with
  | zero =>
    obtain ⟨fuel, rfl⟩ : ∃ f, fuel = f + 1 := ⟨fuel - 1, by omega⟩
    rw [Nat.add_zero] at hfree
    refine ⟨t, by omega, ?_, hfree, hlive⟩
    rw [freeSlotFrom, if_neg hfree]
  | succ d ih =>
    obtain ⟨fuel, rfl⟩ : ∃ f, fuel = f + 1 := ⟨fuel - 1, by omega⟩
    by_cases hhere : (s.buckets ((x + t) % s.bucketCount)).Live
    · have hexact : (t + 1) % 2 ^ 32 = t + 1 := Nat.mod_eq_of_lt (by omega)
      have hshift : t + (d + 1) = t + 1 + d := by omega
      rw [hshift] at hlt hfree
      rw [freeSlotFrom, if_pos hhere, if_neg (by omega), hexact, mask, h.nextSlot_path]
      refine ih hlt (by omega) hfree ?_
      intro u hu
      rcases Nat.lt_or_ge u t with hut | hut
      · exact hlive u hut
      · rw [show u = t by omega]
        exact hhere
    · refine ⟨t, by omega, ?_, hhere, hlive⟩
      rw [freeSlotFrom, if_neg hhere]

theorem Finds.freeSlot (h : s.Finds hash order) (hcrowd : order.length < s.bucketCount) (x : ℕ)
    (hfuel : s.bucketCount ≤ fuel) :
    ∃ t < s.bucketCount, s.freeSlotFrom fuel (x &&& s.mask) 0 = some ((x + t) % s.bucketCount) ∧
      ¬ (s.buckets ((x + t) % s.bucketCount)).Live ∧
      ∀ u < t, (s.buckets ((x + u) % s.bucketCount)).Live := by
  obtain ⟨b, hb, hfree⟩ := h.exists_free hcrowd
  obtain ⟨d, hd, rfl⟩ := h.path_onto x hb
  rw [mask, h.and_mask]
  have hrounds : d < fuel := by omega
  refine freeSlotFrom_path (t := 0) (d := d) h (by omega) hrounds ?_ fun u hu => absurd hu (Nat.not_lt_zero u)
  rw [Nat.zero_add]
  exact hfree

variable [DecidableEq κ]

/-- The probe stops at the first bucket that holds the key. -/
theorem findSlotFrom_hit {x t d : ℕ} (h : s.Finds hash order) (hlt : t + d < s.bucketCount) (hfuel : d < fuel)
    (hhit : s.Hit key x ((x + (t + d)) % s.bucketCount))
    (hempty : ∀ u ≤ t + d, (s.buckets ((x + u) % s.bucketCount)).idx ≠ kEmpty) :
    ∃ b < s.bucketCount, s.findSlotFrom key x fuel ((x + t) % s.bucketCount) t = some b ∧
      (s.buckets b).idx ≠ kEmpty ∧ s.Hit key x b := by
  have hle := h.count_le
  induction d generalizing t fuel with
  | zero =>
    obtain ⟨fuel, rfl⟩ : ∃ f, fuel = f + 1 := ⟨fuel - 1, by omega⟩
    have hexact : (t + 1) % 2 ^ 32 = t + 1 := Nat.mod_eq_of_lt (by omega)
    rw [Nat.add_zero] at hhit
    refine ⟨(x + t) % s.bucketCount, Nat.mod_lt _ h.pos, ?_, hempty t (by omega), hhit⟩
    rw [findSlotFrom, if_neg (hempty t (by omega)), if_neg (by omega), if_pos hhit]
  | succ d ih =>
    obtain ⟨fuel, rfl⟩ : ∃ f, fuel = f + 1 := ⟨fuel - 1, by omega⟩
    have hexact : (t + 1) % 2 ^ 32 = t + 1 := Nat.mod_eq_of_lt (by omega)
    have hshift : t + (d + 1) = t + 1 + d := by omega
    rw [hshift] at hlt hhit hempty
    rw [findSlotFrom, if_neg (hempty t (by omega)), if_neg (by omega), hexact, mask, h.nextSlot_path]
    by_cases hhere : s.Hit key x ((x + t) % s.bucketCount)
    · rw [if_pos hhere]
      exact ⟨_, Nat.mod_lt _ h.pos, rfl, hempty t (by omega), hhere⟩
    · rw [if_neg hhere]
      exact ih hlt (by omega) hhit hempty

/-- A key that no bucket holds is not found, whether the probe meets an empty bucket or has seen all of them. -/
theorem findSlotFrom_miss {x t d : ℕ} (h : s.Finds hash order) (hd : t + d = s.bucketCount) (hfuel : d < fuel)
    (hmiss : ∀ b < s.bucketCount, (s.buckets b).idx ≠ kEmpty → ¬ s.Hit key x b) :
    s.findSlotFrom key x fuel ((x + t) % s.bucketCount) t = some kEmpty := by
  have hle := h.count_le
  induction d generalizing t fuel with
  | zero =>
    obtain ⟨fuel, rfl⟩ : ∃ f, fuel = f + 1 := ⟨fuel - 1, by omega⟩
    have hexact : (t + 1) % 2 ^ 32 = t + 1 := Nat.mod_eq_of_lt (by omega)
    rw [findSlotFrom]
    rw [if_pos (c := s.bucketCount < (t + 1) % 2 ^ 32) (by omega), ite_self]
  | succ d ih =>
    obtain ⟨fuel, rfl⟩ : ∃ f, fuel = f + 1 := ⟨fuel - 1, by omega⟩
    have hexact : (t + 1) % 2 ^ 32 = t + 1 := Nat.mod_eq_of_lt (by omega)
    rw [findSlotFrom]
    split
    · rfl
    · next hne =>
      rw [if_neg (by omega), if_neg (hmiss _ (Nat.mod_lt _ h.pos) hne), hexact, mask, h.nextSlot_path]
      exact ih (by omega) (by omega)

/-- `FindSlot` of the key of an entry finds the bucket of the entry. -/
theorem Finds.found (h : s.Finds hash order) (hi : i ∈ order) (hfuel : s.bucketCount < fuel) :
    ∃ b < s.bucketCount, s.findSlot fuel (s.entries i).key (hash (s.entries i).key) = some b ∧
      (s.buckets b).idx = i := by
  obtain ⟨t, ht, hidx, hpath⟩ := h.reach i hi
  have hlive := h.live_of_idx hi hidx
  have hhash := (h.live _ (Nat.mod_lt _ h.pos) hlive).2
  have hhit : s.Hit (s.entries i).key (hash (s.entries i).key)
      ((hash (s.entries i).key + (0 + t)) % s.bucketCount) := by
    rw [Nat.zero_add]
    refine ⟨hlive.2, ?_, by rw [hidx]⟩
    rw [hhash, hidx]
  have hempty : ∀ u ≤ 0 + t, (s.buckets ((hash (s.entries i).key + u) % s.bucketCount)).idx ≠ kEmpty := by
    intro u hu
    rcases Nat.lt_or_ge u t with hut | hut
    · exact hpath u hut
    · rw [show u = t by omega]
      exact hlive.1
  have hrounds : t < fuel := by omega
  obtain ⟨b, hb, hfind, hne, htomb, -, hkey⟩ := findSlotFrom_hit h (by omega) hrounds hhit hempty
  refine ⟨b, hb, ?_, ?_⟩
  · rw [findSlot, mask, h.and_mask]
    exact hfind
  · exact h.keys _ (h.live b hb ⟨hne, htomb⟩).1 i hi hkey

/-- `FindSlot` of another key finds nothing. -/
theorem Finds.missed (h : s.Finds hash order) (hkey : ∀ i ∈ order, (s.entries i).key ≠ key)
    (hfuel : s.bucketCount < fuel) : s.findSlot fuel key (hash key) = some kEmpty := by
  rw [findSlot, mask, h.and_mask]
  refine findSlotFrom_miss (t := 0) (d := s.bucketCount) h (by omega) hfuel ?_
  rintro b hb hne ⟨htomb, -, hhit⟩
  exact hkey _ (h.live b hb ⟨hne, htomb⟩).1 hhit

end Shard

namespace Table

variable {buckets : ℕ → Bucket} {n : ℕ} {key key' : ℕ → κ} {hash : κ → ℕ} {order order' : List ℕ} {a b i : ℕ}

/-- The bucket of an entry becomes a tombstone: the others are still found. -/
theorem tombstone (h : Table buckets n key hash order) (hb : b < n) (hidx : (buckets b).idx = i)
    (horder : ∀ j, j ∈ order' ↔ j ∈ order ∧ j ≠ i) :
    Table (Function.update buckets b { buckets b with idx := kTombstone }) n key hash order' := by
  have hfresh : kTombstone ∉ order := fun hmem => Nat.lt_irrefl _ (h.small _ hmem)
  have hgone : kTombstone ∉ order' := fun hmem => hfresh ((horder _).mp hmem).1
  refine h.write hb (by decide : kTombstone ≠ kEmpty) hfresh ?_ ?_ ?_ ?_ ?_
  · intro j _
    rw [hidx]
    exact horder j
  · exact fun _ _ _ => rfl
  · exact fun j hj k hk heq => h.keys j ((horder j).mp hj).1 k ((horder k).mp hk).1 heq
  · exact fun hmem => absurd hmem hgone
  · exact fun hlive => absurd rfl hlive.2

/-- The bucket of the entry `a` is led to the place `i`, where its key is now. -/
theorem moved (h : Table buckets n key hash order) (hb : b < n) (hidx : (buckets b).idx = a) (ha : a ∈ order)
    (hfresh : i ∉ order) (hsmall : i < kTombstone) (horder : ∀ j, j ∈ order' ↔ j = i ∨ (j ∈ order ∧ j ≠ a))
    (hself : key' i = key a) (hother : ∀ j ∈ order, key' j = key j) :
    Table (Function.update buckets b { buckets b with idx := i }) n key' hash order' := by
  have hlive := h.live_of_idx ha hidx
  have htomb : kTombstone < kEmpty := by decide
  have hin : ∀ j ∈ order', ∃ k ∈ order, key' j = key k ∧ (j = i ∧ k = a ∨ j = k ∧ k ≠ a) := by
    intro j hj
    rcases (horder j).mp hj with rfl | ⟨hmem, hne⟩
    · exact ⟨a, ha, hself, .inl ⟨rfl, rfl⟩⟩
    · exact ⟨j, hmem, hother j hmem, .inr ⟨rfl, hne⟩⟩
  refine h.write hb (by show i ≠ kEmpty; omega) hfresh ?_ ?_ ?_ ?_ ?_
  · intro j hj
    rw [horder, hidx]
    exact ⟨fun hor => hor.resolve_left hj, fun hmem => .inr hmem⟩
  · intro j hj hne
    rcases (horder j).mp hj with heq | ⟨hmem, -⟩
    · exact absurd heq hne
    · exact hother j hmem
  · intro j hj k hk heq
    obtain ⟨j', hj', hkj, hj''⟩ := hin j hj
    obtain ⟨k', hk', hkk, hk''⟩ := hin k hk
    have hsame := h.keys j' hj' k' hk' (by rw [← hkj, ← hkk, heq])
    omega
  · exact fun _ => hsmall
  · intro _
    obtain ⟨t, ht, htidx, hempty⟩ := h.reach a ha
    refine ⟨(horder i).mpr (.inl rfl), ?_, t, ht, ?_, ?_⟩
    · have hhash := (h.live b hb hlive).2
      rw [hidx] at hhash
      exact hhash.trans (congrArg hash hself.symm)
    · show (hash (key' i) + t) % n = b
      rw [hself]
      refine (h.unique b hb _ (Nat.mod_lt _ h.pos) hlive ?_).symm
      rw [htidx, hidx]
    · show ∀ u < t, (buckets ((hash (key' i) + u) % n)).idx ≠ kEmpty
      rw [hself]
      exact hempty

/-- A new entry in the first free bucket of its probe. -/
theorem insert (h : Table buckets n key hash order) {t : ℕ} (ht : t < n)
    (hfree : ¬ (buckets ((hash (key' i) + t) % n)).Live)
    (hpath : ∀ u < t, (buckets ((hash (key' i) + u) % n)).Live) (hfresh : i ∉ order) (hsmall : i < kTombstone)
    (hnew : ∀ j ∈ order, key j ≠ key' i) (hother : ∀ j ∈ order, key' j = key j) :
    Table (Function.update buckets ((hash (key' i) + t) % n) ⟨hash (key' i), i⟩) n key' hash (i :: order) := by
  have htomb : kTombstone < kEmpty := by decide
  have hb : (hash (key' i) + t) % n < n := Nat.mod_lt _ h.pos
  refine h.write hb (by show i ≠ kEmpty; omega) hfresh ?_ ?_ ?_ ?_ ?_
  · intro j hj
    have hne : j ∈ order → j ≠ (buckets ((hash (key' i) + t) % n)).idx := by
      rintro hmem heq
      exact hfree (h.live_of_idx hmem heq.symm)
    rw [List.mem_cons]
    exact ⟨fun hor => ⟨hor.resolve_left hj, hne (hor.resolve_left hj)⟩, fun hmem => .inr hmem.1⟩
  · intro j hj hne
    exact hother j ((List.mem_cons.mp hj).resolve_left hne)
  · intro j hj k hk heq
    rcases List.mem_cons.mp hj with hji | hjo <;> rcases List.mem_cons.mp hk with hki | hko
    · rw [hji, hki]
    · rw [hji, hother k hko] at heq
      exact absurd heq.symm (hnew k hko)
    · rw [hki, hother j hjo] at heq
      exact absurd heq (hnew j hjo)
    · rw [hother j hjo, hother k hko] at heq
      exact h.keys j hjo k hko heq
  · exact fun _ => hsmall
  · exact fun _ => ⟨List.mem_cons_self, rfl, t, ht, rfl, fun u hu => (hpath u hu).1⟩

end Table

end Kvdb.FlatCache
