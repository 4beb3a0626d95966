import Kvdb.Cache.FlatShard

/-! # A shard of the block cache is an LRU cache

The block map has `uint64_t` keys and strings as values; its `ByteSize` is `sizeof(std::string)`, a number that the
standard library fixes. With at most 2^30 entries a shard gives the results of an LRU cache of its capacity. With more
there are 2^32 buckets, and the last slot has the number that `FindSlot` returns for "not found". -/
namespace Kvdb.FlatCache
set_option autoImplicit false

section Abstract

variable {κ ν : Type} [DecidableEq κ]

/-- A call to an LRU cache: its result and the pairs behind it. -/
def lruCall (capacity : ℕ) (items : List (κ × ν)) : Call κ ν → Option ν × List (κ × ν)
  | .get key => (Lru.lookup items key, Lru.touch items key)
  | .put key val => (none, Lru.put capacity items key val)
  | .eraseIf pred => (none, Lru.eraseIf items pred)
  | .clear => (none, [])

/-- The results of the calls, one after another. -/
def lruRun (capacity : ℕ) : List (κ × ν) → List (Call κ ν) → List (Option ν)
  | _, [] => []
  | items, c :: calls => (lruCall capacity items c).1 :: lruRun capacity (lruCall capacity items c).2 calls

end Abstract

namespace Shard

variable {κ ν : Type} [DecidableEq κ] {c : Sizes} {hash : κ → ℕ} {s : Shard κ ν} {order : List ℕ}
  {items : List (κ × ν)} {fuel : ℕ}

theorem Holds.call (h : Holds c hash s order items) (hdense : Dense order) (hfuel : c.bucketCount < fuel)
    (call : Call κ ν) :
    ∃ s' order', s.call c.size hash fuel call = some ((lruCall c.capacity items call).1, s') ∧ Dense order' ∧
      Holds c hash s' order' (lruCall c.capacity items call).2 := by
  cases call with
  | get key => exact h.get hdense hfuel key
  | put key val =>
    obtain ⟨s', order', hput, hdense', hholds⟩ := h.put hdense hfuel key val
    exact ⟨s', order', by rw [Shard.call, hput]; rfl, hdense', hholds⟩
  | eraseIf pred =>
    obtain ⟨s', order', herase, hdense', hholds⟩ := h.eraseIf hdense hfuel pred
    exact ⟨s', order', by rw [Shard.call, herase]; rfl, hdense', hholds⟩
  | clear => exact ⟨s.clear, [], rfl, fun _ hi => absurd hi List.not_mem_nil, h.clear⟩

theorem Holds.run (h : Holds c hash s order items) (hdense : Dense order) (hfuel : c.bucketCount < fuel)
    (calls : List (Call κ ν)) : Shard.run c.size hash fuel s calls = some (lruRun c.capacity items calls) := by
  induction calls generalizing s order items with
  | nil => rfl
  | cons call calls ih =>
    obtain ⟨s', order', hcall, hdense', hholds⟩ := h.call hdense hfuel call
    rw [Shard.run, hcall]
    simp only [Option.bind_eq_bind, Option.bind_some]
    rw [ih hholds hdense']
    rfl

/-- The doubling loop ends at a power of two that is large enough, and at most 2^31 if that is enough. -/
theorem bucketCount_spec (n rounds j : ℕ) (h : n ≤ 2 ^ j + rounds) :
    ∃ k, KVCache.Shard.bucketCount n rounds (2 ^ j) = 2 ^ k ∧ n ≤ 2 ^ k ∧ (n ≤ 2 ^ 31 → j ≤ 31 → k ≤ 31) := by
  induction rounds generalizing j with
  | zero => exact ⟨j, rfl, h, fun _ hj => hj⟩
  | succ rounds ih =>
    rw [KVCache.Shard.bucketCount]
    by_cases hlt : 2 ^ j < n
    · have hpos := Nat.two_pow_pos j
      obtain ⟨k, hk, hn, hle⟩ := ih (j + 1) (by rw [Nat.pow_succ]; omega)
      refine ⟨k, ?_, hn, ?_⟩
      · rw [if_pos hlt, ← Nat.pow_succ, hk]
      · intro hsmall _
        refine hle hsmall ?_
        exact (Nat.pow_lt_pow_iff_right (by decide)).mp (Nat.lt_of_lt_of_le hlt hsmall)
    · exact ⟨j, by rw [if_neg hlt], by omega, fun _ hj => hj⟩

omit [DecidableEq κ] in
theorem init_holds {maxEntries maxBytes size : ℕ} [Inhabited κ] (hsize : 0 < size) (hsize' : size < 2 ^ 32)
    (hentries : 1 ≤ maxEntries) (hle : maxEntries ≤ 2 ^ 30) (hash : κ → ℕ) :
    ∃ c : Sizes, c.size = size ∧ c.capacity = min maxEntries (maxBytes / size) ∧
      Holds c hash (init maxEntries maxBytes : Shard κ ν) [] [] := by
  obtain ⟨k, hk, hn, hpow⟩ := bucketCount_spec (maxEntries * 2) (maxEntries * 2) 0 (by omega)
  have hk31 : k ≤ 31 := hpow (by omega) (by omega)
  let c : Sizes := ⟨size, maxEntries, maxBytes, 2 ^ k, hsize, hsize', hentries, ⟨k, hk31, rfl⟩, hn⟩
  exact ⟨c, rfl, rfl, hk, rfl, rfl, Table.empty ⟨k, hk31, hk⟩, Linked.nil rfl rfl, rfl, rfl, rfl, Nat.zero_le _⟩

/-- A shard in which nothing fits: it stays as it was made. -/
structure Barren (size : ℕ) (s : Shard κ ν) : Prop where
  buckets : ∀ b, (s.buckets b).idx = kEmpty
  tail : s.links.tail = none
  entryCount : s.entryCount = 0
  currentBytes : s.currentBytes = 0
  tight : s.maxBytes < size

omit [DecidableEq κ] in
theorem Barren.clear {size : ℕ} (h : Barren size s) : Barren size s.clear := ⟨fun _ => rfl, rfl, rfl, rfl, h.tight⟩

theorem Barren.findSlot {size : ℕ} (h : Barren size s) (key : κ) (x : ℕ) : s.findSlot 1 key x = some kEmpty := by
  rw [Shard.findSlot, findSlotFrom, if_pos (h.buckets _)]

variable (hash) in
theorem Barren.call {size : ℕ} (h : Barren size s) (hsize : size < 2 ^ 32) (call : Call κ ν) :
    ∃ s', s.call size hash 1 call = some ((lruCall 0 [] call).1, s') ∧ Barren size s' := by
  cases call with
  | get key => exact ⟨s, by rw [Shard.call, Shard.get, h.findSlot]; rfl, h⟩
  | put key val =>
    have hfull : s.maxEntries ≤ s.entryCount ∨
        s.maxBytes < (s.currentBytes + byteSize size (some val)) % 2 ^ 64 := by
      right
      rw [h.currentBytes, Nat.zero_add]
      have htight := h.tight
      show s.maxBytes < size % 2 ^ 64
      omega
    refine ⟨s, ?_, h⟩
    rw [Shard.call, Shard.put, h.findSlot]
    simp only [Option.bind_eq_bind, Option.bind_some]
    rw [if_neg (by simp), makeRoom, if_pos hfull, Holds.evict_nil h.tail]
    rfl
  | eraseIf pred =>
    refine ⟨s, ?_, h⟩
    rw [Shard.call, Shard.eraseIf, eraseIfFrom, if_neg (by rw [h.entryCount]; exact Nat.lt_irrefl 0)]
    rfl
  | clear => exact ⟨s.clear, rfl, h.clear⟩

theorem lruCall_zero (call : Call κ ν) : (lruCall 0 [] call).2 = [] := by
  cases call <;> rfl

theorem Barren.run {size : ℕ} (h : Barren size s) (hsize : size < 2 ^ 32) (calls : List (Call κ ν)) :
    Shard.run size hash 1 s calls = some (lruRun 0 [] calls) := by
  induction calls generalizing s with
  | nil => rfl
  | cons call calls ih =>
    obtain ⟨s', hcall, hbarren⟩ := h.call hash hsize call
    rw [Shard.run, hcall]
    simp only [Option.bind_eq_bind, Option.bind_some]
    rw [ih hbarren, lruRun, lruCall_zero]
    rfl

end Shard

/-- What a shard of the block map is for: it gives the results of an LRU cache of its capacity. -/
def IsExactLru (size maxEntries maxBytes : ℕ) : Prop :=
  ∀ (hash : ℕ → ℕ) (calls : List (Call ℕ Bytes)), ∃ fuel,
    Shard.run size hash fuel (Shard.init maxEntries maxBytes) calls =
      some (lruRun (min maxEntries (maxBytes / size)) [] calls)

namespace Shard

theorem init_many {maxEntries : ℕ} (maxBytes : ℕ) (hmany : 2 ^ 30 < maxEntries) :
    2 ^ 32 ≤ (init maxEntries maxBytes : Shard ℕ Bytes).bucketCount ∧
      (init maxEntries maxBytes : Shard ℕ Bytes).mask = kEmpty := by
  obtain ⟨k, hk, hn, -⟩ := bucketCount_spec (maxEntries * 2) (maxEntries * 2) 0 (by omega)
  have hcount : (init maxEntries maxBytes : Shard ℕ Bytes).bucketCount = 2 ^ k := hk
  have hk31 : 31 < k := (Nat.pow_lt_pow_iff_right (by decide)).mp (show 2 ^ 31 < 2 ^ k by omega)
  have hsplit : 2 ^ k = 2 ^ 32 * 2 ^ (k - 32) := by
    rw [← Nat.pow_add]
    congr 1
    omega
  have hpos := Nat.two_pow_pos (k - 32)
  have hempty : kEmpty = 2 ^ 32 - 1 := rfl
  rw [mask, hcount, hempty]
  omega

/-- With 2^32 buckets or more the slot of this key is the number for "not found": what is put is not found again. -/
theorem last_slot_lost {size maxEntries maxBytes : ℕ} (hsize : size < 2 ^ 32) (hmany : 2 ^ 30 < maxEntries)
    (hfits : size ≤ maxBytes) (value : Bytes) (fuel : ℕ) :
    Shard.run size id (fuel + 1) (Shard.init maxEntries maxBytes) [.put kEmpty value, .get kEmpty] =
      some [none, none] := by
  obtain ⟨hcount, hmask⟩ := init_many maxBytes hmany
  have hempty : ∀ b, ((init maxEntries maxBytes : Shard ℕ Bytes).buckets b).idx = kEmpty := fun _ => rfl
  have hentries : (init maxEntries maxBytes : Shard ℕ Bytes).entryCount = 0 := rfl
  have hbytes : (init maxEntries maxBytes : Shard ℕ Bytes).currentBytes = 0 := rfl
  have hmax : (init maxEntries maxBytes : Shard ℕ Bytes).maxEntries = maxEntries := rfl
  have hmaxBytes : (init maxEntries maxBytes : Shard ℕ Bytes).maxBytes = maxBytes := rfl
  generalize (init maxEntries maxBytes : Shard ℕ Bytes) = s at *
  have hroom : ¬ (s.maxEntries ≤ s.entryCount ∨ s.maxBytes < (s.currentBytes + size) % 2 ^ 64) := by
    rw [hmax, hentries, hmaxBytes, hbytes]
    omega
  have hcalm : ¬ s.bucketCount ≤ s.entryCount * 2 % 2 ^ 64 := by
    rw [hentries]
    omega
  have hfree : ¬ (s.buckets kEmpty).Live := fun hlive => hlive.1 (hempty kEmpty)
  have hput : ∃ s', s.put size id (fuel + 1) kEmpty (some value) = some s' ∧ s'.bucketCount = s.bucketCount ∧
      s'.buckets kEmpty = ⟨kEmpty, 0⟩ ∧ (s'.entries 0).key = kEmpty := by
    refine ⟨{ s with
      entryCount := (s.entryCount + 1) % 2 ^ 64
      entries := Function.update s.entries 0 ⟨kEmpty, some value⟩
      buckets := Function.update s.buckets kEmpty ⟨kEmpty, 0⟩
      links := (s.links.setCell 0 none none).pushFront 0
      currentBytes := (s.currentBytes + size) % 2 ^ 64 }, ?_, rfl, ?_, ?_⟩
    · have hslot : ∀ s₁ : Shard ℕ Bytes, s₁.buckets = s.buckets → s₁.bucketCount = s.bucketCount →
          s₁.freeSlotFrom (fuel + 1) (id kEmpty &&& s₁.mask) 0 = some kEmpty := by
        intro s₁ heq hcount₁
        have hmask₁ : s₁.mask = kEmpty := by
          rw [mask, hcount₁]
          exact hmask
        rw [hmask₁, id, Nat.and_self, freeSlotFrom, heq, if_neg hfree]
      rw [Shard.put, findSlot, findSlotFrom, if_pos (hempty _)]
      simp only [Option.bind_eq_bind, Option.bind_some]
      rw [if_neg (not_not_intro rfl), show byteSize size (some value) = size from rfl, makeRoom, if_neg hroom]
      show s.insert size id (fuel + 1) kEmpty kEmpty (some value) = _
      rw [Shard.insert, if_neg hcalm]
      simp only [Option.bind_eq_bind, Option.bind_some, if_true, hentries]
      exact Option.bind_eq_some_iff.mpr ⟨kEmpty, hslot _ rfl rfl, rfl⟩
    · exact Function.update_self kEmpty _ s.buckets
    · exact congrArg Entry.key (Function.update_self 0 _ s.entries)
  obtain ⟨s', hput, hcount', hbucket, hkey⟩ := hput
  have hfind : s'.findSlot (fuel + 1) kEmpty kEmpty = some kEmpty := by
    have hmask' : s'.mask = kEmpty := by rw [mask, hcount', ← hmask]; rfl
    have hhit : s'.Hit kEmpty kEmpty kEmpty := by
      rw [Hit, hbucket]
      exact ⟨by decide, rfl, hkey⟩
    rw [findSlot, hmask', Nat.and_self, findSlotFrom, if_neg (by rw [hbucket]; decide), if_neg (by omega), if_pos hhit]
  rw [Shard.run, Shard.call, hput]
  simp only [Option.bind_eq_bind, Option.bind_some, Option.map_some]
  rw [Shard.run, Shard.call, Shard.get, id, hfind]
  rfl

end Shard

theorem not_exact_lru {size maxEntries maxBytes : ℕ} (hsize : 0 < size) (hsize' : size < 2 ^ 32)
    (hmany : 2 ^ 30 < maxEntries) (hfits : size ≤ maxBytes) : ¬ IsExactLru size maxEntries maxBytes := by
  intro h
  obtain ⟨fuel, hrun⟩ := h id [.put kEmpty [0], .get kEmpty]
  have hpos : 0 < maxBytes / size := Nat.div_pos hfits hsize
  obtain ⟨n, hcap⟩ : ∃ n, min maxEntries (maxBytes / size) = n + 1 :=
    ⟨min maxEntries (maxBytes / size) - 1, by omega⟩
  rw [hcap] at hrun
  cases fuel with
  | zero => cases hrun
  | succ fuel =>
    rw [Shard.last_slot_lost hsize' hmany hfits] at hrun
    cases hrun

/-- A shard of the block map is an exact LRU cache if and only if it has at most 2^30 entries, or no value fits. -/
theorem exact_lru_iff (size maxEntries maxBytes : ℕ) (hsize : 0 < size) (hsize' : size < 2 ^ 32)
    (hentries : 1 ≤ maxEntries) :
    IsExactLru size maxEntries maxBytes ↔ maxEntries ≤ 2 ^ 30 ∨ maxBytes < size := by
  refine ⟨?_, ?_⟩
  · intro h
    by_contra hnot
    push Not at hnot
    exact not_exact_lru hsize hsize' hnot.1 hnot.2 h
  · rintro (hle | htight) hash calls
    · obtain ⟨c, rfl, hcap, hholds⟩ := Shard.init_holds (κ := ℕ) (ν := Bytes) hsize hsize' hentries hle hash
      refine ⟨c.bucketCount + 1, ?_⟩
      rw [← hcap]
      exact hholds.run (fun _ hi => absurd hi List.not_mem_nil) (Nat.lt_succ_self _) calls
    · have hbarren : Shard.Barren size (Shard.init maxEntries maxBytes : Shard ℕ Bytes) :=
        ⟨fun _ => rfl, rfl, rfl, rfl, htight⟩
      refine ⟨1, ?_⟩
      rw [hbarren.run hsize', Nat.div_eq_of_lt htight, Nat.min_zero]

/-- The shards of the default cache: 64 blocks, 4 MiB, strings of 32 bytes. -/
theorem exact_lru_default : IsExactLru 32 64 (2 ^ 22) :=
  (exact_lru_iff 32 64 (2 ^ 22) (by decide) (by decide) (by decide)).mpr (.inl (by decide))

/-- One entry more than 2^30. -/
theorem crowded_shard_loses_key : ¬ IsExactLru 32 (2 ^ 30 + 1) (2 ^ 40) :=
  not_exact_lru (by decide) (by decide) (by decide) (by decide)

example : Shard.run 32 id 6 (Shard.init 2 256)
    [.put 1 [1], .put 2 [2], .get 1, .put 5 [5], .get 2, .get 1, .eraseIf (· = 1), .get 1, .get 5] =
    some [none, none, some [1], none, none, some [1], none, none, some [5]] := by decide

end Kvdb.FlatCache
