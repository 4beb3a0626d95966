import Kvdb.Cache.ExactLru
import Kvdb.Lib.Runs
import Mathlib.Algebra.Order.BigOperators.Group.List

/-! # The bytes that the block map of `SSTableCache` holds (`block_cache.hpp`)

The block map is a `FlatCache` without a size function, so that each block is charged `sizeof(std::string)` whatever its
length is. What bounds the bytes of a shard is therefore the number of its entries times the length of the longest
block. -/
namespace Kvdb.FlatCache
set_option autoImplicit false

open Kvdb.Runs

/-- `SSTableCache::BlockKey`. -/
def blockKey (seq idx : ℕ) : ℕ := (seq * 2 ^ 32) % 2 ^ 64 ||| idx

/-- The block map: its shards, of which the first `numShards` exist. -/
structure BlockMap where
  shards : ℕ → Shard ℕ Bytes
  numShards : ℕ

inductive BlockCall where
  | getBlock (seq idx : ℕ)
  | putBlock (seq idx : ℕ) (data : Bytes)
  | invalidate (seq : ℕ)
  deriving DecidableEq, Repr

/-- The bytes of the blocks that a shard holds: those of the entries in `[0, entry_count)`. -/
def Shard.heldBytes (s : Shard ℕ Bytes) : ℕ :=
  ((List.range s.entryCount).map fun i => ((s.entries i).value.getD []).length).sum

namespace BlockMap

/-- The constructor. -/
def init (maxBlocks maxBytes numShards : ℕ) : BlockMap where
  shards := fun _ => Shard.init (max 1 (maxBlocks / numShards)) (max 1 (maxBytes / numShards))
  numShards := numShards

section Calls

variable (size : ℕ) (hash : ℕ → ℕ) (fuel : ℕ)

/-- A call of one shard. -/
def onShard (m : BlockMap) (j : ℕ) (c : Call ℕ Bytes) : Option (Option Bytes × BlockMap) :=
  ((m.shards j).call size hash fuel c).map fun r => (r.1, { m with shards := Function.update m.shards j r.2 })

/-- `EraseIf` of the blocks of an SSTable, in one shard after another. -/
def eraseBlocks (seq : ℕ) (m : BlockMap) : Option BlockMap :=
  (List.range m.numShards).foldlM (fun m j => (m.onShard size hash fuel j
    (.eraseIf fun key => decide (blockKey seq 0 ≤ key ∧ key < blockKey (seq + 1) 0))).map Prod.snd) m

/-- A call: what `GetBlock` returns (nothing for the others) and the map behind it. -/
def call (m : BlockMap) : BlockCall → Option (Option Bytes × BlockMap)
  | .getBlock seq idx => m.onShard size hash fuel (hash (blockKey seq idx) % m.numShards) (.get (blockKey seq idx))
  | .putBlock seq idx data =>
    m.onShard size hash fuel (hash (blockKey seq idx) % m.numShards) (.put (blockKey seq idx) data)
  | .invalidate seq => (m.eraseBlocks size hash fuel seq).map fun m' => (none, m')

def step (m : BlockMap) (c : BlockCall) : Option BlockMap := (m.call size hash fuel c).map Prod.snd

end Calls

/-- The blocks that are put have at most that many bytes. -/
def AtMost (bytes : ℕ) (_ : BlockMap) : BlockCall → Prop
  | .putBlock _ _ data => data.length ≤ bytes
  | _ => True

/-- With blocks of at most that many bytes no run takes a shard over its share of `max_bytes`; the loops are given more
rounds than there are buckets. -/
def StaysWithin (size maxBlocks maxBytes numShards bytes : ℕ) : Prop :=
  ∀ (hash : ℕ → ℕ) (fuel : ℕ) (calls : List BlockCall) (m : BlockMap),
    ((init maxBlocks maxBytes numShards).shards 0).bucketCount < fuel →
    Run (step size hash fuel) (AtMost bytes) (init maxBlocks maxBytes numShards) calls m →
    ∀ j < numShards, (m.shards j).heldBytes ≤ maxBytes / numShards

/-- The number of blocks for which a shard has room, each charged `size` bytes. -/
def shardCapacity (size maxBlocks maxBytes numShards : ℕ) : ℕ :=
  min (max 1 (maxBlocks / numShards)) (max 1 (maxBytes / numShards) / size)

end BlockMap

/-! ## What a shard holds -/

namespace Shard

variable {c : Sizes} {hash : ℕ → ℕ} {s : Shard ℕ Bytes} {order : List ℕ} {items : List (ℕ × Bytes)} {fuel bytes : ℕ}

theorem Holds.heldBytes (h : Holds c hash s order items) (hdense : Dense order) :
    s.heldBytes = (items.map fun item => item.2.length).sum := by
  have hsub : List.range order.length ⊆ order := fun i hi => hdense.mem h.linked.nodup (List.mem_range.mp hi)
  have hperm : (List.range order.length).Perm order :=
    (List.subperm_of_subset List.nodup_range hsub).perm_of_length_le (by rw [List.length_range])
  have hlengths : order.map (fun i => ((s.entries i).value.getD []).length) = items.map fun item => item.2.length := by
    have heq := congrArg (List.map fun e : Entry ℕ Bytes => (e.value.getD []).length) h.items
    rw [List.map_map, List.map_map] at heq
    exact heq
  rw [Shard.heldBytes, h.count, (hperm.map _).sum_eq, hlengths]

/-- The blocks of a shard have at most `bytes` bytes each. -/
def Stores (c : Sizes) (hash : ℕ → ℕ) (bytes : ℕ) (s : Shard ℕ Bytes) : Prop :=
  ∃ order items, Holds c hash s order items ∧ Dense order ∧ ∀ item ∈ items, item.2.length ≤ bytes

theorem Stores.heldBytes_le (h : Stores c hash bytes s) : s.heldBytes ≤ c.capacity * bytes := by
  obtain ⟨order, items, hholds, hdense, hle⟩ := h
  rw [hholds.heldBytes hdense]
  have hsum := List.sum_le_card_nsmul (items.map fun item => item.2.length) bytes (List.forall_mem_map.mpr hle)
  rw [List.length_map, ← hholds.length_eq] at hsum
  exact Nat.le_trans hsum (Nat.mul_le_mul_right _ hholds.fits)

/-- A call adds at most the block that it puts. -/
theorem lruCall_subset {κ ν : Type} [DecidableEq κ] (capacity : ℕ) (items : List (κ × ν)) (call : Call κ ν) :
    ∀ item ∈ (lruCall capacity items call).2, item ∈ items ∨ ∃ key val, call = .put key val ∧ item = (key, val) := by
  intro item hitem
  cases call with
  | get key =>
    refine .inl ?_
    simp only [lruCall, Lru.touch] at hitem
    cases hlookup : Lru.lookup items key with
    | none => rwa [hlookup] at hitem
    | some value =>
      rw [hlookup] at hitem
      rcases List.mem_cons.mp hitem with rfl | hother
      · obtain ⟨found, hfound, rfl⟩ := Option.map_eq_some_iff.mp hlookup
        have hkey := List.find?_some hfound
        rw [decide_eq_true_iff] at hkey
        rw [← hkey]
        exact List.mem_of_find?_eq_some hfound
      · exact List.mem_of_mem_filter hother
  | put key val =>
    rcases List.mem_cons.mp (List.mem_of_mem_take hitem) with rfl | hother
    · exact .inr ⟨key, val, rfl, rfl⟩
    · exact .inl (List.mem_of_mem_filter hother)
  | eraseIf pred => exact .inl (List.mem_of_mem_filter hitem)
  | clear => cases hitem

theorem Stores.call (h : Stores c hash bytes s) (hfuel : c.bucketCount < fuel) (call : Call ℕ Bytes)
    (hsmall : ∀ key val, call = .put key val → val.length ≤ bytes) :
    ∃ r s', s.call c.size hash fuel call = some (r, s') ∧ Stores c hash bytes s' := by
  obtain ⟨order, items, hholds, hdense, hle⟩ := h
  obtain ⟨s', order', hcall, hdense', hholds'⟩ := hholds.call hdense hfuel call
  refine ⟨_, s', hcall, ⟨order', _, hholds', hdense', fun item hitem => ?_⟩⟩
  rcases lruCall_subset c.capacity items call item hitem with hold | ⟨key, val, hput, rfl⟩
  · exact hle item hold
  · exact hsmall key val hput

end Shard

namespace BlockMap

variable {c : Sizes} {hash : ℕ → ℕ} {fuel bytes : ℕ} {m : BlockMap} {j : ℕ}

/-- All shards hold blocks of at most `bytes` bytes. -/
def Sound (c : Sizes) (hash : ℕ → ℕ) (bytes : ℕ) (m : BlockMap) : Prop := ∀ j, Shard.Stores c hash bytes (m.shards j)

theorem Sound.onShard (h : Sound c hash bytes m) (hfuel : c.bucketCount < fuel) (j : ℕ) (call : Call ℕ Bytes)
    (hsmall : ∀ key val, call = .put key val → val.length ≤ bytes) :
    ∃ r m', m.onShard c.size hash fuel j call = some (r, m') ∧ Sound c hash bytes m' := by
  obtain ⟨r, s', hcall, hstores⟩ := (h j).call hfuel call hsmall
  refine ⟨r, { m with shards := Function.update m.shards j s' }, by rw [BlockMap.onShard, hcall]; rfl, fun k => ?_⟩
  show Shard.Stores c hash bytes (Function.update m.shards j s' k)
  by_cases hk : k = j
  · rw [hk, Function.update_self]
    exact hstores
  · rw [Function.update_of_ne hk]
    exact h k

/-- `EraseIf` in one shard after another. -/
theorem Sound.eraseBlocks (h : Sound c hash bytes m) (hfuel : c.bucketCount < fuel) (seq : ℕ) :
    ∃ m', m.eraseBlocks c.size hash fuel seq = some m' ∧ Sound c hash bytes m' := by
  unfold BlockMap.eraseBlocks
  generalize List.range m.numShards = js
  induction js generalizing m with
  | nil => exact ⟨m, rfl, h⟩
  | cons j js ih =>
    obtain ⟨r, m', hcall, hsound⟩ := h.onShard hfuel j
      (.eraseIf fun key => decide (blockKey seq 0 ≤ key ∧ key < blockKey (seq + 1) 0)) nofun
    obtain ⟨m'', hrest, hsound'⟩ := ih hsound
    refine ⟨m'', ?_, hsound'⟩
    rw [List.foldlM_cons, hcall]
    exact hrest

/-- Every call returns, and the blocks of a call that puts a small one stay small. -/
theorem Sound.step (h : Sound c hash bytes m) (hfuel : c.bucketCount < fuel) {call : BlockCall} (hok : AtMost bytes m call) :
    ∃ m', step c.size hash fuel m call = some m' ∧ Sound c hash bytes m' := by
  cases call with
  | getBlock seq idx =>
    obtain ⟨r, m', hcall, hsound⟩ := h.onShard hfuel (hash (blockKey seq idx) % m.numShards) (.get (blockKey seq idx)) nofun
    exact ⟨m', congrArg (Option.map Prod.snd) hcall, hsound⟩
  | putBlock seq idx data =>
    obtain ⟨r, m', hcall, hsound⟩ := h.onShard hfuel (hash (blockKey seq idx) % m.numShards) (.put (blockKey seq idx) data)
      (fun key val heq => by cases heq; exact hok)
    exact ⟨m', congrArg (Option.map Prod.snd) hcall, hsound⟩
  | invalidate seq =>
    obtain ⟨m', hcall, hsound⟩ := h.eraseBlocks hfuel seq
    refine ⟨m', ?_, hsound⟩
    rw [BlockMap.step, BlockMap.call, hcall]
    rfl

theorem Sound.run (h : Sound c hash bytes m) (hfuel : c.bucketCount < fuel) {calls : List BlockCall} {m' : BlockMap}
    (hrun : Run (BlockMap.step c.size hash fuel) (AtMost bytes) m calls m') : Sound c hash bytes m' := by
  refine hrun.invariant (I := Sound c hash bytes) ?_ h
  intro m call m' hok hstep hm
  obtain ⟨m'', hcall, hsound⟩ := hm.step hfuel hok
  rw [hstep] at hcall
  rw [Option.some.inj hcall]
  exact hsound

/-! ## A shard is filled -/

/-- The first blocks of the SSTable 1, each of so many bytes. -/
def fill (bytes : ℕ) : ℕ → List BlockCall
  | 0 => []
  | n + 1 => fill bytes n ++ [.putBlock 1 n (List.replicate bytes 0)]

theorem blockKey_one {n : ℕ} (h : n < 2 ^ 32) : blockKey 1 n = 2 ^ 32 + n := by
  have hor := Nat.two_pow_add_eq_or_of_lt h 1
  rw [Nat.mul_one] at hor
  rw [blockKey, hor]
  rfl

/-- The shard 0 holds `n` blocks of SSTable 1. -/
def Filled (c : Sizes) (bytes n : ℕ) (m : BlockMap) : Prop :=
  ∃ order items, Shard.Holds c (fun _ => 0) (m.shards 0) order items ∧ Shard.Dense order ∧
    items.map (fun item => item.2.length) = List.replicate n bytes ∧ ∀ item ∈ items, item.1 < 2 ^ 32 + n

theorem Filled.put {n : ℕ} (h : Filled c bytes n m) (hfuel : c.bucketCount < fuel) (hn : n < c.capacity)
    (hsmall : n < 2 ^ 32) :
    ∃ m', step c.size (fun _ => 0) fuel m (.putBlock 1 n (List.replicate bytes 0)) = some m' ∧ Filled c bytes (n + 1) m' := by
  obtain ⟨order, items, hholds, hdense, hlengths, hkeys⟩ := h
  obtain ⟨s', order', hput, hdense', hholds'⟩ := hholds.put hdense hfuel (2 ^ 32 + n) (List.replicate bytes 0)
  have hcount : items.length = n := by
    have heq := congrArg List.length hlengths
    rwa [List.length_map, List.length_replicate] at heq
  have hitems : Lru.put c.capacity items (2 ^ 32 + n) (List.replicate bytes 0) =
      (2 ^ 32 + n, List.replicate bytes 0) :: items := by
    rw [Lru.put, Lru.others_absent fun item hitem => Nat.ne_of_lt (hkeys item hitem)]
    exact List.take_of_length_le (by rw [List.length_cons]; omega)
  rw [hitems] at hholds'
  refine ⟨{ m with shards := Function.update m.shards 0 s' }, ?_, order',
    (2 ^ 32 + n, List.replicate bytes 0) :: items, ?_, hdense', ?_, ?_⟩
  · rw [BlockMap.step, BlockMap.call, blockKey_one hsmall, BlockMap.onShard, Nat.zero_mod, Shard.call, hput]
    rfl
  · show Shard.Holds c _ (Function.update m.shards 0 s' 0) order' _
    rw [Function.update_self]
    exact hholds'
  · rw [List.map_cons, hlengths, List.length_replicate, List.replicate_succ]
  · intro item hitem
    rcases List.mem_cons.mp hitem with rfl | hold
    · show 2 ^ 32 + n < 2 ^ 32 + (n + 1)
      omega
    · have := hkeys item hold
      omega

theorem fill_run (h : Filled c bytes 0 m) (hfuel : c.bucketCount < fuel) (hsmall : c.capacity ≤ 2 ^ 32) (n : ℕ)
    (hn : n ≤ c.capacity) :
    ∃ m', Run (BlockMap.step c.size (fun _ => 0) fuel) (AtMost bytes) m (fill bytes n) m' ∧ Filled c bytes n m' := by
  induction n with
  | zero => exact ⟨m, .nil m, h⟩
  | succ n ih =>
    obtain ⟨m', hrun, hfilled⟩ := ih (by omega)
    obtain ⟨m'', hstep, hfilled'⟩ := hfilled.put hfuel (by omega) (by omega)
    refine ⟨m'', hrun.append (.cons ?_ hstep (.nil _)), hfilled'⟩
    show (List.replicate bytes (0 : UInt8)).length ≤ bytes
    rw [List.length_replicate]

theorem Filled.heldBytes {n : ℕ} (h : Filled c bytes n m) : (m.shards 0).heldBytes = n * bytes := by
  obtain ⟨order, items, hholds, hdense, hlengths, -⟩ := h
  rw [hholds.heldBytes hdense, hlengths, List.sum_replicate]
  rfl

/-- The shards as they are made. -/
theorem init_holds {size maxBlocks numShards : ℕ} (maxBytes : ℕ) (hsize : 0 < size) (hsize' : size < 2 ^ 32)
    (hentries : maxBlocks / numShards ≤ 2 ^ 30) (hash : ℕ → ℕ) :
    ∃ c : Sizes, c.size = size ∧ c.capacity = shardCapacity size maxBlocks maxBytes numShards ∧
      ∀ j, Shard.Holds c hash ((init maxBlocks maxBytes numShards).shards j) [] [] := by
  obtain ⟨c, hc, hcap, hholds⟩ :=
    Shard.init_holds hsize hsize' (Nat.le_max_left 1 (maxBlocks / numShards)) (Nat.max_le.mpr ⟨by decide, hentries⟩) hash
  exact ⟨c, hc, hcap, fun _ => hholds⟩

end BlockMap

section Bound

variable {size maxBlocks maxBytes numShards bytes : ℕ} (hsize : 0 < size) (hsize' : size < 2 ^ 32)
  (hentries : maxBlocks / numShards ≤ 2 ^ 30)

include hsize hsize' hentries

theorem fits_of_within (hshards : 0 < numShards) (h : BlockMap.StaysWithin size maxBlocks maxBytes numShards bytes) :
    BlockMap.shardCapacity size maxBlocks maxBytes numShards * bytes ≤ maxBytes / numShards := by
  obtain ⟨c, rfl, hcap, hholds⟩ := BlockMap.init_holds maxBytes hsize hsize' hentries fun _ => 0
  have hfilled : BlockMap.Filled c bytes 0 (BlockMap.init maxBlocks maxBytes numShards) :=
    ⟨[], [], hholds 0, fun _ hi => absurd hi List.not_mem_nil, rfl, fun _ hi => absurd hi List.not_mem_nil⟩
  have hsmall : c.capacity ≤ 2 ^ 32 := by
    have hmin : c.capacity ≤ c.maxEntries := Nat.min_le_left ..
    have := c.bucketCount_le
    have := c.room
    omega
  obtain ⟨m, hrun, hfull⟩ := BlockMap.fill_run hfilled (Nat.lt_succ_self _) hsmall c.capacity (Nat.le_refl _)
  have hfuel : ((BlockMap.init maxBlocks maxBytes numShards).shards 0).bucketCount < c.bucketCount + 1 := by
    rw [(hholds 0).bucketCount]
    exact Nat.lt_succ_self _
  have hle := h (fun _ => 0) _ _ m hfuel hrun 0 hshards
  rw [hfull.heldBytes, hcap] at hle
  exact hle

theorem within_of_fits (h : BlockMap.shardCapacity size maxBlocks maxBytes numShards * bytes ≤ maxBytes / numShards) :
    BlockMap.StaysWithin size maxBlocks maxBytes numShards bytes := by
  intro hash fuel calls m hfuel hrun j _
  obtain ⟨c, rfl, hcap, hholds⟩ := BlockMap.init_holds maxBytes hsize hsize' hentries hash
  have hsound : BlockMap.Sound c hash bytes (BlockMap.init maxBlocks maxBytes numShards) := fun j =>
    ⟨[], [], hholds j, fun _ hi => absurd hi List.not_mem_nil, fun _ hi => absurd hi List.not_mem_nil⟩
  rw [(hholds 0).bucketCount] at hfuel
  have hle := (hsound.run hfuel hrun j).heldBytes_le
  rw [hcap] at hle
  exact Nat.le_trans hle h

end Bound

/-- For blocks of at most `bytes` bytes the shards stay within their share of `max_bytes` in every run, if and only if as
many blocks of that length as a shard has room for fit into it. -/
theorem block_bytes_within_iff (size maxBlocks maxBytes numShards bytes : ℕ) (hsize : 0 < size) (hsize' : size < 2 ^ 32)
    (hshards : 0 < numShards) (hentries : maxBlocks / numShards ≤ 2 ^ 30) :
    BlockMap.StaysWithin size maxBlocks maxBytes numShards bytes ↔
      BlockMap.shardCapacity size maxBlocks maxBytes numShards * bytes ≤ maxBytes / numShards :=
  ⟨fits_of_within hsize hsize' hentries hshards, within_of_fits hsize hsize' hentries⟩

/-- The default cache, 1024 blocks and 64 MiB in 16 shards, with blocks of at most 64 KiB and strings of 32 bytes. -/
theorem block_bytes_within_default : BlockMap.StaysWithin 32 1024 (2 ^ 26) 16 (2 ^ 16) :=
  (block_bytes_within_iff 32 1024 (2 ^ 26) 16 (2 ^ 16) (by decide) (by decide) (by decide) (by decide)).mpr (by decide)

/-- Two blocks of 40 bytes in a shard of 64 bytes, in which two strings of 32 bytes have room. Values of up to 4 MiB take
the default cache over its bound in the same way. -/
theorem block_bytes_exceeded :
    (∃ m, Run (BlockMap.step 32 id 5) anyStep (BlockMap.init 2 64 1)
        [.putBlock 1 0 (List.replicate 40 7), .putBlock 1 1 (List.replicate 40 7)] m ∧ (m.shards 0).heldBytes = 80) ∧
      ¬ ∀ bytes, BlockMap.StaysWithin 32 1024 (2 ^ 26) 16 bytes := by
  refine ⟨Run.exists_of_checked (by decide), fun h => ?_⟩
  exact absurd (fits_of_within (by decide) (by decide) (by decide) (by decide) (h (2 ^ 22))) (by decide)

end Kvdb.FlatCache
