import Kvdb.Cache.KVCache
import Kvdb.Lib.Links

/-! # The block cache (`flat_cache.hpp`)

A shard is an open-addressing table of buckets over a dense array of entries, with the LRU list threaded through the
entries. A vector is its length with a function on the indices; the pointers `prev` and `next` of an entry are kept as
indices in the `Links` over the array. The numbers are the machine's: `uint32_t` for slots, indices and steps, `size_t`
for sizes. Each loop is given the number of its rounds; `none` says that a call has not returned (a loop still runs, or
the process has exited). -/
namespace Kvdb.FlatCache
set_option autoImplicit false

def kEmpty : ℕ := 2 ^ 32 - 1
def kTombstone : ℕ := kEmpty - 1

/-- The difference of two `size_t`. -/
def sub64 (a b : ℕ) : ℕ := (a + (2 ^ 64 - b % 2 ^ 64)) % 2 ^ 64

structure Bucket where
  hash : ℕ := 0
  idx : ℕ := kEmpty
  deriving DecidableEq, Repr

/-- Does the bucket refer to an entry? -/
def Bucket.Live (b : Bucket) : Prop := b.idx ≠ kEmpty ∧ b.idx ≠ kTombstone

instance (b : Bucket) : Decidable b.Live := inferInstanceAs (Decidable (_ ∧ _))

/-- `Entry` without its pointers; a null `shared_ptr` is `none`. -/
structure Entry (κ ν : Type) where
  key : κ
  value : Option ν

structure Shard (κ ν : Type) where
  buckets : ℕ → Bucket
  bucketCount : ℕ
  entries : ℕ → Entry κ ν
  links : Links ℕ
  maxEntries : ℕ
  maxBytes : ℕ
  currentBytes : ℕ
  entryCount : ℕ

/-- `(i + 1) & mask`. -/
def nextSlot (mask i : ℕ) : ℕ := ((i + 1) % 2 ^ 32) &&& mask

namespace Shard

variable {κ ν : Type} [DecidableEq κ]

/-- `Init`. -/
def init [Inhabited κ] (perE perB : ℕ) : Shard κ ν where
  buckets := fun _ => {}
  bucketCount := KVCache.Shard.bucketCount (perE * 2) (perE * 2) 1
  entries := fun _ => ⟨default, none⟩
  links := ⟨fun _ => none, fun _ => none, none, none⟩
  maxEntries := perE
  maxBytes := perB
  currentBytes := 0
  entryCount := 0

/-- `static_cast<uint32_t>(buckets.size() - 1)`. -/
def mask (s : Shard κ ν) : ℕ := (s.bucketCount - 1) % 2 ^ 32

def setIdx (s : Shard κ ν) (slot idx : ℕ) : Shard κ ν :=
  { s with buckets := Function.update s.buckets slot { s.buckets slot with idx := idx } }

/-- The test of `FindSlot`: does the bucket hold the key? -/
def Hit (s : Shard κ ν) (key : κ) (hash i : ℕ) : Prop :=
  (s.buckets i).idx ≠ kTombstone ∧ (s.buckets i).hash = hash ∧ (s.entries (s.buckets i).idx).key = key

instance (s : Shard κ ν) (key : κ) (hash i : ℕ) : Decidable (s.Hit key hash i) :=
  inferInstanceAs (Decidable (_ ∧ _ ∧ _))

/-- The loop of `FindSlot` from bucket `i`. -/
def findSlotFrom (s : Shard κ ν) (key : κ) (hash : ℕ) : ℕ → ℕ → ℕ → Option ℕ
  | 0, _, _ => none
  | fuel + 1, i, steps =>
    if (s.buckets i).idx = kEmpty then some kEmpty
    else if s.bucketCount < (steps + 1) % 2 ^ 32 then some kEmpty
    else if s.Hit key hash i then some i
    else findSlotFrom s key hash fuel (nextSlot s.mask i) ((steps + 1) % 2 ^ 32)

def findSlot (s : Shard κ ν) (fuel : ℕ) (key : κ) (hash : ℕ) : Option ℕ :=
  s.findSlotFrom key hash fuel (hash &&& s.mask) 0

/-- The loop of `Rehash` for one bucket: the first empty slot. -/
def emptySlotFrom (buckets : ℕ → Bucket) (mask : ℕ) : ℕ → ℕ → Option ℕ
  | 0, _ => none
  | fuel + 1, i => if (buckets i).idx = kEmpty then some i else emptySlotFrom buckets mask fuel (nextSlot mask i)

def rehash (s : Shard κ ν) (fuel : ℕ) : Option (Shard κ ν) := do
  let newSz := max (s.bucketCount * 2) 8
  let mask := (newSz - 1) % 2 ^ 32
  let buckets ← (List.range s.bucketCount).foldlM (fun buckets j =>
    let b := s.buckets j
    if b.idx = kEmpty ∨ b.idx = kTombstone then some buckets
    else (emptySlotFrom buckets mask fuel (b.hash &&& mask)).map fun i => Function.update buckets i b) fun _ => {}
  return { s with buckets := buckets, bucketCount := newSz }

/-- `ByteSize` for a value type without a size function of its own; `size` is `sizeof(Value)`. -/
def byteSize (size : ℕ) (v : Option ν) : ℕ := if v.isSome then size else 0

/-- `LruRemove`, then `LruPushFront`. -/
def touch (s : Shard κ ν) (e : ℕ) : Shard κ ν := { s with links := (s.links.remove e).pushFront e }

variable (size : ℕ) (hash : κ → ℕ)

/-- `Evict_nolock`: the index of the entry that was freed. -/
def evict (s : Shard κ ν) (fuel : ℕ) : Option (ℕ × Shard κ ν) :=
  match s.links.tail with
  | none => some (kEmpty, s)
  | some tail => do
    let e := s.entries tail
    let slot ← s.findSlot fuel e.key (hash e.key)
    if slot ≠ kEmpty then
      let s' := { s with currentBytes := sub64 s.currentBytes (byteSize size e.value) }.setIdx slot kTombstone
      return ((s.buckets slot).idx, { s' with links := s'.links.remove tail })
    else return (kEmpty, { s with links := s.links.remove tail })

/-- `Get_nolock`. -/
def get (s : Shard κ ν) (fuel : ℕ) (key : κ) : Option (Option ν × Shard κ ν) := do
  let slot ← s.findSlot fuel key (hash key)
  if slot = kEmpty then return (none, s)
  else
    let e := (s.buckets slot).idx
    return ((s.entries e).value, s.touch e)

/-- The eviction loop of `Put_nolock`: the index to fill (`kEmpty` if nothing was evicted), or nothing where
`Put_nolock` returns. -/
def makeRoom (fuel newBytes : ℕ) : ℕ → ℕ → Shard κ ν → Option (Option ℕ × Shard κ ν)
  | 0, _, _ => none
  | rounds + 1, idx, s =>
    if s.maxEntries ≤ s.entryCount ∨ s.maxBytes < (s.currentBytes + newBytes) % 2 ^ 64 then do
      let (evicted, s') ← s.evict size hash fuel
      if evicted = kEmpty then return (none, s')
      else makeRoom fuel newBytes rounds evicted { s' with entryCount := sub64 s'.entryCount 1 }
    else return (some idx, s)

/-- The insertion loop of `Put_nolock`: the first slot that is empty or a tombstone. -/
def freeSlotFrom (s : Shard κ ν) : ℕ → ℕ → ℕ → Option ℕ
  | 0, _, _ => none
  | fuel + 1, i, steps =>
    if (s.buckets i).Live then
      -- behind the last bucket: INSERT STUCK
      if s.bucketCount < (steps + 1) % 2 ^ 32 then none
      else s.freeSlotFrom fuel (nextSlot s.mask i) ((steps + 1) % 2 ^ 32)
    else some i

/-- `Put_nolock` behind the eviction loop. -/
def insert (s : Shard κ ν) (fuel idx : ℕ) (key : κ) (val : Option ν) : Option (Shard κ ν) := do
  let s ← if s.bucketCount ≤ s.entryCount * 2 % 2 ^ 64 then s.rehash fuel else some s
  let idx := if idx = kEmpty then s.entryCount % 2 ^ 32 else idx
  let s := { s with
    entryCount := (s.entryCount + 1) % 2 ^ 64
    entries := Function.update s.entries idx ⟨key, val⟩
    links := s.links.setCell idx none none }
  let slot ← s.freeSlotFrom fuel (hash key &&& s.mask) 0
  return { s with
    buckets := Function.update s.buckets slot ⟨hash key, idx⟩
    links := s.links.pushFront idx
    currentBytes := (s.currentBytes + byteSize size val) % 2 ^ 64 }

/-- `Put_nolock`. -/
def put (s : Shard κ ν) (fuel : ℕ) (key : κ) (val : Option ν) : Option (Shard κ ν) := do
  let slot ← s.findSlot fuel key (hash key)
  let newBytes := byteSize size val
  if slot ≠ kEmpty then
    let e := (s.buckets slot).idx
    let s' := { s with
      currentBytes := (sub64 s.currentBytes (byteSize size (s.entries e).value) + newBytes) % 2 ^ 64
      entries := Function.update s.entries e { s.entries e with value := val } }
    return s'.touch e
  else
    let (idx, s') ← s.makeRoom size hash fuel newBytes fuel kEmpty
    match idx with
    | none => return s'
    | some idx => s'.insert size hash fuel idx key val

/-- `Clear_nolock`. -/
def clear (s : Shard κ ν) : Shard κ ν :=
  { s with
    entryCount := 0
    currentBytes := 0
    links := { s.links with head := none, tail := none }
    buckets := fun _ => {} }

/-- `EraseIf_nolock`, the entry `i` is erased: its bucket becomes a tombstone and it leaves the list. -/
def dropEntry (s : Shard κ ν) (fuel i : ℕ) : Option (Shard κ ν) := do
  let e := s.entries i
  let slot ← s.findSlot fuel e.key (hash e.key)
  let s' := if slot ≠ kEmpty then s.setIdx slot kTombstone else s
  return { s' with
    currentBytes := sub64 s.currentBytes (byteSize size e.value)
    links := s.links.remove i }

/-- `EraseIf_nolock`, the last entry is moved into the place `i`. -/
def moveLast (s : Shard κ ν) (fuel i lastIdx : ℕ) : Option (Shard κ ν) := do
  let last := s.entries lastIdx
  let ls ← s.findSlot fuel last.key (hash last.key)
  let s' := if ls ≠ kEmpty then s.setIdx ls (i % 2 ^ 32) else s
  return { s' with
    links := s.links.rename lastIdx i
    entries := Function.update (Function.update s.entries i last) lastIdx { last with value := none } }

/-- A round of `EraseIf_nolock` for an entry that satisfies the predicate. -/
def eraseAt (s : Shard κ ν) (fuel i : ℕ) : Option (Shard κ ν) := do
  let s' ← s.dropEntry size hash fuel i
  let lastIdx := s.entryCount - 1
  let s'' ← if i ≠ lastIdx then s'.moveLast hash fuel i lastIdx else some s'
  return { s'' with entryCount := lastIdx }

/-- The loop of `EraseIf_nolock` from index `i`. -/
def eraseIfFrom (fuel : ℕ) (pred : κ → Bool) : ℕ → ℕ → Shard κ ν → Option (Shard κ ν)
  | 0, _, _ => none
  | rounds + 1, i, s =>
    if i < s.entryCount then
      if pred (s.entries i).key then do
        let s' ← s.eraseAt size hash fuel i
        eraseIfFrom fuel pred rounds i s'
      else eraseIfFrom fuel pred rounds (i + 1) s
    else some s

/-- `EraseIf_nolock`. -/
def eraseIf (s : Shard κ ν) (fuel : ℕ) (pred : κ → Bool) : Option (Shard κ ν) :=
  eraseIfFrom size hash fuel pred fuel 0 s

end Shard

/-- The calls of a shard; a value that is put is not null. -/
inductive Call (κ ν : Type) where
  | get (key : κ)
  | put (key : κ) (val : ν)
  | eraseIf (pred : κ → Bool)
  | clear

variable {κ ν : Type} [DecidableEq κ] (size : ℕ) (hash : κ → ℕ)

/-- One call: what it returns (nothing but for `Get`) and the shard behind it. -/
def Shard.call (fuel : ℕ) (s : Shard κ ν) : Call κ ν → Option (Option ν × Shard κ ν)
  | .get key => s.get hash fuel key
  | .put key val => (s.put size hash fuel key (some val)).map fun s' => (none, s')
  | .eraseIf pred => (s.eraseIf size hash fuel pred).map fun s' => (none, s')
  | .clear => some (none, s.clear)

/-- The results of the calls, one after another. -/
def Shard.run (fuel : ℕ) : Shard κ ν → List (Call κ ν) → Option (List (Option ν))
  | _, [] => some []
  | s, c :: calls => do
    let (result, s') ← s.call size hash fuel c
    let results ← Shard.run fuel s' calls
    return result :: results

end Kvdb.FlatCache
