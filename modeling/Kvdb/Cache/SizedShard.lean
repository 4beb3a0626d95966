import Kvdb.Cache.ExactLru
import Kvdb.Lib.Runs

/-! # A shard whose values have sizes of their own

The metadata map of `SSTableCache` gives `FlatCache` a size function. To make room for a value several entries may then
have to go, and `Invalidate` erases single keys. The next free slot is taken to be `entry_count` all the same: that is so
only as long as no entry has left a hole in front of it. A shard in which every slot taken is free behaves as an LRU map
that keeps both bounds. -/
namespace Kvdb.FlatCache
set_option autoImplicit false

open Kvdb.Runs

/-- The calls of a shard of the metadata map; a value that is put is not null. -/
inductive SizedCall (κ ν : Type) where
  | get (key : κ)
  | put (key : κ) (val : ν)
  | erase (key : κ)

namespace Sized

section Calls

variable {κ ν : Type} [DecidableEq κ] (size : ν → ℕ) (hash : κ → ℕ)

/-- `ByteSize` for a value type with a size function. -/
def byteSize : Option ν → ℕ
  | none => 0
  | some v => size v

/-- `Evict_nolock`: the index of the entry that was freed. -/
def evict (s : Shard κ ν) (fuel : ℕ) : Option (ℕ × Shard κ ν) :=
  match s.links.tail with
  | none => some (kEmpty, s)
  | some tail => do
    let e := s.entries tail
    let slot ← s.findSlot fuel e.key (hash e.key)
    if slot ≠ kEmpty then
      let s' := { s with currentBytes := sub64 s.currentBytes (byteSize size e.value) }.setIdx slot kTombstone
      return ((s.buckets slot).idx, { s' with links := s'.links.remove tail })
    else return (kEmpty, { s with links := s.links.remove tail })

/-- The eviction loop of `Put_nolock`. -/
def makeRoom (fuel newBytes : ℕ) : ℕ → ℕ → Shard κ ν → Option (Option ℕ × Shard κ ν)
  | 0, _, _ => none
  | rounds + 1, idx, s =>
    if s.maxEntries ≤ s.entryCount ∨ s.maxBytes < (s.currentBytes + newBytes) % 2 ^ 64 then do
      let (evicted, s') ← evict size hash s fuel
      if evicted = kEmpty then return (none, s')
      else makeRoom fuel newBytes rounds evicted { s' with entryCount := sub64 s'.entryCount 1 }
    else return (some idx, s)

/-- `Put_nolock` behind the eviction loop. -/
def insert (s : Shard κ ν) (fuel idx : ℕ) (key : κ) (val : Option ν) : Option (Shard κ ν) := do
  let s ← if s.bucketCount ≤ s.entryCount * 2 % 2 ^ 64 then s.rehash fuel else some s
  let idx := if idx = kEmpty then s.entryCount % 2 ^ 32 else idx
  let s := { s with
    entryCount := (s.entryCount + 1) % 2 ^ 64
    entries := Function.update s.entries idx ⟨key, val⟩
    links := s.links.setCell idx none none }
  let slot ← s.freeSlotFrom fuel (hash key &&& s.mask) 0
  return { s with
    buckets := Function.update s.buckets slot ⟨hash key, idx⟩
    links := s.links.pushFront idx
    currentBytes := (s.currentBytes + byteSize size val) % 2 ^ 64 }

/-- `Put_nolock`. -/
def put (s : Shard κ ν) (fuel : ℕ) (key : κ) (val : Option ν) : Option (Shard κ ν) := do
  let slot ← s.findSlot fuel key (hash key)
  let newBytes := byteSize size val
  if slot ≠ kEmpty then
    let e := (s.buckets slot).idx
    let s' := { s with
      currentBytes := (sub64 s.currentBytes (byteSize size (s.entries e).value) + newBytes) % 2 ^ 64
      entries := Function.update s.entries e { s.entries e with value := val } }
    return s'.touch e
  else
    let (idx, s') ← makeRoom size hash fuel newBytes fuel kEmpty s
    match idx with
    | none => return s'
    | some idx => insert size hash s' fuel idx key val

/-- `Erase_nolock`: the bucket becomes a tombstone and the entry leaves the list; `entry_count` stays as it is. -/
def erase (s : Shard κ ν) (fuel : ℕ) (key : κ) : Option (Shard κ ν) := do
  let slot ← s.findSlot fuel key (hash key)
  if slot = kEmpty then return s
  else
    let e := (s.buckets slot).idx
    return { s.setIdx slot kTombstone with
      currentBytes := sub64 s.currentBytes (byteSize size (s.entries e).value)
      links := s.links.remove e }

/-- The shard behind a call. -/
def step (fuel : ℕ) (s : Shard κ ν) : SizedCall κ ν → Option (Shard κ ν)
  | .get key => (s.get hash fuel key).map Prod.snd
  | .put key val => put size hash s fuel key (some val)
  | .erase key => erase size hash s fuel key

/-- The value that `Get` finds. -/
def held (fuel : ℕ) (s : Shard κ ν) (key : κ) : Option ν := (s.get hash fuel key).bind Prod.fst

/-- What `Put` of a value relies on, with the value that the shard holds for the key: a value put in the place of another
keeps the bytes within their bound; a new one does not take the sum of the bytes over 2^64, and where it goes in without an
eviction no bucket refers to the slot `entry_count`. -/
def PutSound (s : Shard κ ν) (val : ν) : Option ν → Prop
  | some old => s.currentBytes - size old + size val ≤ s.maxBytes
  | none => s.currentBytes + size val < 2 ^ 64 ∧
    (s.entryCount < s.maxEntries → s.currentBytes + size val ≤ s.maxBytes →
      ∀ b < s.bucketCount, (s.buckets b).idx ≠ s.entryCount)

/-- `Put` is sound and `Erase` finds nothing to erase. -/
def Regular (fuel : ℕ) (s : Shard κ ν) : SizedCall κ ν → Prop
  | .get _ => True
  | .put key val => PutSound size s val (held hash fuel s key)
  | .erase key => held hash fuel s key = none

instance decidablePutSound (s : Shard κ ν) (val : ν) : ∀ old, Decidable (PutSound size s val old)
  | some old => inferInstanceAs (Decidable (s.currentBytes - size old + size val ≤ s.maxBytes))
  | none => inferInstanceAs (Decidable (s.currentBytes + size val < 2 ^ 64 ∧
      (s.entryCount < s.maxEntries → s.currentBytes + size val ≤ s.maxBytes →
        ∀ b < s.bucketCount, (s.buckets b).idx ≠ s.entryCount)))

instance decidableRegular (fuel : ℕ) (s : Shard κ ν) : ∀ c, Decidable (Regular size hash fuel s c)
  | .get _ => isTrue trivial
  | .put key val => inferInstanceAs (Decidable (PutSound size s val (held hash fuel s key)))
  | .erase key => inferInstanceAs (Decidable (held hash fuel s key = none))

end Calls

/-! ## The LRU map -/

section Abstract

variable {κ ν : Type} [DecidableEq κ] (size : ν → ℕ) (maxEntries maxBytes : ℕ)

/-- A call to an LRU map that keeps both bounds. -/
def lruStep (items : List (κ × ν)) : SizedCall κ ν → List (κ × ν)
  | .get key => Lru.touch items key
  | .put key val => Lru.putWithin size maxEntries maxBytes items key val
  | .erase key => Lru.others items key

/-- The pairs behind the calls. -/
def lruItems (calls : List (SizedCall κ ν)) : List (κ × ν) := calls.foldl (lruStep size maxEntries maxBytes) []

end Abstract

/-- What a shard is for, in the state `s` behind `calls`: it is the LRU map of both bounds. -/
structure IsBoundedLru {κ ν : Type} [DecidableEq κ] (size : ν → ℕ) (hash : κ → ℕ) (maxEntries maxBytes fuel : ℕ)
    (calls : List (SizedCall κ ν)) (s : Shard κ ν) : Prop where
  gets : ∀ key, ∃ s', s.get hash fuel key = some (Lru.lookup (lruItems size maxEntries maxBytes calls) key, s')
  keys : ((lruItems size maxEntries maxBytes calls).map Prod.fst).Nodup
  count : s.entryCount = (lruItems size maxEntries maxBytes calls).length
  bytes : s.currentBytes = Lru.weigh size (lruItems size maxEntries maxBytes calls)
  within : s.entryCount ≤ maxEntries ∧ s.currentBytes ≤ maxBytes
  readable : ∀ before key val, calls = before ++ [.put key val] → size val ≤ maxBytes →
    held hash fuel s key = some val
  undisturbed : ∀ before key val, calls = before ++ [.put key val] →
    ∃ front, front <+: Lru.others (lruItems size maxEntries maxBytes before) key ∧
      ∀ other, other ≠ key → held hash fuel s other = Lru.lookup front other

/-! ## The size function of the block map -/

section Constant

variable {κ ν : Type} [DecidableEq κ] (n : ℕ) (hash : κ → ℕ)

theorem byteSize_const : byteSize (fun _ : ν => n) = Shard.byteSize n := by
  funext v
  cases v <;> rfl

theorem makeRoom_const (fuel newBytes rounds idx : ℕ) (s : Shard κ ν) :
    makeRoom (fun _ => n) hash fuel newBytes rounds idx s = s.makeRoom n hash fuel newBytes rounds idx := by
  have hevict : ∀ s : Shard κ ν, evict (fun _ => n) hash s fuel = s.evict n hash fuel := by
    intro s
    unfold evict Shard.evict
    exact byteSize_const (ν := ν) n ▸ rfl
  induction rounds generalizing idx s with
  | zero => rfl
  | succ rounds ih =>
    simp only [makeRoom, Shard.makeRoom, hevict, ih]

/-- Where every value has the same size, `Put` is that of the block map. -/
theorem put_const (s : Shard κ ν) (fuel : ℕ) (key : κ) (val : Option ν) :
    put (fun _ => n) hash s fuel key val = s.put n hash fuel key val := by
  have hinsert : ∀ (s : Shard κ ν) (idx : ℕ), insert (fun _ => n) hash s fuel idx key val =
      s.insert n hash fuel idx key val := by
    intro s idx
    unfold insert Shard.insert
    exact byteSize_const (ν := ν) n ▸ rfl
  simp only [put, makeRoom_const, hinsert]
  unfold Shard.put
  exact byteSize_const (ν := ν) n ▸ rfl

end Constant

/-! ## The shard holds what the LRU map holds -/

/-- The bounds of a shard, with the number of its buckets. -/
structure Bounds where
  maxEntries : ℕ
  maxBytes : ℕ
  bucketCount : ℕ
  entries_pos : 1 ≤ maxEntries
  bytes_lt : maxBytes < 2 ^ 64
  room : maxEntries * 2 ≤ bucketCount

section Holds

variable {κ ν : Type}

/-- The shard holds `items`, in the entries of `order`, within the bounds. -/
structure Keeps (c : Bounds) (size : ν → ℕ) (hash : κ → ℕ) (s : Shard κ ν) (order : List ℕ) (items : List (κ × ν)) : Prop
    extends Shard.Lists hash s order items where
  bucketCount : s.bucketCount = c.bucketCount
  maxEntries : s.maxEntries = c.maxEntries
  maxBytes : s.maxBytes = c.maxBytes
  count : s.entryCount = order.length
  bytes : s.currentBytes = Lru.weigh size items
  within : Lru.Within size c.maxEntries c.maxBytes items
  inside : ∀ i ∈ order, i < c.maxEntries

variable {c : Bounds} {size : ν → ℕ} {hash : κ → ℕ} {s : Shard κ ν} {order : List ℕ} {items : List (κ × ν)}
  {i idx fuel rounds : ℕ} {key : κ} {val : ν}

namespace Keeps

theorem entries_le (h : Keeps c size hash s order items) : order.length ≤ c.maxEntries := by
  rw [h.length_eq]
  exact h.within.1

theorem bucketCount_le (h : Keeps c size hash s order items) : c.bucketCount ≤ 2 ^ 31 := by
  rw [← h.bucketCount]
  exact h.finds.count_le

/-- The eviction loop goes on exactly where the new pair does not fit beside the others. -/
theorem full_iff (h : Keeps c size hash s order items) (hno : s.currentBytes + size val < 2 ^ 64) :
    (s.maxEntries ≤ s.entryCount ∨ s.maxBytes < (s.currentBytes + size val) % 2 ^ 64) ↔
      ¬ Lru.Within size c.maxEntries c.maxBytes ((key, val) :: items) := by
  have hweigh : Lru.weigh size ((key, val) :: items) = size val + s.currentBytes := by
    rw [h.bytes]
    rfl
  rw [Lru.Within, hweigh, h.maxEntries, h.maxBytes, h.count, h.length_eq, Nat.mod_eq_of_lt hno, List.length_cons]
  omega

/-- A new entry at a free index. -/
theorem insert (h : Keeps c size hash s order items)
    (hwithin : Lru.Within size c.maxEntries c.maxBytes ((key, val) :: items))
    (hnew : ∀ j ∈ order, (s.entries j).key ≠ key) (hidx : i = if idx = kEmpty then order.length else idx)
    (hfresh : i ∉ order) (hinside : i < c.maxEntries) (hfuel : c.bucketCount < fuel) :
    ∃ s', insert size hash s fuel idx key (some val) = some s' ∧
      Keeps c size hash s' (i :: order) ((key, val) :: items) := by
  have hroom := c.room
  have hbuckets := h.bucketCount_le
  have htomb : kTombstone = 2 ^ 32 - 2 := rfl
  have hlength : order.length < c.maxEntries := by
    have hle := hwithin.1
    rw [List.length_cons, ← h.length_eq] at hle
    exact hle
  have hweigh : Lru.weigh size ((key, val) :: items) = s.currentBytes + size val := by
    rw [h.bytes, Nat.add_comm]
    rfl
  have hcalm : ¬ s.bucketCount ≤ s.entryCount * 2 % 2 ^ 64 := by
    rw [h.bucketCount, h.count, Nat.mod_eq_of_lt (by omega)]
    omega
  have hplace : (if idx = kEmpty then s.entryCount % 2 ^ 32 else idx) = i := by
    rw [hidx, h.count, Nat.mod_eq_of_lt (by omega)]
  let s₁ : Shard κ ν := { s with
    entryCount := (s.entryCount + 1) % 2 ^ 64
    entries := Function.update s.entries i ⟨key, some val⟩
    links := s.links.setCell i none none }
  have hcrowd : order.length < s.bucketCount := by
    rw [h.bucketCount]
    omega
  have hrounds : s.bucketCount ≤ fuel := by
    rw [h.bucketCount]
    omega
  obtain ⟨slot, hslot, hlists⟩ :=
    h.toLists.inserted s₁ rfl rfl rfl rfl hcrowd hnew hfresh (by omega) hrounds
  have hsize : byteSize size (some val) = size val := rfl
  refine ⟨{ s₁ with
    buckets := Function.update s₁.buckets slot ⟨hash key, i⟩
    links := s₁.links.pushFront i
    currentBytes := (s₁.currentBytes + size val) % 2 ^ 64 }, ?_, ⟨hlists.finds, hlists.linked, hlists.pairs⟩,
    h.bucketCount, h.maxEntries, h.maxBytes, ?_, ?_, hwithin, ?_⟩
  · rw [Sized.insert, if_neg hcalm]
    simp only [Option.bind_eq_bind, Option.bind_some, hplace, hsize]
    rw [hslot]
    rfl
  · show (s.entryCount + 1) % 2 ^ 64 = _
    rw [h.count, Nat.mod_eq_of_lt (by omega)]
    rfl
  · show (s.currentBytes + size val) % 2 ^ 64 = _
    have hle := hwithin.2
    have hlt := c.bytes_lt
    rw [hweigh] at hle ⊢
    exact Nat.mod_eq_of_lt (by omega)
  · intro j hj
    rcases List.mem_cons.mp hj with rfl | hj
    · exact hinside
    · exact h.inside j hj

variable [DecidableEq κ]

/-- The value of an entry, and what the others weigh. -/
theorem weigh_others (h : Keeps c size hash s order items) (hi : i ∈ order) :
    ∃ old, (s.entries i).value = some old ∧ Lru.lookup items (s.entries i).key = some old ∧
      s.currentBytes = size old + Lru.weigh size (Lru.others items (s.entries i).key) ∧
      order.length = (Lru.others items (s.entries i).key).length + 1 := by
  obtain ⟨as, bs, rfl⟩ := List.append_of_mem hi
  have hlen := h.length_eq
  obtain ⟨xs, ys, old, rfl, hentry, -, -, hxs, hys⟩ := h.split
  refine ⟨old, congrArg Entry.value hentry, Lru.lookup_middle hxs, ?_, ?_⟩
  · rw [h.bytes, Lru.weigh_middle hxs hys]
  · rw [hlen, Lru.others_middle hxs hys]
    simp [Nat.add_assoc]

theorem get (h : Keeps c size hash s order items) (hfuel : c.bucketCount < fuel) (key : κ) :
    ∃ s' order', s.get hash fuel key = some (Lru.lookup items key, s') ∧
      Keeps c size hash s' order' (Lru.touch items key) := by
  obtain ⟨links, order', hget, hperm, hlists⟩ := h.toLists.get (h.bucketCount ▸ hfuel) key
  have hlen : (Lru.touch items key).length = items.length := by
    rw [← hlists.length_eq, hperm.length_eq, h.length_eq]
  have hweigh : Lru.weigh size (Lru.touch items key) = Lru.weigh size items := by
    have hentries : ∀ {as : List ℕ} {xs : List (κ × ν)}, as.map s.entries = xs.map Shard.entryOf →
        Lru.weigh size xs = (as.map fun i => byteSize size (s.entries i).value).sum := by
      intro as xs heq
      have hsizes := congrArg (List.map fun e : Entry κ ν => byteSize size e.value) heq
      rw [List.map_map, List.map_map] at hsizes
      exact (congrArg List.sum hsizes).symm
    rw [hentries hlists.pairs, hentries h.pairs, (hperm.map _).sum_eq]
  refine ⟨_, order', hget, hlists, h.bucketCount, h.maxEntries, h.maxBytes, ?_, ?_, ?_, ?_⟩
  · rw [hperm.length_eq]
    exact h.count
  · rw [hweigh]
    exact h.bytes
  · rw [Lru.Within, hlen, hweigh]
    exact h.within
  · exact fun i hi => h.inside i (hperm.mem_iff.mp hi)

theorem held_eq (h : Keeps c size hash s order items) (hfuel : c.bucketCount < fuel) (key : κ) :
    held hash fuel s key = Lru.lookup items key := by
  obtain ⟨s', -, hget, -⟩ := h.get hfuel key
  rw [held, hget]
  rfl

/-- The entry at the tail is evicted. -/
theorem evict {as : List ℕ} (h : Keeps c size hash s (as ++ [i]) items) (hfuel : c.bucketCount < fuel) :
    ∃ s', evict size hash s fuel = some (i, s') ∧ s'.currentBytes ≤ s.currentBytes ∧
      Keeps c size hash { s' with entryCount := sub64 s'.entryCount 1 } as items.dropLast := by
  have hi : i ∈ as ++ [i] := List.mem_append_right _ (List.mem_singleton_self i)
  obtain ⟨b, hb, hne, hfind, hidx⟩ := h.found hi (h.bucketCount ▸ hfuel)
  obtain ⟨old, hvalue, -, hbytes, hcount⟩ := h.weigh_others hi
  have hlists := h.dropped hb hidx
  rw [List.append_nil, h.others_tail] at hlists
  rw [h.others_tail] at hbytes hcount
  have htail : s.links.tail = some i := by
    rw [h.linked.tail, List.getLast?_concat]
  have hlt : s.currentBytes < 2 ^ 64 := by
    rw [h.bytes]
    exact Nat.lt_of_le_of_lt h.within.2 c.bytes_lt
  have hsub : sub64 s.currentBytes (size old) = Lru.weigh size items.dropLast := by
    rw [sub64_of_le hlt (by omega), hbytes, Nat.add_sub_cancel_left]
  have hsize : byteSize size (some old) = size old := rfl
  refine ⟨{ { s with currentBytes := sub64 s.currentBytes (size old) }.setIdx b kTombstone with
    links := s.links.remove i }, ?_, ?_, ⟨hlists.finds, hlists.linked, hlists.pairs⟩, h.bucketCount, h.maxEntries,
    h.maxBytes, ?_, hsub, ?_, ?_⟩
  · simp only [Sized.evict, htail, hfind, hvalue, hsize, Option.bind_eq_bind, Option.bind_some, ne_eq, hne,
      not_false_eq_true, if_true, hidx]
    rfl
  · show sub64 s.currentBytes (size old) ≤ s.currentBytes
    rw [hsub, hbytes]
    exact Nat.le_add_left _ _
  · show sub64 s.entryCount 1 = as.length
    have hle := h.entries_le
    have hroom := c.room
    have hbuckets := h.bucketCount_le
    have hlen : (as ++ [i]).length = as.length + 1 := by simp
    rw [h.count, hlen, sub64_of_le (by omega) (by omega), Nat.add_sub_cancel]
  · have hwithin := h.within
    refine ⟨?_, ?_⟩
    · rw [List.length_dropLast]
      exact Nat.le_trans (Nat.sub_le _ _) hwithin.1
    · have hle := hwithin.2
      rw [← h.bytes] at hle
      omega
  · exact fun j hj => h.inside j (List.mem_append_left _ hj)

variable (key) in
/-- Entries are evicted from the tail until the new pair fits; if it does not fit into an empty shard, all of them are. -/
theorem makeRoom (h : Keeps c size hash s order items) (hno : s.currentBytes + size val < 2 ^ 64)
    (hfuel : c.bucketCount < fuel) (hrounds : order.length < rounds) (hidx : idx ∉ order) :
    ∃ s' order' items', Keeps c size hash s' order' items' ∧ order' <+: order ∧ items' <+: items ∧
      ((∃ idx', makeRoom size hash fuel (size val) rounds idx s = some (some idx', s') ∧
          Lru.trim (Lru.Within size c.maxEntries c.maxBytes) ((key, val) :: items) = (key, val) :: items' ∧
          Lru.Within size c.maxEntries c.maxBytes ((key, val) :: items') ∧ idx' ∉ order' ∧
          (idx' = idx ∧ s' = s ∨ idx' ∈ order)) ∨
        makeRoom size hash fuel (size val) rounds idx s = some (none, s') ∧ items' = [] ∧
          Lru.trim (Lru.Within size c.maxEntries c.maxBytes) ((key, val) :: items) = []) := by
  induction rounds generalizing s order items idx with
  | zero => exact absurd hrounds (Nat.not_lt_zero _)
  | succ rounds ih =>
    rw [Sized.makeRoom]
    by_cases hfits : Lru.Within size c.maxEntries c.maxBytes ((key, val) :: items)
    · rw [if_neg (fun hfull => (h.full_iff hno).mp hfull hfits)]
      exact ⟨s, order, items, h, List.prefix_refl _, List.prefix_refl _,
        .inl ⟨idx, rfl, Lru.trim_of_fits hfits, hfits, hidx, .inl ⟨rfl, rfl⟩⟩⟩
    rw [if_pos ((h.full_iff hno).mpr hfits)]
    obtain rfl | ⟨as, i, rfl⟩ := List.eq_nil_or_concat' order
    · obtain rfl : items = [] := List.eq_nil_of_length_eq_zero h.length_eq.symm
      have htail : s.links.tail = none := h.linked.tail
      refine ⟨s, [], [], h, List.prefix_refl _, List.prefix_refl _, .inr ⟨?_, rfl, ?_⟩⟩
      · rw [Sized.evict, htail]
        rfl
      · have hdrop : Lru.trim (Lru.Within size c.maxEntries c.maxBytes) ([] ++ [(key, val)]) =
            Lru.trim (Lru.Within size c.maxEntries c.maxBytes) [] := Lru.trim_concat hfits
        exact hdrop.trans Lru.trim_nil
    · obtain ⟨s', hevict, hle, hkeeps⟩ := h.evict hfuel
      have hne : items ≠ [] := by
        rintro rfl
        have hlen := h.length_eq
        simp at hlen
      have hsmall := h.finds.small i (List.mem_append_right _ (List.mem_singleton_self i))
      have htomb : kTombstone < kEmpty := by decide
      have hfresh : i ∉ as := fun hmem =>
        (List.nodup_cons.mp (List.nodup_middle.mp h.linked.nodup)).1 (List.mem_append_left [] hmem)
      have hlen : (as ++ [i]).length = as.length + 1 := by simp
      -- the last pair goes, and the search for the front goes on without it
      have htrim : Lru.trim (Lru.Within size c.maxEntries c.maxBytes) ((key, val) :: items) =
          Lru.trim (Lru.Within size c.maxEntries c.maxBytes) ((key, val) :: items.dropLast) := by
        have hitems : (key, val) :: items = ((key, val) :: items.dropLast) ++ [items.getLast hne] :=
          congrArg _ (List.dropLast_concat_getLast hne).symm
        rw [hitems] at hfits ⊢
        exact Lru.trim_concat hfits
      obtain ⟨s'', order', items', hkeeps', horder, hitems', hcases⟩ :=
        ih hkeeps (Nat.lt_of_le_of_lt (Nat.add_le_add_right hle _) hno) (by omega) hfresh
      rw [hevict, htrim]
      simp only [Option.bind_eq_bind, Option.bind_some]
      rw [if_neg (by omega)]
      refine ⟨s'', order', items', hkeeps', horder.trans (List.prefix_append as [i]),
        hitems'.trans (List.dropLast_prefix items), ?_⟩
      rcases hcases with ⟨idx', hmake, htrim', hwithin, hidx', hwhere⟩ | hnone
      · refine .inl ⟨idx', hmake, htrim', hwithin, hidx', .inr ?_⟩
        rcases hwhere with ⟨rfl, -⟩ | hmem
        · exact List.mem_append_right _ (List.mem_singleton_self _)
        · exact List.mem_append_left _ hmem
      · exact .inr hnone

/-- A key that is not held: `Put_nolock` makes room and inserts, or drops everything for a value that never fits. -/
theorem put_miss (h : Keeps c size hash s order items) (hfuel : c.bucketCount < fuel)
    (hmiss : ∀ i ∈ order, (s.entries i).key ≠ key) (hok : PutSound size s val none) :
    ∃ s' order', put size hash s fuel key (some val) = some s' ∧
      Keeps c size hash s' order' (Lru.putWithin size c.maxEntries c.maxBytes items key val) := by
  have hroom := c.room
  have hpos := c.entries_pos
  have hentries := h.entries_le
  have hbuckets := h.bucketCount_le
  have htomb : kTombstone = 2 ^ 32 - 2 := rfl
  have hempty : kEmpty = 2 ^ 32 - 1 := rfl
  have hnone : kEmpty ∉ order := fun hmem => by
    have := h.finds.small kEmpty hmem
    omega
  have habsent := h.absent hmiss
  have hsize : byteSize size (some val) = size val := rfl
  have hput : put size hash s fuel key (some val) =
      (Sized.makeRoom size hash fuel (size val) fuel kEmpty s).bind fun r =>
        r.1.elim (some r.2) fun idx => Sized.insert size hash r.2 fuel idx key (some val) := by
    rw [put, h.finds.missed hmiss (h.bucketCount ▸ hfuel)]
    simp only [Option.bind_eq_bind, Option.bind_some, hsize, ne_eq, not_true_eq_false, if_false]
    refine Option.bind_congr fun r _ => ?_
    obtain ⟨room, s'⟩ := r
    cases room with
    | none => rfl
    | some idx => rfl
  obtain ⟨s', order', items', hkeeps, horder, hitems, hcases⟩ :=
    h.makeRoom key hok.1 hfuel (show order.length < fuel by omega) hnone
  rw [hput, Lru.putWithin, Lru.others_absent habsent]
  rcases hcases with ⟨idx, hmake, htrim, hwithin, hidx, hwhere⟩ | ⟨hmake, rfl, htrim⟩
  · have hmiss' : ∀ j ∈ order', (s'.entries j).key ≠ key :=
      (Shard.Lists.key_iff hkeeps.pairs (· ≠ key)).mp fun item hitem => habsent item (hitems.subset hitem)
    rw [hmake, htrim]
    rcases hwhere with ⟨rfl, rfl⟩ | hmem
    · -- nothing was evicted: the slot `entry_count` is free by assumption
      have hfresh : order'.length ∉ order' := by
        intro hmem
        obtain ⟨t, -, hbucket, -⟩ := hkeeps.finds.reach _ hmem
        have hcount := hwithin.1
        have hbytes := hwithin.2
        have hweigh : Lru.weigh size ((key, val) :: items') = s'.currentBytes + size val := by
          rw [hkeeps.bytes, Nat.add_comm]
          rfl
        rw [List.length_cons, ← hkeeps.length_eq, ← hkeeps.count, ← hkeeps.maxEntries] at hcount
        rw [hweigh, ← hkeeps.maxBytes] at hbytes
        refine hok.2 hcount hbytes _ (Nat.mod_lt _ hkeeps.finds.pos) (hbucket.trans hkeeps.count.symm)
      have hinside : order'.length < c.maxEntries := by
        have hcount := hwithin.1
        rw [List.length_cons, ← hkeeps.length_eq] at hcount
        exact hcount
      obtain ⟨s'', hinsert, hkeeps'⟩ := hkeeps.insert hwithin hmiss' (if_pos rfl).symm hfresh hinside hfuel
      exact ⟨s'', _, hinsert, hkeeps'⟩
    · have hsmall := h.finds.small idx hmem
      obtain ⟨s'', hinsert, hkeeps'⟩ :=
        hkeeps.insert hwithin hmiss' (if_neg (by omega)).symm hidx (h.inside idx hmem) hfuel
      exact ⟨s'', _, hinsert, hkeeps'⟩
  · rw [hmake, htrim]
    exact ⟨s', order', rfl, hkeeps⟩

/-- A key that is held: its value is replaced, and the entry becomes the one used last. -/
theorem put_hit (h : Keeps c size hash s order items) (hfuel : c.bucketCount < fuel) (hi : i ∈ order) {old : ν}
    (hold : Lru.lookup items (s.entries i).key = some old) (hok : PutSound size s val (some old)) :
    ∃ s' order', put size hash s fuel (s.entries i).key (some val) = some s' ∧
      Keeps c size hash s' order' (Lru.putWithin size c.maxEntries c.maxBytes items (s.entries i).key val) := by
  obtain ⟨b, -, hne, hfind, hidx⟩ := h.found hi (h.bucketCount ▸ hfuel)
  obtain ⟨old', hvalue, hlookup, hbytes, hcount⟩ := h.weigh_others hi
  obtain rfl : old' = old := Option.some.inj (hlookup.symm.trans hold)
  obtain ⟨order', hperm, hlists⟩ := h.touched hi val
  have hlt : s.currentBytes < 2 ^ 64 := by
    rw [h.bytes]
    exact Nat.lt_of_le_of_lt h.within.2 c.bytes_lt
  have hweigh : Lru.weigh size (((s.entries i).key, val) :: Lru.others items (s.entries i).key) =
      s.currentBytes - size old' + size val := by
    rw [hbytes, Nat.add_sub_cancel_left, Nat.add_comm]
    rfl
  have hsmall : s.currentBytes - size old' + size val ≤ c.maxBytes := by
    rw [← h.maxBytes]
    exact hok
  have hwithin : Lru.Within size c.maxEntries c.maxBytes
      (((s.entries i).key, val) :: Lru.others items (s.entries i).key) := by
    refine ⟨?_, ?_⟩
    · rw [List.length_cons, ← hcount]
      exact h.entries_le
    · rw [hweigh]
      exact hsmall
  have hsum : (sub64 s.currentBytes (size old') + size val) % 2 ^ 64 = s.currentBytes - size old' + size val := by
    have hmax := c.bytes_lt
    rw [sub64_of_le hlt (by omega), Nat.mod_eq_of_lt (by omega)]
  have hsize : ∀ v, byteSize size (some v) = size v := fun _ => rfl
  rw [Lru.putWithin, Lru.trim_of_fits hwithin]
  refine ⟨{ s with
    currentBytes := s.currentBytes - size old' + size val
    entries := Function.update s.entries i ⟨(s.entries i).key, some val⟩ }.touch i, order', ?_,
    ⟨hlists.finds, hlists.linked, hlists.pairs⟩, h.bucketCount, h.maxEntries, h.maxBytes, ?_, hweigh.symm, hwithin, ?_⟩
  · simp only [put, hfind, Option.bind_eq_bind, Option.bind_some, ne_eq, hne, not_false_eq_true, if_true, hidx, hvalue,
      hsize, hsum]
    rfl
  · rw [hperm.length_eq]
    exact h.count
  · exact fun j hj => h.inside j (hperm.mem_iff.mp hj)

/-- Every call that meets the condition returns, and the shard holds behind it what the LRU map holds. -/
theorem step (h : Keeps c size hash s order items) (hfuel : c.bucketCount < fuel) (call : SizedCall κ ν)
    (hok : Regular size hash fuel s call) :
    ∃ s' order', step size hash fuel s call = some s' ∧
      Keeps c size hash s' order' (lruStep size c.maxEntries c.maxBytes items call) := by
  cases call with
  | get key =>
    obtain ⟨s', order', hget, hkeeps⟩ := h.get hfuel key
    exact ⟨s', order', by rw [Sized.step, hget]; rfl, hkeeps⟩
  | put key val =>
    rw [Regular, h.held_eq hfuel] at hok
    by_cases hmem : ∃ i ∈ order, (s.entries i).key = key
    · obtain ⟨i, hi, rfl⟩ := hmem
      obtain ⟨old, -, hlookup, -⟩ := h.weigh_others hi
      rw [hlookup] at hok
      exact h.put_hit hfuel hi hlookup hok
    · push Not at hmem
      rw [Lru.lookup_absent (h.absent hmem)] at hok
      exact h.put_miss hfuel hmem hok
  | erase key =>
    rw [Regular, h.held_eq hfuel] at hok
    have hmiss : ∀ i ∈ order, (s.entries i).key ≠ key := by
      rintro i hi rfl
      obtain ⟨old, -, hlookup, -⟩ := h.weigh_others hi
      rw [hlookup] at hok
      cases hok
    refine ⟨s, order, ?_, ?_⟩
    · rw [Sized.step, erase, h.finds.missed hmiss (h.bucketCount ▸ hfuel)]
      rfl
    · rw [lruStep, Lru.others_absent (h.absent hmiss)]
      exact h

theorem isBoundedLru {calls : List (SizedCall κ ν)}
    (h : Keeps c size hash s order (lruItems size c.maxEntries c.maxBytes calls)) (hfuel : c.bucketCount < fuel) :
    IsBoundedLru size hash c.maxEntries c.maxBytes fuel calls s := by
  have hlast : ∀ (before : List (SizedCall κ ν)) call, calls = before ++ [call] →
      lruItems size c.maxEntries c.maxBytes calls =
        lruStep size c.maxEntries c.maxBytes (lruItems size c.maxEntries c.maxBytes before) call := by
    rintro before call rfl
    exact List.foldl_concat ..
  refine ⟨?_, ?_, ?_, h.bytes, ?_, ?_, ?_⟩
  · intro key
    obtain ⟨s', -, hget, -⟩ := h.get hfuel key
    exact ⟨s', hget⟩
  · have hkeys : (lruItems size c.maxEntries c.maxBytes calls).map Prod.fst = order.map fun i => (s.entries i).key := by
      have heq := congrArg (List.map Entry.key) h.pairs
      rw [List.map_map, List.map_map] at heq
      exact heq.symm
    rw [hkeys]
    exact h.linked.nodup.map_on fun i hi j hj heq => h.finds.keys i hi j hj heq
  · rw [h.count, h.length_eq]
  · rw [h.count, h.bytes]
    exact ⟨h.entries_le, h.within.2⟩
  · intro before key val heq hfits
    rw [h.held_eq hfuel, hlast before _ heq]
    exact Lru.putWithin_self c.entries_pos hfits
  · intro before key val heq
    obtain ⟨front, hfront, hothers⟩ := Lru.putWithin_others size c.maxEntries c.maxBytes
      (lruItems size c.maxEntries c.maxBytes before) key val
    refine ⟨front, hfront, fun other hne => ?_⟩
    rw [h.held_eq hfuel, hlast before _ heq]
    exact hothers other hne

end Keeps

theorem init_keeps [Inhabited κ] (size : ν → ℕ) (hash : κ → ℕ) {maxEntries maxBytes : ℕ} (hentries : 1 ≤ maxEntries)
    (hle : maxEntries ≤ 2 ^ 30) (hbytes : maxBytes < 2 ^ 64) :
    ∃ c : Bounds, c.maxEntries = maxEntries ∧ c.maxBytes = maxBytes ∧
      c.bucketCount = (Shard.init maxEntries maxBytes : Shard κ ν).bucketCount ∧
      Keeps c size hash (Shard.init maxEntries maxBytes : Shard κ ν) [] [] := by
  obtain ⟨k, hk, hn, hpow⟩ := Shard.bucketCount_spec (maxEntries * 2) (maxEntries * 2) 0 (by omega)
  have hk31 : k ≤ 31 := hpow (by omega) (by omega)
  let c : Bounds := ⟨maxEntries, maxBytes, 2 ^ k, hentries, hbytes, hn⟩
  refine ⟨c, rfl, rfl, hk.symm, ⟨Table.empty ⟨k, hk31, hk⟩, Linked.nil rfl rfl, rfl⟩, hk, rfl, rfl, rfl, rfl, ?_, ?_⟩
  · exact ⟨Nat.zero_le _, Nat.zero_le _⟩
  · exact fun _ hi => absurd hi List.not_mem_nil

end Holds

/-- For every size function, every hash function and every sequence of calls that meet the condition, a shard of at most 2^30
entries is the LRU map of both bounds, and every further call that meets it returns. -/
theorem sized_shard_is_lru {κ ν : Type} [DecidableEq κ] [Inhabited κ] (size : ν → ℕ) (hash : κ → ℕ)
    {maxEntries maxBytes fuel : ℕ} (hentries : 1 ≤ maxEntries) (hle : maxEntries ≤ 2 ^ 30) (hbytes : maxBytes < 2 ^ 64)
    (hfuel : (Shard.init maxEntries maxBytes : Shard κ ν).bucketCount < fuel) {calls : List (SizedCall κ ν)}
    {s : Shard κ ν}
    (h : Run (step size hash fuel) (Regular size hash fuel) (Shard.init maxEntries maxBytes) calls s) :
    IsBoundedLru size hash maxEntries maxBytes fuel calls s ∧
      ∀ call, Regular size hash fuel s call → (step size hash fuel s call).isSome = true := by
  obtain ⟨c, rfl, rfl, hcount, hinit⟩ := init_keeps (κ := κ) (ν := ν) size hash hentries hle hbytes
  rw [← hcount] at hfuel
  have hkeeps : ∃ order, Keeps c size hash s order (lruItems size c.maxEntries c.maxBytes calls) := by
    refine h.invariant_trace
      (I := fun calls s => ∃ order, Keeps c size hash s order (lruItems size c.maxEntries c.maxBytes calls)) ?_ ⟨[], hinit⟩
    rintro calls s call t hok hstep ⟨order, hs⟩
    obtain ⟨s', order', hstep', hs'⟩ := hs.step hfuel call hok
    obtain rfl : s' = t := Option.some.inj (hstep'.symm.trans hstep)
    refine ⟨order', ?_⟩
    rw [lruItems, List.foldl_concat]
    exact hs'
  obtain ⟨order, hs⟩ := hkeeps
  refine ⟨hs.isBoundedLru hfuel, fun call hok => ?_⟩
  obtain ⟨s', -, hstep, -⟩ := hs.step hfuel call hok
  rw [hstep]
  rfl

/-- Each value is its own size. The third is given a smaller one, and a larger fourth has the first evicted for it; a value
that never fits empties the shard. -/
def regularCalls : List (SizedCall ℕ ℕ) :=
  [.put 0 20, .put 1 30, .put 2 40, .put 2 30, .put 3 40, .get 1, .erase 0, .put 5 120, .put 6 90]

theorem regularCalls_lru : ∃ s, Run (step id id 9) (Regular id id 9) (Shard.init 4 100) regularCalls s ∧
    IsBoundedLru id id 4 100 9 regularCalls s := by
  have hexists : ∃ s, Run (step id id 9) (Regular id id 9) (Shard.init 4 100) regularCalls s ∧ s.entryCount = 1 :=
    Run.exists_of_checked (by decide)
  obtain ⟨s, hrun, -⟩ := hexists
  exact ⟨s, hrun, (sized_shard_is_lru id id (by decide) (by decide) (by decide) (by decide) hrun).1⟩

/-- An erased entry is still counted; where two entries made room for one, the next value overwrites an entry that is in use;
and a larger value in the place of a small one takes the shard over its bytes. -/
theorem sized_shard_not_lru :
    (∃ s, Run (step id id 9) anyStep (Shard.init 4 100) [.put 1 30, .erase 1] s ∧ s.entryCount = 1 ∧
      ¬ IsBoundedLru id id 4 100 9 [.put 1 30, .erase 1] s) ∧
    (∃ s, Run (step id id 9) anyStep (Shard.init 4 100) [.put 0 30, .put 1 30, .put 2 30, .put 3 60, .put 4 10] s ∧
      held id 9 s 2 = none ∧
      ¬ IsBoundedLru id id 4 100 9 [.put 0 30, .put 1 30, .put 2 30, .put 3 60, .put 4 10] s) ∧
    ∃ s, Run (step id id 9) anyStep (Shard.init 4 100) [.put 0 30, .put 0 130] s ∧ s.currentBytes = 130 ∧
      ¬ IsBoundedLru id id 4 100 9 [.put 0 30, .put 0 130] s := by
  refine ⟨?_, ?_, ?_⟩
  · have hexists : ∃ s, Run (step id id 9) anyStep (Shard.init 4 100) [.put 1 30, .erase 1] s ∧ s.entryCount = 1 :=
      Run.exists_of_checked (by decide)
    obtain ⟨s, hrun, hcount⟩ := hexists
    refine ⟨s, hrun, hcount, fun hlru => ?_⟩
    have hzero : s.entryCount = 0 := hlru.count
    omega
  · have hexists : ∃ s, Run (step id id 9) anyStep (Shard.init 4 100)
        [.put 0 30, .put 1 30, .put 2 30, .put 3 60, .put 4 10] s ∧ held id 9 s 2 = none :=
      Run.exists_of_checked (by decide)
    obtain ⟨s, hrun, hheld⟩ := hexists
    refine ⟨s, hrun, hheld, fun hlru => ?_⟩
    obtain ⟨s', hget⟩ := hlru.gets 2
    have hlookup : Lru.lookup (lruItems id 4 100 [.put 0 30, .put 1 30, .put 2 30, .put 3 60, .put 4 10]) 2 = some 30 := by
      decide
    rw [held, hget, hlookup] at hheld
    cases hheld
  · have hexists : ∃ s, Run (step id id 9) anyStep (Shard.init 4 100) [.put 0 30, .put 0 130] s ∧ s.currentBytes = 130 :=
      Run.exists_of_checked (by decide)
    obtain ⟨s, hrun, hbytes⟩ := hexists
    refine ⟨s, hrun, hbytes, fun hlru => ?_⟩
    have hle := hlru.within.2
    omega

end Sized

end Kvdb.FlatCache
