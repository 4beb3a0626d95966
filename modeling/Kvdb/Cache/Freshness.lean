import Kvdb.Cache.Contents

/-! # When the key-value cache is never stale

An entry can be returned as long as a bucket refers to it. `Fresh P` says that all such entries meet
`P`. A write of a key may change what its entries have to meet; `Put` and `Erase` then leave no old
entry behind if every bucket that refers to one is the bucket that `FindSlot` finds (`Found`). A probe
that stops at a hole left by an earlier erasure breaks this. -/
namespace Kvdb.KVCache
set_option autoImplicit false

namespace Shard

def Fresh (P : Entry → Prop) (s : Shard) : Prop :=
  ∀ b ∈ s.buckets, ∀ i, b.idx = some i → ∀ x, s.entries[i]? = some x → P x

/-- The bucket that `FindSlot` finds is the only one with an entry of the key. -/
def Found (hash : Bytes → ℕ) (s : Shard) (key : Bytes) : Prop :=
  ∀ p ∈ s.buckets.zipIdx, ∀ i ∈ p.1.idx, ∀ x ∈ s.entries[i]?, x.key = key →
    s.findSlot key (hash32 hash key) = some p.2

/-- No bucket has an entry of the key. -/
def NotCached (s : Shard) (key : Bytes) : Prop := s.Fresh fun x => x.key ≠ key

instance decidableFound (hash : Bytes → ℕ) (s : Shard) (key : Bytes) : Decidable (Found hash s key) :=
  inferInstanceAs (Decidable (∀ p ∈ s.buckets.zipIdx, ∀ i ∈ p.1.idx, ∀ x ∈ s.entries[i]?, x.key = key →
    s.findSlot key (hash32 hash key) = some p.2))

instance decidableFresh (P : Entry → Prop) [DecidablePred P] (s : Shard) : Decidable (s.Fresh P) :=
  inferInstanceAs (Decidable (∀ b ∈ s.buckets, ∀ i ∈ b.idx, ∀ x ∈ s.entries[i]?, P x))

instance decidableNotCached (s : Shard) (key : Bytes) : Decidable (s.NotCached key) :=
  inferInstanceAs (Decidable (s.Fresh fun x => x.key ≠ key))

/-- The buckets refer to entries that the buckets of the other shard refer to. -/
def RefersWithin (s' s : Shard) : Prop :=
  ∀ b ∈ s'.buckets, ∀ i, b.idx = some i → ∃ b0 ∈ s.buckets, b0.idx = some i

variable {P P' : Entry → Prop} {hash : Bytes → ℕ} {s s' : Shard} {key : Bytes}

theorem Fresh.within (h : s.Fresh P) (hwithin : RefersWithin s' s) (hentries : s'.entries = s.entries) :
    s'.Fresh P := by
  intro b hb i hi x hx
  obtain ⟨b0, hb0, hi0⟩ := hwithin b hb i hi
  rw [hentries] at hx
  exact h b0 hb0 i hi0 x hx

/-- A found bucket refers to an entry of the key. -/
theorem findSlot_bucket {slot h32 : ℕ} (h : s.findSlot key h32 = some slot) :
    ∃ b x, s.buckets[slot]? = some b ∧ b.idx = some (s.idxAt slot) ∧ s.entries[s.idxAt slot]? = some x ∧
      x.key = key := by
  obtain ⟨b, hb, hholds⟩ := s.findSlotFrom_holds key h32 _ _ slot h
  unfold holds at hholds
  split at hholds
  · cases hholds
  · next i hi =>
    split at hholds
    · next x hx =>
      have hidx : s.idxAt slot = i := by simp [idxAt, hb, hi]
      exact ⟨b, x, hb, by rw [hidx]; exact hi, by rw [hidx]; exact hx, of_decide_eq_true hholds⟩
    · cases hholds

theorem Found.of_getElem? (h : Found hash s key) {slot i : ℕ} {b : Bucket} {x : Entry}
    (hb : s.buckets[slot]? = some b) (hi : b.idx = some i) (hx : s.entries[i]? = some x) (hkey : x.key = key) :
    s.findSlot key (hash32 hash key) = some slot :=
  h (b, slot) (List.mem_zipIdx_iff_getElem?.mpr hb) i hi x hx hkey

theorem Found.notCached (h : Found hash s key) (hnone : s.findSlot key (hash32 hash key) = none) :
    s.NotCached key := by
  intro b hb i hi x hx hkey
  obtain ⟨slot, hslot⟩ := List.getElem?_of_mem hb
  rw [h.of_getElem? hslot hi hx hkey] at hnone
  cases hnone

/-! ## The steps of `Put` and `Erase` -/

theorem setBucket_within (buckets : List Bucket) (h idx : ℕ) :
    ∀ b ∈ setBucket buckets h idx, b ∈ buckets ∨ b.idx = some idx := by
  intro b hb
  rcases List.mem_or_eq_of_mem_set hb with hb | rfl
  · exact .inl hb
  · exact .inr rfl

theorem reenter_within (old buckets : List Bucket) {refs : List Bucket}
    (hold : ∀ b ∈ old, b ∈ refs) (hrefs : ∀ b ∈ buckets, ∀ i, b.idx = some i → ∃ b0 ∈ refs, b0.idx = some i) :
    ∀ b ∈ old.foldl reenter buckets, ∀ i, b.idx = some i → ∃ b0 ∈ refs, b0.idx = some i := by
  induction old generalizing buckets with
  | nil => exact hrefs
  | cons b0 old ih =>
    refine ih (reenter buckets b0) (fun b hb => hold b (List.mem_cons_of_mem _ hb)) ?_
    intro b hb i hi
    unfold reenter at hb
    split at hb
    · exact hrefs b hb i hi
    · next j hj =>
      rcases setBucket_within buckets b0.hash j b hb with hb | hb
      · exact hrefs b hb i hi
      · rw [hb] at hi
        cases hi
        exact ⟨b0, hold b0 List.mem_cons_self, hj⟩

theorem rehashIfCrowded_within (s : Shard) : RefersWithin s.rehashIfCrowded s := by
  unfold rehashIfCrowded
  split
  · refine reenter_within s.buckets _ (fun _ hb => hb) ?_
    intro b hb i hi
    rw [(List.mem_replicate.mp hb).2] at hi
    cases hi
  · exact fun b hb i hi => ⟨b, hb, hi⟩

/-- A cleared bucket refers to nothing, the others stay. -/
theorem clearBucket_getElem? (s : Shard) (slot pos : ℕ) {b : Bucket} {i : ℕ}
    (hb : (s.clearBucket slot).buckets[pos]? = some b) (hi : b.idx = some i) :
    pos ≠ slot ∧ s.buckets[pos]? = some b := by
  have hget : (s.buckets.modify slot fun b => { b with idx := none })[pos]? = some b := hb
  rw [List.getElem?_modify] at hget
  obtain ⟨b0, hb0, heq⟩ := Option.map_eq_some_iff.mp hget
  split at heq
  · rw [← heq] at hi
    cases hi
  · next hne =>
    have hsame : b0 = b := heq
    rw [hsame] at hb0
    exact ⟨fun h => hne h.symm, hb0⟩

theorem evict_within (hash : Bytes → ℕ) (s : Shard) : RefersWithin (s.evict hash).2 s := by
  unfold evict
  split
  · exact fun b hb i hi => ⟨b, hb, hi⟩
  · split
    · exact fun b hb i hi => ⟨b, hb, hi⟩
    · next slot hslot =>
      intro b hb i hi
      obtain ⟨pos, hpos⟩ := List.getElem?_of_mem hb
      exact ⟨b, List.mem_of_getElem? (s.clearBucket_getElem? slot pos hpos hi).2, hi⟩

/-- A new entry replaces what its index had. -/
theorem Fresh.place (h : s.Fresh P) (idx : ℕ) (value : Bytes) (ts : ℕ) (hnew : P ⟨key, value, ts⟩) :
    (s.place hash idx key value ts).Fresh P := by
  intro b hb i hi x hx
  have hx' : (s.entries.set idx ⟨key, value, ts⟩)[i]? = some x := hx
  by_cases heq : idx = i
  · subst heq
    rw [List.getElem?_set_self'] at hx'
    obtain ⟨y, -, rfl⟩ := Option.map_eq_some_iff.mp hx'
    exact hnew
  · rw [List.getElem?_set_ne heq] at hx'
    rcases setBucket_within s.buckets _ idx b hb with hb | hb
    · exact h b hb i hi x hx'
    · rw [hb] at hi
      exact absurd (Option.some.inj hi) heq

/-- `Put` replaces the entry that `FindSlot` finds, or places a new one. -/
theorem fresh_put {value : Bytes} {ts : ℕ}
    (hslot : ∀ slot, s.findSlot key (hash32 hash key) = some slot → ∀ b ∈ s.buckets, ∀ i, b.idx = some i →
      s.idxAt slot ≠ i → ∀ x, s.entries[i]? = some x → P' x)
    (hnone : s.findSlot key (hash32 hash key) = none → s.Fresh P') (hnew : P' ⟨key, value, ts⟩) :
    (s.put hash key value ts).Fresh P' := by
  unfold Shard.put
  split
  · next slot hfind =>
    obtain ⟨b0, x0, -, -, hx0, hkey0⟩ := findSlot_bucket hfind
    have hkeyAt : s.keyAt (s.idxAt slot) = key := by simp [keyAt, hx0, hkey0]
    rw [hkeyAt]
    intro b hb i hi x hx
    have hx' : (s.entries.set (s.idxAt slot) ⟨key, value, ts⟩)[i]? = some x := hx
    by_cases heq : s.idxAt slot = i
    · rw [← heq, List.getElem?_set_self'] at hx'
      obtain ⟨y, -, rfl⟩ := Option.map_eq_some_iff.mp hx'
      exact hnew
    · rw [List.getElem?_set_ne heq] at hx'
      exact hslot slot hfind b hb i hi heq x hx'
  · next hfind =>
    have hother := hnone hfind
    split
    · have hevict : (s.evict hash).2.Fresh P' := hother.within (s.evict_within hash) (s.evict_entries hash)
      split
      · next s' hs' =>
        rw [hs'] at hevict
        exact hevict
      · next idx s' hs' =>
        rw [hs'] at hevict
        have hcount : ({ s' with entryCount := s'.entryCount - 1 } : Shard).Fresh P' := hevict
        exact (hcount.within (rehashIfCrowded_within _) (rehashIfCrowded_entries _)).place idx value ts hnew
    · exact (hother.within (rehashIfCrowded_within s) (rehashIfCrowded_entries s)).place _ value ts hnew

/-- After `Put` the entries of the key are the new one, if `FindSlot` finds the old one. -/
theorem Fresh.put (h : s.Fresh P) (hfound : Found hash s key) {value : Bytes} {ts : ℕ}
    (hP : ∀ x, x.key ≠ key → P x → P' x) (hnew : P' ⟨key, value, ts⟩) :
    (s.put hash key value ts).Fresh P' := by
  refine fresh_put ?_ ?_ hnew
  · intro slot hslot b hb i hi hne x hx
    refine hP x ?_ (h b hb i hi x hx)
    intro hkey
    obtain ⟨pos, hpos⟩ := List.getElem?_of_mem hb
    have hfind := hfound.of_getElem? hpos hi hx hkey
    rw [hslot] at hfind
    cases hfind
    exact hne (by simp [idxAt, hpos, hi])
  · intro hnone b hb i hi x hx
    exact hP x (hfound.notCached hnone b hb i hi x hx) (h b hb i hi x hx)

/-- An entry that the cache may hold can be put into it. -/
theorem Fresh.put_same (h : s.Fresh P) {value : Bytes} {ts : ℕ} (hnew : P ⟨key, value, ts⟩) :
    (s.put hash key value ts).Fresh P :=
  fresh_put (fun _ _ b hb i hi _ x hx => h b hb i hi x hx) (fun _ => h) hnew

/-- After `Erase` no entry of the key is left, if `FindSlot` finds it. -/
theorem Fresh.erase (h : s.Fresh P) (hfound : Found hash s key) (hP : ∀ x, x.key ≠ key → P x → P' x) :
    (s.erase hash key).Fresh P' := by
  unfold Shard.erase
  split
  · next hnone =>
    intro b hb i hi x hx
    exact hP x (hfound.notCached hnone b hb i hi x hx) (h b hb i hi x hx)
  · next slot hslot =>
    intro b hb i hi x hx
    obtain ⟨pos, hpos⟩ := List.getElem?_of_mem hb
    obtain ⟨hne, hold⟩ := s.clearBucket_getElem? slot pos hpos hi
    have hx' : s.entries[i]? = some x := hx
    refine hP x ?_ (h b (List.mem_of_getElem? hold) i hi x hx')
    intro hkey
    have hfind := hfound.of_getElem? hold hi hx' hkey
    rw [hslot] at hfind
    cases hfind
    exact hne rfl

theorem Fresh.get (h : s.Fresh P) (readTs : ℕ) : (s.get hash key readTs).2.Fresh P := by
  unfold Shard.get
  split
  · exact h
  · split
    · exact h
    · split
      · exact h
      · exact h

theorem Fresh.get_eq_some (h : s.Fresh P) {value : Bytes} {readTs : ℕ}
    (hget : (s.get hash key readTs).1 = some value) : ∃ x, P x ∧ x.key = key ∧ x.value = value ∧ x.timestamp ≤ readTs := by
  unfold Shard.get at hget
  split at hget
  · cases hget
  · next slot hslot =>
    obtain ⟨b, x, hb, hi, hx, hkey⟩ := findSlot_bucket hslot
    rw [hx] at hget
    simp only [] at hget
    split at hget
    · cases hget
    · next hts =>
      cases hget
      exact ⟨x, h b (List.mem_of_getElem? hb) _ hi x hx, hkey, rfl, Nat.le_of_not_lt hts⟩

end Shard

/-! ## The whole cache -/

def Fresh (P : Entry → Prop) (c : KVCache) : Prop := ∀ s ∈ c.shards, s.Fresh P

def NotCached (c : KVCache) (key : Bytes) : Prop := ∀ s ∈ c.shards, s.NotCached key

/-- Every bucket with an entry of the key is found, and only the shard of the key has one. -/
def Found (c : KVCache) (key : Bytes) : Prop :=
  ∀ p ∈ c.shards.zipIdx, if p.2 = c.shardFor key then p.1.Found c.hash key else p.1.NotCached key

instance decidableFound (c : KVCache) (key : Bytes) : Decidable (c.Found key) :=
  inferInstanceAs (Decidable (∀ p ∈ c.shards.zipIdx,
    if p.2 = c.shardFor key then p.1.Found c.hash key else p.1.NotCached key))

instance decidableFresh (P : Entry → Prop) [DecidablePred P] (c : KVCache) : Decidable (c.Fresh P) :=
  inferInstanceAs (Decidable (∀ s ∈ c.shards, s.Fresh P))

instance decidableNotCached (c : KVCache) (key : Bytes) : Decidable (c.NotCached key) :=
  inferInstanceAs (Decidable (∀ s ∈ c.shards, s.NotCached key))

variable {P P' : Entry → Prop} {c : KVCache} {key : Bytes}

theorem Fresh.mono (h : c.Fresh P) (hP : ∀ x, P x → P' x) : c.Fresh P' :=
  fun s hs b hb i hi x hx => hP x (h s hs b hb i hi x hx)

theorem Fresh.modify (h : c.Fresh P) (hfound : c.Found key) (hP : ∀ x, x.key ≠ key → P x → P' x)
    (f : Shard → Shard) (hf : ∀ s, s.Fresh P → s.Found c.hash key → (f s).Fresh P') :
    Fresh P' { c with shards := c.shards.modify (c.shardFor key) f } := by
  intro s hs
  obtain ⟨j, hj⟩ := List.getElem?_of_mem hs
  rw [List.getElem?_modify] at hj
  obtain ⟨s0, hs0, heq⟩ := Option.map_eq_some_iff.mp hj
  have hfresh := h s0 (List.mem_of_getElem? hs0)
  have hkey := hfound (s0, j) (List.mem_zipIdx_iff_getElem?.mpr hs0)
  subst heq
  split
  · next hshard =>
    rw [if_pos hshard.symm] at hkey
    exact hf s0 hfresh hkey
  · next hshard =>
    rw [if_neg (Ne.symm hshard)] at hkey
    exact fun b hb i hi x hx => hP x (hkey b hb i hi x hx) (hfresh b hb i hi x hx)

/-- `Put` keeps the cache fresh if it replaces the old entry of the key, or there is none. -/
theorem Fresh.put (h : c.Fresh P) (hfound : c.Found key) {value : Bytes} {ts : ℕ}
    (hsmall : Config.pageSize / 2 < value.length → c.NotCached key)
    (hP : ∀ x, x.key ≠ key → P x → P' x) (hnew : P' ⟨key, value, ts⟩) : (c.put key value ts).Fresh P' := by
  unfold KVCache.put
  split
  · next hlarge =>
    intro s hs b hb i hi x hx
    exact hP x (hsmall hlarge s hs b hb i hi x hx) (h s hs b hb i hi x hx)
  · exact h.modify hfound hP _ fun s hs hsfound => hs.put hsfound hP hnew

theorem Fresh.put_same (h : c.Fresh P) {value : Bytes} {ts : ℕ} (hnew : P ⟨key, value, ts⟩) :
    (c.put key value ts).Fresh P := by
  unfold KVCache.put
  split
  · exact h
  · intro s hs
    obtain ⟨j, hj⟩ := List.getElem?_of_mem hs
    rw [List.getElem?_modify] at hj
    obtain ⟨s0, hs0, rfl⟩ := Option.map_eq_some_iff.mp hj
    have hfresh := h s0 (List.mem_of_getElem? hs0)
    split
    · exact hfresh.put_same hnew
    · exact hfresh

theorem Fresh.get (h : c.Fresh P) (readTs : ℕ) : (c.get key readTs).2.Fresh P := by
  unfold KVCache.get
  split
  · exact h
  · next s hs =>
    intro s' hs'
    rcases List.mem_or_eq_of_mem_set hs' with hs' | rfl
    · exact h s' hs'
    · exact (h s (List.mem_of_getElem? hs)).get readTs

theorem Fresh.erase (h : c.Fresh P) (hfound : c.Found key) (hP : ∀ x, x.key ≠ key → P x → P' x) :
    (c.erase key).Fresh P' :=
  h.modify hfound hP _ fun _ hs hsfound => hs.erase hsfound hP

theorem Fresh.get_eq_some (h : c.Fresh P) {value : Bytes} {readTs : ℕ}
    (hget : (c.get key readTs).1 = some value) : ∃ x, P x ∧ x.key = key ∧ x.value = value ∧ x.timestamp ≤ readTs := by
  unfold KVCache.get at hget
  split at hget
  · cases hget
  · next s hs => exact (h s (List.mem_of_getElem? hs)).get_eq_some hget

theorem new_fresh (P : Entry → Prop) (hash : Bytes → ℕ) (maxEntries maxBytes numShards : ℕ) :
    (new hash maxEntries maxBytes numShards).Fresh P := by
  intro s hs b hb i hi
  obtain ⟨-, rfl⟩ := List.mem_replicate.mp hs
  obtain ⟨-, rfl⟩ := List.mem_replicate.mp hb
  cases hi

end Kvdb.KVCache
