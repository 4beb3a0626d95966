import Kvdb.Cache.KVCache

/-! # What the key-value cache can return

Whatever happens to the buckets, an entry with a value stems from a `Put` of that key and value, so
a hit returns a value that was put for the key with a timestamp the reader sees. -/
namespace Kvdb.KVCache
set_option autoImplicit false

namespace Shard

/-- A found slot holds the key. -/
theorem findSlotFrom_holds (s : Shard) (key : Bytes) (hash fuel i slot : ℕ)
    (h : s.findSlotFrom key hash fuel i = some slot) :
    ∃ b, s.buckets[slot]? = some b ∧ s.holds b key = true := by
  induction fuel generalizing i with
  | zero => cases h
  | succ fuel ih =>
    unfold findSlotFrom at h
    split at h
    · cases h
    · next b hb =>
      split at h
      · cases h
      · split at h
        · next hhit =>
          cases h
          exact ⟨b, hb, (Bool.and_eq_true_iff.mp hhit).2⟩
        · exact ih _ h

theorem findSlot_entry (s : Shard) (key : Bytes) (hash slot : ℕ) (h : s.findSlot key hash = some slot) :
    ∃ e, s.entries[s.idxAt slot]? = some e ∧ e.key = key := by
  obtain ⟨b, hb, hholds⟩ := s.findSlotFrom_holds key hash _ _ slot h
  unfold holds at hholds
  split at hholds
  · cases hholds
  · next i hi =>
    split at hholds
    · next e he =>
      have hidx : s.idxAt slot = i := by simp [idxAt, hb, hi]
      exact ⟨e, by rw [hidx]; exact he, of_decide_eq_true hholds⟩
    · cases hholds

theorem evict_entries (hash : Bytes → ℕ) (s : Shard) : (s.evict hash).2.entries = s.entries := by
  unfold evict
  split
  · rfl
  · split
    · rfl
    · rfl

theorem rehashIfCrowded_entries (s : Shard) : s.rehashIfCrowded.entries = s.entries := by
  unfold rehashIfCrowded
  split
  · rfl
  · rfl

theorem erase_entries (hash : Bytes → ℕ) (s : Shard) (key : Bytes) :
    (s.erase hash key).entries = s.entries := by
  unfold erase
  split
  · rfl
  · rfl

theorem get_entries (hash : Bytes → ℕ) (s : Shard) (key : Bytes) (readTs : ℕ) :
    (s.get hash key readTs).2.entries = s.entries := by
  unfold get
  split
  · rfl
  · split
    · rfl
    · split
      · rfl
      · rfl

/-- Every entry is blank or stems from a `Put`. -/
def Holds (P : Bytes → Bytes → ℕ → Prop) (s : Shard) : Prop :=
  ∀ e ∈ s.entries, e.value = [] ∨ P e.key e.value e.timestamp

theorem Holds.set {P : Bytes → Bytes → ℕ → Prop} {es : List Entry}
    (h : ∀ e ∈ es, e.value = [] ∨ P e.key e.value e.timestamp) (i : ℕ) (x : Entry)
    (hx : P x.key x.value x.timestamp) :
    ∀ e ∈ es.set i x, e.value = [] ∨ P e.key e.value e.timestamp := by
  intro e he
  rcases List.mem_or_eq_of_mem_set he with he | rfl
  · exact h e he
  · exact .inr hx

theorem Holds.put {P : Bytes → Bytes → ℕ → Prop} {s : Shard} (h : s.Holds P) (hash : Bytes → ℕ)
    (key value : Bytes) (ts : ℕ) (hP : P key value ts) : (s.put hash key value ts).Holds P := by
  unfold Shard.put
  split
  · next slot hslot =>
    obtain ⟨e, he, hkey⟩ := s.findSlot_entry key _ slot hslot
    have hkeyAt : s.keyAt (s.idxAt slot) = key := by simp [keyAt, he, hkey]
    exact Holds.set h (s.idxAt slot) _ (by rw [hkeyAt]; exact hP)
  · split
    · split
      · next s' hs' =>
        have hentries := s.evict_entries hash
        rw [hs'] at hentries
        unfold Holds
        rw [hentries]
        exact h
      · next idx s' hs' =>
        have hentries := s.evict_entries hash
        rw [hs'] at hentries
        refine Holds.set ?_ idx ⟨key, value, ts⟩ hP
        rw [rehashIfCrowded_entries]
        simp only [] at hentries ⊢
        rw [hentries]
        exact h
    · refine Holds.set ?_ s.entryCount ⟨key, value, ts⟩ hP
      rw [rehashIfCrowded_entries]
      exact h

theorem Holds.get_eq_some {P : Bytes → Bytes → ℕ → Prop} {s : Shard} (h : s.Holds P) (hash : Bytes → ℕ)
    (key value : Bytes) (readTs : ℕ) (hget : (s.get hash key readTs).1 = some value) (hne : value ≠ []) :
    ∃ ts ≤ readTs, P key value ts := by
  unfold get at hget
  split at hget
  · cases hget
  · next slot hslot =>
    obtain ⟨e, he, hkey⟩ := s.findSlot_entry key _ slot hslot
    rw [he] at hget
    simp only [] at hget
    split at hget
    · cases hget
    · next hts =>
      cases hget
      have hP := (h e (List.mem_of_getElem? he)).resolve_left hne
      rw [hkey] at hP
      exact ⟨e.timestamp, Nat.le_of_not_lt hts, hP⟩

end Shard

def Holds (P : Bytes → Bytes → ℕ → Prop) (c : KVCache) : Prop := ∀ s ∈ c.shards, s.Holds P

theorem new_holds (P : Bytes → Bytes → ℕ → Prop) (hash : Bytes → ℕ) (maxEntries maxBytes numShards : ℕ) :
    (new hash maxEntries maxBytes numShards).Holds P := by
  intro s hs e he
  obtain ⟨-, rfl⟩ := List.mem_replicate.mp hs
  obtain ⟨-, rfl⟩ := List.mem_replicate.mp he
  exact .inl rfl

theorem Holds.mono {P Q : Bytes → Bytes → ℕ → Prop} {c : KVCache} (h : c.Holds P)
    (hPQ : ∀ k v t, P k v t → Q k v t) : c.Holds Q :=
  fun s hs e he => (h s hs e he).imp_right (hPQ e.key e.value e.timestamp)

theorem Holds.modify {P : Bytes → Bytes → ℕ → Prop} {c : KVCache} (h : c.Holds P) (i : ℕ)
    (f : Shard → Shard) (hf : ∀ s, s.Holds P → (f s).Holds P) :
    Holds P { c with shards := c.shards.modify i f } := by
  intro s hs
  obtain ⟨j, hj⟩ := List.getElem?_of_mem hs
  rw [List.getElem?_modify] at hj
  obtain ⟨s0, hs0, hEq⟩ := Option.map_eq_some_iff.mp hj
  have hmem := h s0 (List.mem_of_getElem? hs0)
  subst hEq
  split
  · exact hf s0 hmem
  · exact hmem

theorem Holds.put {P : Bytes → Bytes → ℕ → Prop} {c : KVCache} (h : c.Holds P) (key value : Bytes)
    (ts : ℕ) (hP : P key value ts) : (c.put key value ts).Holds P := by
  unfold KVCache.put
  split
  · exact h
  · exact h.modify _ _ fun s hs => hs.put c.hash key value ts hP

theorem Holds.erase {P : Bytes → Bytes → ℕ → Prop} {c : KVCache} (h : c.Holds P) (key : Bytes) :
    (c.erase key).Holds P := by
  refine h.modify _ _ fun s hs => ?_
  unfold Shard.Holds
  rw [Shard.erase_entries]
  exact hs

theorem Holds.get {P : Bytes → Bytes → ℕ → Prop} {c : KVCache} (h : c.Holds P) (key : Bytes)
    (readTs : ℕ) : (c.get key readTs).2.Holds P := by
  unfold KVCache.get
  split
  · exact h
  · next s hs =>
    intro s' hs'
    rcases List.mem_or_eq_of_mem_set hs' with hs' | rfl
    · exact h s' hs'
    · unfold Shard.Holds
      rw [Shard.get_entries]
      exact h s (List.mem_of_getElem? hs)

/-- A hit with a non-empty value was put for the key. -/
theorem Holds.get_eq_some {P : Bytes → Bytes → ℕ → Prop} {c : KVCache} (h : c.Holds P)
    (key value : Bytes) (readTs : ℕ) (hget : (c.get key readTs).1 = some value) (hne : value ≠ []) :
    ∃ ts ≤ readTs, P key value ts := by
  unfold KVCache.get at hget
  split at hget
  · cases hget
  · next s hs => exact (h s (List.mem_of_getElem? hs)).get_eq_some c.hash key value readTs hget hne

end Kvdb.KVCache
