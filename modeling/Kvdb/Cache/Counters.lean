import Kvdb.Cache.ExactLru
import Kvdb.Cache.LastPut

/-! # The counters of a shard

What a shard of the key-value cache counts is what it holds as long as `Erase` has nothing to erase (it leaves
`entry_count` as it was), an overwritten value fits, and one eviction makes room for a new entry without cutting the probe
of another key. `Indexed` says that the buckets find the entries of a list and refer to no others. -/
namespace Kvdb.KVCache
set_option autoImplicit false

open Kvdb.Runs

namespace Shard

variable {hash : Bytes → ℕ} {s s' : Shard} {key : Bytes} {live : List ℕ} {i slot : ℕ}

/-! ## Searches -/

/-- A search that succeeds passes live buckets only, and does not see what becomes of the others. -/
theorem findSlotFrom_keep {h fuel : ℕ} (hlen : s'.buckets.length = s.buckets.length)
    (hlive : ∀ (p : ℕ) (b : Bucket), s.buckets[p]? = some b → b.idx.isNone = false →
      s'.buckets[p]? = some b ∧ s'.holds b key = s.holds b key)
    (hfind : s.findSlotFrom key h fuel i = some slot) : s'.findSlotFrom key h fuel i = some slot := by
  induction fuel generalizing i with
  | zero => cases hfind
  | succ fuel ih =>
    unfold findSlotFrom at hfind ⊢
    cases hb : s.buckets[i]? with
    | none =>
      rw [hb] at hfind
      cases hfind
    | some b =>
      rw [hb] at hfind
      simp only [] at hfind
      cases hidx : b.idx.isNone with
      | true =>
        rw [hidx, if_pos rfl] at hfind
        cases hfind
      | false =>
        obtain ⟨hb', hholds⟩ := hlive i b hb hidx
        rw [hidx, if_neg (by decide)] at hfind
        rw [hb']
        simp only []
        rw [hidx, if_neg (by decide), hholds, hlen]
        split at hfind
        · next hhit =>
          rw [if_pos hhit]
          exact hfind
        · next hmiss =>
          rw [if_neg hmiss]
          exact ih hfind

theorem findSlot_keep {h : ℕ} (hlen : s'.buckets.length = s.buckets.length)
    (hlive : ∀ (p : ℕ) (b : Bucket), s.buckets[p]? = some b → b.idx.isNone = false →
      s'.buckets[p]? = some b ∧ s'.holds b key = s.holds b key)
    (hfind : s.findSlot key h = some slot) : s'.findSlot key h = some slot := by
  unfold findSlot at hfind ⊢
  rw [hlen]
  exact findSlotFrom_keep hlen hlive hfind

/-- The probe from `i` that enters a key finds it afterwards, if it gets to an empty bucket. -/
theorem findSlotFrom_entered {buckets : List Bucket} {h idx fuel : ℕ} (hi : i < buckets.length)
    (hempty : ∃ u < fuel, ∃ b, buckets[(i + u) % buckets.length]? = some b ∧ b.idx = none)
    (hbuckets : s'.buckets = buckets.set (freeSlotFrom buckets fuel i) ⟨h, some idx⟩)
    (hself : s'.holds ⟨h, some idx⟩ key = true)
    (hother : ∀ b ∈ buckets, b.idx.isNone = false → s'.holds b key = false) :
    s'.findSlotFrom key h fuel i = some (freeSlotFrom buckets fuel i) ∧
      ∃ b, buckets[freeSlotFrom buckets fuel i]? = some b ∧ b.idx = none := by
  have hlen : s'.buckets.length = buckets.length := by rw [hbuckets, List.length_set]
  -- The search goes along with the probe; the bucket that is written stays the same from step to step.
  generalize hend : freeSlotFrom buckets fuel i = free at hbuckets
  induction fuel generalizing i with
  | zero =>
    obtain ⟨u, hu, -⟩ := hempty
    exact absurd hu (Nat.not_lt_zero u)
  | succ fuel ih =>
    have hget : buckets[i]? = some buckets[i] := List.getElem?_eq_getElem hi
    unfold freeSlotFrom at hend
    rw [hget] at hend
    simp only [] at hend
    unfold findSlotFrom
    cases hidx : buckets[i].idx.isNone with
    | true =>
      rw [hidx, if_pos rfl] at hend
      subst hend
      have hnew : s'.buckets[i]? = some ⟨h, some idx⟩ := by rw [hbuckets, List.getElem?_set_self hi]
      rw [hnew]
      simp only [Option.isNone_some, Bool.false_eq_true, if_false, hself, decide_true, Bool.and_self, if_true]
      exact ⟨trivial, buckets[i], hget, Option.isNone_iff_eq_none.mp hidx⟩
    | false =>
      rw [hidx, if_neg (by decide)] at hend
      have hrest : ∃ u < fuel, ∃ b, buckets[((i + 1) % buckets.length + u) % buckets.length]? = some b ∧ b.idx = none := by
        obtain ⟨u, hu, b, hb, hnone⟩ := hempty
        cases u with
        | zero =>
          rw [Nat.add_zero, Nat.mod_eq_of_lt hi, hget] at hb
          cases hb
          rw [hnone] at hidx
          cases hidx
        | succ u =>
          refine ⟨u, Nat.lt_of_succ_lt_succ hu, b, ?_, hnone⟩
          rw [Nat.mod_add_mod, Nat.add_assoc, Nat.add_comm 1 u]
          exact hb
      obtain ⟨hfind, hfree⟩ := ih (Nat.mod_lt _ (Nat.zero_lt_of_lt hi)) hrest hend
      refine ⟨?_, hfree⟩
      have hne : free ≠ i := by
        rintro rfl
        obtain ⟨b, hb, hnone⟩ := hfree
        rw [hget] at hb
        cases hb
        rw [hnone] at hidx
        cases hidx
      have hsame : s'.buckets[i]? = some buckets[i] := by rw [hbuckets, List.getElem?_set_ne hne, hget]
      rw [hsame]
      simp only [hidx, Bool.false_eq_true, if_false, hother _ (List.getElem_mem hi) hidx, Bool.and_false, hlen]
      exact hfind

/-! ## The entries that the buckets find -/

/-- The search for the key of entry `i` ends at the bucket of that entry. -/
def Finds (hash : Bytes → ℕ) (s : Shard) (i slot : ℕ) : Prop :=
  s.findSlot (s.keyAt i) (hash32 hash (s.keyAt i)) = some slot ∧ ∃ b, s.buckets[slot]? = some b ∧ b.idx = some i

/-- The buckets find the entries of `live` and refer to no others. -/
structure Indexed (hash : Bytes → ℕ) (s : Shard) (live : List ℕ) : Prop where
  nodup : live.Nodup
  bound : ∀ i ∈ live, i < s.entries.length
  found : ∀ i ∈ live, ∃ slot, s.Finds hash i slot
  owned : ∀ slot b i, s.buckets[slot]? = some b → b.idx = some i → i ∈ live ∧ s.Finds hash i slot

theorem idxAt_eq {b : Bucket} (hb : s.buckets[slot]? = some b) (hi : b.idx = some i) : s.idxAt slot = i := by
  simp [idxAt, hb, hi]

theorem Finds.idxAt (h : s.Finds hash i slot) : s.idxAt slot = i := by
  obtain ⟨-, b, hb, hi⟩ := h
  exact idxAt_eq hb hi

namespace Indexed

theorem perm (h : Indexed hash s live) {live' : List ℕ} (hperm : live'.Perm live) : Indexed hash s live' where
  nodup := hperm.nodup_iff.mpr h.nodup
  bound i hi := h.bound i (hperm.mem_iff.mp hi)
  found i hi := h.found i (hperm.mem_iff.mp hi)
  owned slot b i hb hi := ⟨hperm.mem_iff.mpr (h.owned slot b i hb hi).1, (h.owned slot b i hb hi).2⟩

/-- Different entries have different keys. -/
theorem keys_ne (h : Indexed hash s live) {j : ℕ} (hi : i ∈ live) (hj : j ∈ live) (hkey : s.keyAt i = s.keyAt j) : i = j := by
  obtain ⟨slot, hfind⟩ := h.found i hi
  obtain ⟨slot', hfind'⟩ := h.found j hj
  have hsame : some slot = some slot' := by rw [← hfind.1, ← hfind'.1, hkey]
  rw [← hfind.idxAt, ← hfind'.idxAt, Option.some.inj hsame]

/-- A search ends at the bucket of an entry of the key. -/
theorem of_findSlot (h : Indexed hash s live) {x : ℕ} (hfind : s.findSlot key x = some slot) :
    ∃ i ∈ live, s.idxAt slot = i ∧ s.keyAt i = key ∧ s.Finds hash i slot := by
  obtain ⟨b, e, hb, hi, he, hkey⟩ := findSlot_bucket hfind
  obtain ⟨hmem, hfinds⟩ := h.owned slot b _ hb hi
  refine ⟨_, hmem, rfl, ?_, hfinds⟩
  rw [keyAt, he, Option.map_some, Option.getD_some, hkey]

theorem holds_false (h : Indexed hash s live) (hnew : ∀ i ∈ live, s.keyAt i ≠ key) :
    ∀ b ∈ s.buckets, b.idx.isNone = false → s.holds b key = false := by
  intro b hb hidx
  obtain ⟨p, hp⟩ := List.getElem?_of_mem hb
  cases hi : b.idx with
  | none =>
    rw [hi] at hidx
    cases hidx
  | some i =>
    have hmem := (h.owned p b i hp hi).1
    have hget := List.getElem?_eq_getElem (h.bound i hmem)
    have hne := hnew i hmem
    rw [keyAt, hget, Option.map_some, Option.getD_some] at hne
    unfold holds
    rw [hi]
    simp only [hget, hne, decide_false]

/-- Half of the buckets are empty. -/
theorem exists_empty (h : Indexed hash s live) (hroom : live.length < s.buckets.length) :
    ∃ p < s.buckets.length, ∃ b, s.buckets[p]? = some b ∧ b.idx = none := by
  by_contra hfull
  push Not at hfull
  have hlive : ∀ p ∈ List.range s.buckets.length, s.Finds hash (s.idxAt p) p ∧ s.idxAt p ∈ live := by
    intro p hp
    have hlt := List.mem_range.mp hp
    have hget := List.getElem?_eq_getElem hlt
    obtain ⟨i, hi⟩ := Option.ne_none_iff_exists'.mp (hfull p hlt _ hget)
    obtain ⟨hmem, hfinds⟩ := h.owned p _ i hget hi
    rw [idxAt_eq hget hi]
    exact ⟨hfinds, hmem⟩
  have hnodup : ((List.range s.buckets.length).map s.idxAt).Nodup := by
    refine (List.nodup_map_iff_inj_on List.nodup_range).mpr fun p hp q hq heq => ?_
    have hp' := (hlive p hp).1.1
    rw [heq, (hlive q hq).1.1] at hp'
    exact (Option.some.inj hp').symm
  have hsub : (List.range s.buckets.length).map s.idxAt ⊆ live := by
    intro i hi
    obtain ⟨p, hp, rfl⟩ := List.mem_map.mp hi
    exact (hlive p hp).2
  have hle := (List.subperm_of_subset hnodup hsub).length_le
  rw [List.length_map, List.length_range] at hle
  omega

/-- Every probe gets to an empty bucket. -/
theorem probe_empty (h : Indexed hash s live) (hroom : live.length < s.buckets.length) (hi : i < s.buckets.length) :
    ∃ u < s.buckets.length, ∃ b, s.buckets[(i + u) % s.buckets.length]? = some b ∧ b.idx = none := by
  obtain ⟨p, hp, b, hb, hnone⟩ := h.exists_empty hroom
  rcases Nat.lt_or_ge p i with hlt | hge
  · refine ⟨p + s.buckets.length - i, by omega, b, ?_, hnone⟩
    rw [show i + (p + s.buckets.length - i) = p + s.buckets.length from by omega, Nat.add_mod_right, Nat.mod_eq_of_lt hp]
    exact hb
  · refine ⟨p - i, by omega, b, ?_, hnone⟩
    rw [show i + (p - i) = p from by omega, Nat.mod_eq_of_lt hp]
    exact hb

/-- A new key at an index that is not in use. -/
theorem place (h : Indexed hash s live) (hroom : live.length < s.buckets.length) {idx : ℕ} (hidx : idx < s.entries.length)
    (hfresh : idx ∉ live) (hnew : ∀ i ∈ live, s.keyAt i ≠ key) (value : Bytes) (ts : ℕ) :
    Indexed hash (s.place hash idx key value ts) (idx :: live) ∧
      ∃ slot, (s.place hash idx key value ts).Finds hash idx slot := by
  let t := s.place hash idx key value ts
  have hpos : hash32 hash key % s.buckets.length < s.buckets.length := Nat.mod_lt _ (by omega)
  have hentries : t.entries = s.entries.set idx ⟨key, value, ts⟩ := rfl
  have hbuckets : t.buckets = s.buckets.set (freeSlotFrom s.buckets s.buckets.length (hash32 hash key % s.buckets.length))
      ⟨hash32 hash key, some idx⟩ := rfl
  have hlen : t.buckets.length = s.buckets.length := by rw [hbuckets, List.length_set]
  have hself : t.entries[idx]? = some ⟨key, value, ts⟩ := by rw [hentries, List.getElem?_set_self hidx]
  have hkeep : ∀ j, j ≠ idx → t.entries[j]? = s.entries[j]? := by
    intro j hj
    rw [hentries, List.getElem?_set_ne (Ne.symm hj)]
  have hkeyAt : ∀ j ∈ live, t.keyAt j = s.keyAt j := by
    intro j hj
    have hne : j ≠ idx := fun heq => hfresh (heq ▸ hj)
    rw [keyAt, keyAt, hkeep j hne]
  have hnewKey : t.keyAt idx = key := by rw [keyAt, hself, Option.map_some, Option.getD_some]
  -- A live bucket refers to an entry that is not written.
  have hholds : ∀ (b : Bucket) (k : Bytes), b ∈ s.buckets → b.idx.isNone = false → t.holds b k = s.holds b k := by
    intro b k hb hlive
    obtain ⟨p, hp⟩ := List.getElem?_of_mem hb
    cases hi : b.idx with
    | none =>
      rw [hi] at hlive
      cases hlive
    | some i =>
      have hne : i ≠ idx := fun heq => hfresh (heq ▸ (h.owned p b i hp hi).1)
      unfold holds
      rw [hi]
      simp only [hkeep i hne]
  obtain ⟨hfind, b₀, hfree, hnone⟩ := findSlotFrom_entered hpos (h.probe_empty hroom hpos) hbuckets
    (by simp [holds, hself]) (fun b hb hlive => (hholds b key hb hlive).trans (h.holds_false hnew b hb hlive))
  generalize freeSlotFrom s.buckets s.buckets.length (hash32 hash key % s.buckets.length) = free at *
  have hlt : free < s.buckets.length := (List.getElem?_eq_some_iff.mp hfree).1
  have hstay : ∀ (p : ℕ) (b : Bucket), s.buckets[p]? = some b → b.idx.isNone = false → t.buckets[p]? = some b := by
    intro p b hb hlive
    have hne : free ≠ p := by
      rintro rfl
      rw [hfree] at hb
      cases hb
      rw [hnone] at hlive
      cases hlive
    rw [hbuckets, List.getElem?_set_ne hne, hb]
  have hfinds : t.Finds hash idx free := by
    refine ⟨?_, ⟨hash32 hash key, some idx⟩, by rw [hbuckets, List.getElem?_set_self hlt], rfl⟩
    rw [hnewKey, findSlot, hlen]
    exact hfind
  have hold : ∀ j slot, j ∈ live → s.Finds hash j slot → t.Finds hash j slot := by
    rintro j slot hj ⟨hslot, b, hb, hi⟩
    refine ⟨?_, b, hstay slot b hb (by rw [hi]; rfl), hi⟩
    rw [hkeyAt j hj]
    exact findSlot_keep hlen (fun p b hb hlive => ⟨hstay p b hb hlive, hholds b _ (List.mem_of_getElem? hb) hlive⟩) hslot
  refine ⟨⟨List.nodup_cons.mpr ⟨hfresh, h.nodup⟩, ?_, ?_, ?_⟩, free, hfinds⟩
  · intro j hj
    rw [show (s.place hash idx key value ts).entries.length = s.entries.length from List.length_set ..]
    rcases List.mem_cons.mp hj with rfl | hj
    · exact hidx
    · exact h.bound j hj
  · intro j hj
    rcases List.mem_cons.mp hj with rfl | hj
    · exact ⟨free, hfinds⟩
    · obtain ⟨slot, hslot⟩ := h.found j hj
      exact ⟨slot, hold j slot hj hslot⟩
  · intro slot b j hb hj
    by_cases hsame : free = slot
    · subst hsame
      have hb' : t.buckets[free]? = some b := hb
      rw [hbuckets, List.getElem?_set_self hlt] at hb'
      cases hb'
      cases hj
      exact ⟨List.mem_cons_self, hfinds⟩
    · have hb' : t.buckets[slot]? = some b := hb
      rw [hbuckets, List.getElem?_set_ne hsame] at hb'
      obtain ⟨hmem, hslot⟩ := h.owned slot b j hb' hj
      exact ⟨List.mem_cons_of_mem _ hmem, hold j slot hmem hslot⟩

theorem holds_congr (hlen : s'.entries.length = s.entries.length) (hkeys : ∀ j, s'.keyAt j = s.keyAt j) (b : Bucket)
    (k : Bytes) : s'.holds b k = s.holds b k := by
  unfold holds
  cases b.idx with
  | none => rfl
  | some i =>
    have hkey := hkeys i
    unfold keyAt at hkey
    simp only []
    rcases Nat.lt_or_ge i s.entries.length with hlt | hge
    · rw [List.getElem?_eq_getElem hlt, List.getElem?_eq_getElem (hlen ▸ hlt)] at hkey ⊢
      simp only [Option.map_some, Option.getD_some] at hkey
      simp only [hkey]
    · rw [List.getElem?_eq_none hge, List.getElem?_eq_none (hlen ▸ hge)]

/-- The buckets find entries by their keys, whatever else changes. -/
theorem congr (h : Indexed hash s live) (hbuckets : s'.buckets = s.buckets) (hlen : s'.entries.length = s.entries.length)
    (hkeys : ∀ j, s'.keyAt j = s.keyAt j) : Indexed hash s' live := by
  have hfinds : ∀ j slot, s.Finds hash j slot → s'.Finds hash j slot := by
    rintro j slot ⟨hslot, b, hb, hj⟩
    refine ⟨?_, b, hbuckets ▸ hb, hj⟩
    rw [hkeys]
    exact findSlot_keep (by rw [hbuckets]) (fun p b hb _ => ⟨hbuckets ▸ hb, holds_congr hlen hkeys b _⟩) hslot
  refine ⟨h.nodup, fun j hj => hlen ▸ h.bound j hj, fun j hj => ?_, fun slot b j hb hj => ?_⟩
  · obtain ⟨slot, hslot⟩ := h.found j hj
    exact ⟨slot, hfinds j slot hslot⟩
  · obtain ⟨hmem, hslot⟩ := h.owned slot b j (hbuckets ▸ hb) hj
    exact ⟨hmem, hfinds j slot hslot⟩

/-- A bucket is emptied that no search for another key has to pass. -/
theorem clear (h : Indexed hash s live) (hfind : s.Finds hash i slot)
    (hspares : ∀ j ∈ live, j ≠ i → (s.clearBucket slot).findSlot (s.keyAt j) (hash32 hash (s.keyAt j)) =
      s.findSlot (s.keyAt j) (hash32 hash (s.keyAt j))) :
    Indexed hash (s.clearBucket slot) (live.erase i) := by
  have hsub : ∀ j ∈ live.erase i, j ∈ live ∧ j ≠ i := by
    intro j hj
    obtain ⟨hne, hmem⟩ := (h.nodup.mem_erase_iff).mp hj
    exact ⟨hmem, hne⟩
  have hkeep : ∀ j p, j ∈ live → j ≠ i → s.Finds hash j p → (s.clearBucket slot).Finds hash j p := by
    rintro j p hj hne ⟨hp, b, hb, hbj⟩
    refine ⟨(hspares j hj hne).trans hp, b, ?_, hbj⟩
    have hps : slot ≠ p := by
      rintro rfl
      exact hne ((idxAt_eq hb hbj).symm.trans hfind.idxAt)
    show (s.buckets.modify slot _)[p]? = some b
    rw [List.getElem?_modify, hb]
    simp [hps]
  refine ⟨h.nodup.erase i, fun j hj => h.bound j (hsub j hj).1, fun j hj => ?_, fun p b j hb hj => ?_⟩
  · obtain ⟨p, hp⟩ := h.found j (hsub j hj).1
    exact ⟨p, hkeep j p (hsub j hj).1 (hsub j hj).2 hp⟩
  · obtain ⟨hps, hold⟩ := s.clearBucket_getElem? slot p hb hj
    obtain ⟨hmem, hp⟩ := h.owned p b j hold hj
    have hne : j ≠ i := by
      rintro rfl
      have hsame := hp.1
      rw [hfind.1] at hsame
      exact hps (Option.some.inj hsame).symm
    exact ⟨(h.nodup.mem_erase_iff).mpr ⟨hne, hmem⟩, hkeep j p hmem hne hp⟩

end Indexed

/-! ## What the counters count -/

/-- The pairs that `Get` finds are as many as `entry_count` says, and their values take the bytes that `current_bytes`
says, which are within the limit. -/
def Counted (hash : Bytes → ℕ) (s : Shard) : Prop :=
  ∃ items : List (Bytes × Bytes), (items.map Prod.fst).Nodup ∧
    (∀ key value, (key, value) ∈ items ↔ ∃ readTs, (s.get hash key readTs).1 = some value) ∧
    s.entryCount = items.length ∧ s.currentBytes = (items.map fun item => item.2.length).sum ∧
    s.currentBytes ≤ s.maxBytes

/-- `Evict` empties no bucket that the search for another key has to pass. -/
def Spares (hash : Bytes → ℕ) (s : Shard) : Prop :=
  ∀ tail ∈ s.lru.getLast?, ∀ slot ∈ s.findSlot (s.keyAt tail) (hash32 hash (s.keyAt tail)), ∀ j ∈ s.lru, j ≠ tail →
    (s.clearBucket slot).findSlot (s.keyAt j) (hash32 hash (s.keyAt j)) =
      s.findSlot (s.keyAt j) (hash32 hash (s.keyAt j))

/-- `Erase` has nothing to erase. A value that `Put` writes over fits; where `Put` evicts, one entry is enough to make room,
and no search has to pass its bucket. -/
def Accounted (hash : Bytes → ℕ) (s : Shard) : Call → Prop
  | .get _ _ => True
  | .erase key => s.findSlot key (hash32 hash key) = none
  | .put key value _ =>
    (∀ slot ∈ s.findSlot key (hash32 hash key),
      s.currentBytes - (s.valueAt (s.idxAt slot)).length + value.length ≤ s.maxBytes) ∧
    (s.Evicts hash key value → s.Spares hash ∧
      ∀ tail ∈ s.lru.getLast?, s.currentBytes - (s.valueAt tail).length + value.length ≤ s.maxBytes)

instance decidableSpares (hash : Bytes → ℕ) (s : Shard) : Decidable (s.Spares hash) :=
  inferInstanceAs (Decidable (∀ tail ∈ s.lru.getLast?, ∀ slot ∈ s.findSlot (s.keyAt tail) (hash32 hash (s.keyAt tail)),
    ∀ j ∈ s.lru, j ≠ tail → (s.clearBucket slot).findSlot (s.keyAt j) (hash32 hash (s.keyAt j)) =
      s.findSlot (s.keyAt j) (hash32 hash (s.keyAt j))))

instance decidableAccounted (hash : Bytes → ℕ) (s : Shard) : ∀ c, Decidable (s.Accounted hash c)
  | .get _ _ => isTrue trivial
  | .erase key => inferInstanceAs (Decidable (s.findSlot key (hash32 hash key) = none))
  | .put key value _ => inferInstanceAs (Decidable ((∀ slot ∈ s.findSlot key (hash32 hash key),
      s.currentBytes - (s.valueAt (s.idxAt slot)).length + value.length ≤ s.maxBytes) ∧
    (s.Evicts hash key value → s.Spares hash ∧
      ∀ tail ∈ s.lru.getLast?, s.currentBytes - (s.valueAt tail).length + value.length ≤ s.maxBytes)))

/-- The entries in use are the first `entry_count` ones, the buckets find them, and `current_bytes` is what their values
take. -/
structure Sound (hash : Bytes → ℕ) (s : Shard) : Prop where
  indexed : Indexed hash s s.lru
  dense : s.lru.Perm (List.range s.entryCount)
  entries : s.entries.length = s.maxEntries
  pos : 0 < s.maxEntries
  room : s.maxEntries * 2 ≤ s.buckets.length
  count : s.entryCount ≤ s.maxEntries
  bytes : s.currentBytes = (s.lru.map fun i => (s.valueAt i).length).sum
  fits : s.currentBytes ≤ s.maxBytes

namespace Sound

theorem length_lru (h : s.Sound hash) : s.lru.length = s.entryCount := by
  rw [h.dense.length_eq, List.length_range]

theorem get_of_mem (h : s.Sound hash) (hi : i ∈ s.lru) :
    ∃ ts, ∀ readTs, ts ≤ readTs → (s.get hash (s.keyAt i) readTs).1 = some (s.valueAt i) := by
  obtain ⟨slot, hslot⟩ := h.indexed.found i hi
  have hlt := h.indexed.bound i hi
  have hget := List.getElem?_eq_getElem hlt
  refine ⟨s.entries[i].timestamp, fun readTs hle => ?_⟩
  unfold Shard.get
  rw [hslot.1]
  simp only [hslot.idxAt, hget, if_neg (Nat.not_lt_of_le hle), valueAt, Option.map_some, Option.getD_some]

theorem counted (h : s.Sound hash) : s.Counted hash := by
  refine ⟨s.lru.map fun i => (s.keyAt i, s.valueAt i), ?_, fun key value => ?_, ?_, ?_, h.fits⟩
  · rw [List.map_map]
    exact (List.nodup_map_iff_inj_on h.indexed.nodup).mpr fun i hi j hj heq => h.indexed.keys_ne hi hj heq
  · constructor
    · intro hmem
      obtain ⟨i, hi, heq⟩ := List.mem_map.mp hmem
      cases heq
      obtain ⟨ts, hget⟩ := h.get_of_mem hi
      exact ⟨ts, hget ts (Nat.le_refl ts)⟩
    · rintro ⟨readTs, hget⟩
      unfold Shard.get at hget
      cases hfind : s.findSlot key (hash32 hash key) with
      | none =>
        rw [hfind] at hget
        cases hget
      | some slot =>
        obtain ⟨i, hi, hidx, hkey, -⟩ := h.indexed.of_findSlot hfind
        have hentry := List.getElem?_eq_getElem (h.indexed.bound i hi)
        rw [hfind] at hget
        simp only [hidx, hentry] at hget
        split at hget
        · cases hget
        · refine List.mem_map.mpr ⟨i, hi, ?_⟩
          have hvalue : s.valueAt i = value := by
            rw [valueAt, hentry]
            exact Option.some.inj hget
          rw [hkey, hvalue]
  · rw [List.length_map, h.length_lru]
  · rw [List.map_map]
    exact h.bytes

/-- The list of the entries is put in another order. -/
theorem reorder (h : s.Sound hash) {lru : List ℕ} (hperm : lru.Perm s.lru) : Sound hash { s with lru := lru } where
  indexed := (h.indexed.perm hperm).congr rfl rfl fun _ => rfl
  dense := hperm.trans h.dense
  entries := h.entries
  pos := h.pos
  room := h.room
  count := h.count
  bytes := h.bytes.trans (hperm.map _).sum_eq.symm
  fits := h.fits

theorem get (h : s.Sound hash) (key : Bytes) (readTs : ℕ) : Sound hash (s.get hash key readTs).2 := by
  unfold Shard.get
  split
  · exact h
  · next slot hfind =>
    split
    · exact h
    · split
      · exact h
      · obtain ⟨i, hi, hidx, -⟩ := h.indexed.of_findSlot hfind
        rw [hidx]
        exact h.reorder (List.perm_cons_erase hi).symm

/-- A reader that sees the timestamp gets the value that a bucket refers to. -/
theorem get_of_finds (hslot : s.Finds hash i slot) {value : Bytes} {ts : ℕ} (hentry : s.entries[i]? = some ⟨key, value, ts⟩)
    {readTs : ℕ} (hle : ts ≤ readTs) : (s.get hash key readTs).1 = some value := by
  have hfind := hslot.1
  have hkey : s.keyAt i = key := by
    rw [keyAt, hentry]
    rfl
  rw [hkey] at hfind
  unfold Shard.get
  rw [hfind]
  simp only [hslot.idxAt, hentry, if_neg (Nat.not_lt_of_le hle)]

/-- An entry is written over. -/
theorem overwrite (h : s.Sound hash) (hi : i ∈ s.lru) (value : Bytes) (ts : ℕ)
    (hfits : s.currentBytes - (s.valueAt i).length + value.length ≤ s.maxBytes) :
    Sound hash { s.touch i with
      entries := s.entries.set i ⟨s.keyAt i, value, ts⟩
      currentBytes := s.currentBytes - (s.valueAt i).length + value.length } := by
  let t : Shard := { s.touch i with
    entries := s.entries.set i ⟨s.keyAt i, value, ts⟩
    currentBytes := s.currentBytes - (s.valueAt i).length + value.length }
  have hlt := h.indexed.bound i hi
  have hperm : (i :: s.lru.erase i).Perm s.lru := (List.perm_cons_erase hi).symm
  have hself : t.entries[i]? = some ⟨s.keyAt i, value, ts⟩ := List.getElem?_set_self hlt
  have hother : ∀ j, j ≠ i → t.entries[j]? = s.entries[j]? := fun j hj => List.getElem?_set_ne (Ne.symm hj)
  have hkeys : ∀ j, t.keyAt j = s.keyAt j := by
    intro j
    by_cases hj : j = i
    · rw [hj, keyAt, hself]
      rfl
    · rw [keyAt, keyAt, hother j hj]
  have hrest : (s.lru.erase i).map (fun j => (t.valueAt j).length) = (s.lru.erase i).map fun j => (s.valueAt j).length := by
    refine List.map_congr_left fun j hj => ?_
    have hne : j ≠ i := ((h.indexed.nodup.mem_erase_iff).mp hj).1
    rw [valueAt, valueAt, hother j hne]
  have hvalue : t.valueAt i = value := by
    rw [valueAt, hself]
    rfl
  have hsum : s.currentBytes = (s.valueAt i).length + ((s.lru.erase i).map fun j => (s.valueAt j).length).sum := by
    rw [h.bytes, ← (hperm.map _).sum_eq, List.map_cons, List.sum_cons]
  refine ⟨(h.indexed.perm hperm).congr rfl (List.length_set ..) hkeys, hperm.trans h.dense, ?_, h.pos, h.room, h.count, ?_,
    hfits⟩
  · exact (List.length_set ..).trans h.entries
  · show s.currentBytes - (s.valueAt i).length + value.length = ((i :: s.lru.erase i).map fun j => (t.valueAt j).length).sum
    rw [List.map_cons, List.sum_cons, hrest, hvalue]
    omega

/-- A new entry takes an index that is not in use; `s` is what is left of the shard. -/
theorem entered (hindexed : Indexed hash s live) {idx : ℕ} (hidx : idx < s.entries.length) (hfresh : idx ∉ live)
    (hnew : ∀ i ∈ live, s.keyAt i ≠ key) {value : Bytes} (ts : ℕ) (hlru : s.lru = live)
    (hdense : (idx :: live).Perm (List.range (s.entryCount + 1))) (hentries : s.entries.length = s.maxEntries)
    (hroom : s.maxEntries * 2 ≤ s.buckets.length) (hcount : s.entryCount < s.maxEntries)
    (hbytes : s.currentBytes = (live.map fun i => (s.valueAt i).length).sum)
    (hfits : s.currentBytes + value.length ≤ s.maxBytes) :
    Sound hash (s.place hash idx key value ts) ∧
      ∀ readTs, ts ≤ readTs → ((s.place hash idx key value ts).get hash key readTs).1 = some value := by
  let t := s.place hash idx key value ts
  have hlen : live.length = s.entryCount := by
    have := hdense.length_eq
    rw [List.length_cons, List.length_range] at this
    omega
  obtain ⟨hplaced, slot, hslot⟩ := hindexed.place (by omega) hidx hfresh hnew value ts
  have hself : t.entries[idx]? = some ⟨key, value, ts⟩ := List.getElem?_set_self hidx
  have hrest : live.map (fun j => (t.valueAt j).length) = live.map fun j => (s.valueAt j).length := by
    refine List.map_congr_left fun j hj => ?_
    have hne : idx ≠ j := fun heq => hfresh (heq ▸ hj)
    have hother : t.entries[j]? = s.entries[j]? := List.getElem?_set_ne hne
    rw [valueAt, valueAt, hother]
  have hvalue : t.valueAt idx = value := by
    rw [valueAt, hself]
    rfl
  have horder : t.lru = idx :: live := congrArg (idx :: ·) hlru
  refine ⟨⟨horder ▸ hplaced, horder ▸ hdense, ?_, Nat.zero_lt_of_lt hcount, ?_, hcount, ?_, hfits⟩, ?_⟩
  · exact (List.length_set ..).trans hentries
  · refine Nat.le_trans hroom (Nat.le_of_eq ?_)
    exact (List.length_set ..).symm
  · show s.currentBytes + value.length = (t.lru.map fun j => (t.valueAt j).length).sum
    rw [horder, List.map_cons, List.sum_cons, hrest, hvalue, hbytes, Nat.add_comm]
  · exact fun readTs hle => get_of_finds hslot hself hle

theorem not_crowded (h : s.Sound hash) (hcount : s.entryCount < s.maxEntries) : s.rehashIfCrowded = s := by
  have := h.room
  rw [rehashIfCrowded, if_neg (by omega)]

/-- A key that no search finds has no entry. -/
theorem keys_ne (h : s.Sound hash) (hnone : s.findSlot key (hash32 hash key) = none) : ∀ i ∈ s.lru, s.keyAt i ≠ key := by
  rintro i hi rfl
  obtain ⟨slot, hslot⟩ := h.indexed.found i hi
  rw [hslot.1] at hnone
  cases hnone

/-- `Evict` frees the entry at the tail, if its bucket spares the others. -/
theorem evict (h : s.Sound hash) (hspares : s.Spares hash) {tail : ℕ} (htail : s.lru.getLast? = some tail) :
    ∃ slot, s.evict hash = (some tail, { s.clearBucket slot with
        lru := s.lru.erase tail
        currentBytes := s.currentBytes - (s.valueAt tail).length }) ∧
      Indexed hash (s.clearBucket slot) (s.lru.erase tail) := by
  have hmem := List.mem_of_getLast? htail
  obtain ⟨slot, hslot⟩ := h.indexed.found tail hmem
  refine ⟨slot, ?_, h.indexed.clear hslot (hspares tail htail slot hslot.1)⟩
  unfold Shard.evict
  rw [htail]
  simp only [hslot.1, hslot.idxAt]

section Put

variable (h : s.Sound hash) {value : Bytes} {ts : ℕ}

include h

/-- The value of a key that has an entry is written over. -/
theorem put_hit (hok : s.Accounted hash (.put key value ts)) (hfind : s.findSlot key (hash32 hash key) = some slot) :
    Sound hash (s.put hash key value ts) ∧
      ∀ readTs, ts ≤ readTs → ((s.put hash key value ts).get hash key readTs).1 = some value := by
  obtain ⟨i, hi, hidx, hkey, -⟩ := h.indexed.of_findSlot hfind
  have hput : s.put hash key value ts = { s.touch i with
      entries := s.entries.set i ⟨s.keyAt i, value, ts⟩
      currentBytes := s.currentBytes - (s.valueAt i).length + value.length } := by
    unfold Shard.put
    rw [hfind]
    simp only [hidx]
  have hfits := hok.1 slot hfind
  rw [hidx] at hfits
  have hsound := h.overwrite hi value ts hfits
  rw [← hput] at hsound
  have hentry : (s.put hash key value ts).entries[i]? = some ⟨key, value, ts⟩ := by
    rw [hput, ← hkey]
    exact List.getElem?_set_self (h.indexed.bound i hi)
  have hmem : i ∈ (s.put hash key value ts).lru := by
    rw [hput]
    exact List.mem_cons_self
  obtain ⟨slot', hslot⟩ := hsound.indexed.found i hmem
  exact ⟨hsound, fun readTs hle => get_of_finds hslot hentry hle⟩

/-- A new key takes the next index. -/
theorem put_fresh (hfind : s.findSlot key (hash32 hash key) = none) (hcount : s.entryCount < s.maxEntries)
    (hfits : s.currentBytes + value.length ≤ s.maxBytes) :
    Sound hash (s.put hash key value ts) ∧
      ∀ readTs, ts ≤ readTs → ((s.put hash key value ts).get hash key readTs).1 = some value := by
  have hput : s.put hash key value ts = s.place hash s.entryCount key value ts := by
    unfold Shard.put
    rw [hfind]
    simp only [if_neg (not_or.mpr ⟨Nat.not_le.mpr hcount, Nat.not_lt.mpr hfits⟩), h.not_crowded hcount]
  have hfresh : s.entryCount ∉ s.lru := fun hmem => absurd (List.mem_range.mp (h.dense.mem_iff.mp hmem)) (Nat.lt_irrefl _)
  have hdense : (s.entryCount :: s.lru).Perm (List.range (s.entryCount + 1)) := by
    rw [List.range_succ]
    exact (h.dense.cons _).trans (List.perm_append_singleton _ _).symm
  rw [hput]
  exact entered h.indexed (h.entries ▸ hcount) hfresh (h.keys_ne hfind) ts rfl hdense h.entries h.room hcount h.bytes hfits

/-- A new key takes the index of the entry at the tail. -/
theorem put_evict (hfind : s.findSlot key (hash32 hash key) = none)
    (hfull : s.maxEntries ≤ s.entryCount ∨ s.maxBytes < s.currentBytes + value.length) (hspares : s.Spares hash)
    {tail : ℕ} (htail : s.lru.getLast? = some tail)
    (henough : s.currentBytes - (s.valueAt tail).length + value.length ≤ s.maxBytes) :
    Sound hash (s.put hash key value ts) ∧
      ∀ readTs, ts ≤ readTs → ((s.put hash key value ts).get hash key readTs).1 = some value := by
  have hmem := List.mem_of_getLast? htail
  have hperm := List.perm_cons_erase hmem
  obtain ⟨slot, hevict, hindexed⟩ := h.evict hspares htail
  let t : Shard := { s.clearBucket slot with
    lru := s.lru.erase tail
    currentBytes := s.currentBytes - (s.valueAt tail).length
    entryCount := s.entryCount - 1 }
  have hpos : 0 < s.entryCount := by
    have := List.length_pos_of_mem hmem
    rw [h.length_lru] at this
    exact this
  have hlt : t.entryCount < t.maxEntries := by
    have := h.count
    show s.entryCount - 1 < s.maxEntries
    omega
  have hroom : t.maxEntries * 2 ≤ t.buckets.length := by
    show s.maxEntries * 2 ≤ (s.buckets.modify slot _).length
    rw [List.length_modify]
    exact h.room
  have hput : s.put hash key value ts = t.place hash tail key value ts := by
    have hcalm : t.rehashIfCrowded = t := by rw [rehashIfCrowded, if_neg (by omega)]
    unfold Shard.put
    rw [hfind]
    simp only [if_pos hfull, hevict]
    show t.rehashIfCrowded.place hash tail key value ts = _
    rw [hcalm]
  have hdense : (tail :: s.lru.erase tail).Perm (List.range (t.entryCount + 1)) := by
    rw [show t.entryCount + 1 = s.entryCount from Nat.sub_add_cancel hpos]
    exact hperm.symm.trans h.dense
  have hbytes : t.currentBytes = ((s.lru.erase tail).map fun j => (t.valueAt j).length).sum := by
    have hsum : s.currentBytes = (s.valueAt tail).length + ((s.lru.erase tail).map fun j => (s.valueAt j).length).sum := by
      rw [h.bytes, (hperm.map _).sum_eq, List.map_cons, List.sum_cons]
    show s.currentBytes - (s.valueAt tail).length = ((s.lru.erase tail).map fun j => (s.valueAt j).length).sum
    omega
  have hleft : Indexed hash t (s.lru.erase tail) := hindexed.congr rfl rfl fun _ => rfl
  rw [hput]
  exact entered hleft (h.indexed.bound tail hmem) h.indexed.nodup.not_mem_erase
    (fun i hi => h.keys_ne hfind i (List.mem_of_mem_erase hi)) ts rfl hdense h.entries hroom hlt hbytes henough

/-- A put value is found under its key, unless it is too large for an empty shard. -/
theorem put (hok : s.Accounted hash (.put key value ts)) :
    Sound hash (s.put hash key value ts) ∧ (value.length ≤ s.maxBytes →
      ∀ readTs, ts ≤ readTs → ((s.put hash key value ts).get hash key readTs).1 = some value) := by
  cases hfind : s.findSlot key (hash32 hash key) with
  | some slot => exact (h.put_hit hok hfind).imp_right fun hread _ => hread
  | none =>
    by_cases hfull : s.maxEntries ≤ s.entryCount ∨ s.maxBytes < s.currentBytes + value.length
    · obtain ⟨hspares, henough⟩ := hok.2 ⟨hfind, hfull⟩
      cases htail : s.lru.getLast? with
      | none =>
        have hput : s.put hash key value ts = s := by
          unfold Shard.put
          rw [hfind]
          simp only [if_pos hfull, Shard.evict, htail]
        have hempty : s.lru = [] := List.getLast?_eq_none_iff.mp htail
        have hcount := h.length_lru
        have hbytes := h.bytes
        rw [hempty] at hcount hbytes
        simp only [List.length_nil, List.map_nil, List.sum_nil] at hcount hbytes
        have := h.pos
        exact ⟨hput.symm ▸ h, fun hle => by omega⟩
      | some tail =>
        exact (h.put_evict hfind hfull hspares htail (henough tail htail)).imp_right fun hread _ => hread
    · push Not at hfull
      exact (h.put_fresh hfind hfull.1 hfull.2).imp_right fun hread _ => hread

end Put

theorem init (perE perB : ℕ) : Sound hash (Shard.init (max 1 perE) perB) := by
  obtain ⟨k, hk, hle, -⟩ := FlatCache.Shard.bucketCount_spec (max 1 perE * 2) (max 1 perE * 2) 0 (by omega)
  refine ⟨⟨List.nodup_nil, nofun, nofun, ?_⟩, List.Perm.nil, List.length_replicate .., Nat.le_max_left 1 perE, ?_,
    Nat.zero_le _, rfl, Nat.zero_le _⟩
  · intro slot b i hb hi
    rw [(List.mem_replicate.mp (List.mem_of_getElem? hb)).2] at hi
    cases hi
  · show max 1 perE * 2 ≤ (List.replicate (bucketCount (max 1 perE * 2) (max 1 perE * 2) 1) _).length
    rw [List.length_replicate]
    exact hk ▸ hle

/-- A call that the counters account for keeps what they count. -/
theorem call (h : s.Sound hash) {c : Call} (hok : s.Accounted hash c) : Sound hash (s.call hash c) := by
  cases c with
  | get key readTs => exact h.get key readTs
  | put key value ts => exact (h.put hok).1
  | erase key =>
    have hsame : s.erase hash key = s := by
      unfold Shard.erase
      rw [show s.findSlot key (hash32 hash key) = none from hok]
    show Sound hash (s.erase hash key)
    rw [hsame]
    exact h

end Sound

/-- The calls of a shard, as steps. -/
def step (hash : Bytes → ℕ) (s : Shard) (c : Call) : Option Shard := some (s.call hash c)

end Shard

/-- Three keys in a shard of two entries and ten bytes, with one eviction. -/
def accountedCalls : List Call :=
  [.put [1] [0, 0, 0] 1, .put [2] [0, 0, 0] 2, .erase [3], .get [1] 9, .put [3] [0, 0, 0, 0] 3, .put [1] [0] 4]

/-- A shard without live buckets counts no entries. -/
theorem Shard.not_counted {hash : Bytes → ℕ} {s : Shard} (hempty : ∀ b ∈ s.buckets, b.idx = none) (hcount : s.entryCount ≠ 0) :
    ¬ s.Counted hash := by
  rintro ⟨items, -, hget, hlen, -⟩
  obtain ⟨⟨key, value⟩, hitem⟩ := List.exists_mem_of_length_pos (hlen ▸ Nat.pos_of_ne_zero hcount)
  obtain ⟨readTs, hhit⟩ := (hget key value).mp hitem
  unfold Shard.get at hhit
  cases hfind : s.findSlot key (Shard.hash32 hash key) with
  | none =>
    rw [hfind] at hhit
    cases hhit
  | some slot =>
    obtain ⟨b, e, hb, hidx, -⟩ := Shard.findSlot_bucket hfind
    rw [hempty b (List.mem_of_getElem? hb)] at hidx
    cases hidx

end Kvdb.KVCache
