import Kvdb.MemTable.Order
import Kvdb.SSTable.Reader

/-! # What SSTable files and the cache hold

The bloom filter of a file rejects none of its keys. A flush writes, for a sorted walk, the newest
version of each non-empty key in strictly ascending order. `LookupKey` returns a visible version of
the key out of a block that it found in the cache or read from the file, and caches only blocks that
it has read. -/
namespace Kvdb
set_option autoImplicit false

namespace BloomFilter

theorem add_subset (b : BloomFilter) (key : Bytes) : b.setBits ⊆ (b.add key).setBits :=
  List.subset_append_right _ _

theorem foldl_add_bits (keys : List Bytes) (b : BloomFilter) :
    (keys.foldl add b).bits = b.bits ∧ (keys.foldl add b).hashCount = b.hashCount := by
  induction keys generalizing b with
  | nil => exact ⟨rfl, rfl⟩
  | cons k keys ih => exact ih (b.add k)

theorem foldl_add_subset (keys : List Bytes) (b : BloomFilter) :
    b.setBits ⊆ (keys.foldl add b).setBits := by
  induction keys generalizing b with
  | nil => exact fun _ h => h
  | cons k keys ih => exact List.Subset.trans (b.add_subset k) (ih (b.add k))

theorem probe_mem_foldl_add (keys : List Bytes) (b : BloomFilter) (key : Bytes) (h : key ∈ keys) (i : ℕ)
    (hi : i < b.hashCount) : probe b.bits key i ∈ (keys.foldl add b).setBits := by
  induction keys generalizing b with
  | nil => cases h
  | cons k keys ih =>
    rcases List.mem_cons.mp h with rfl | h
    · refine foldl_add_subset keys (b.add key) ?_
      exact List.mem_append_left _ (List.mem_map_of_mem (List.mem_range.mpr hi))
    · exact ih (b.add k) h hi

/-- No false negatives. -/
theorem ofKeys_mightContain (sizing : ℕ → ℕ × ℕ) (n : ℕ) (keys : List Bytes) (key : Bytes) (h : key ∈ keys) :
    (ofKeys sizing n keys).mightContain key = true := by
  obtain ⟨hbits, hcount⟩ := foldl_add_bits keys ⟨(sizing n).1, (sizing n).2, []⟩
  rw [mightContain, List.all_eq_true]
  intro i hi
  rw [List.mem_range] at hi
  unfold ofKeys at hi ⊢
  rw [hbits]
  exact decide_eq_true (probe_mem_foldl_add keys _ key h i (by rwa [hcount] at hi))

theorem ofKeys_rejects (sizing : ℕ → ℕ × ℕ) (n : ℕ) (keys : List Bytes) (key : Bytes) (h : key ∈ keys) :
    (ofKeys sizing n keys).rejects key = false := by
  simp [rejects, ofKeys_mightContain sizing n keys key h]

end BloomFilter

namespace SSTableFile

/-! ## The entries of a flush -/

theorem selectNewest_subset (best : KeyValuePair) (hasBest : Bool) (es : List KeyValuePair) :
    ∀ x ∈ selectNewest best hasBest es, (x = best ∧ hasBest = true) ∨ x ∈ es := by
  induction es generalizing best hasBest with
  | nil =>
    intro x hx
    cases hasBest with
    | false => cases hx
    | true => exact .inl ⟨List.mem_singleton.mp hx, rfl⟩
  | cons e es ih =>
    intro x hx
    have hrest : ∀ b h, x ∈ selectNewest b h es → ((b = e ∨ (b = best ∧ (h = true → hasBest = true))) →
        (x = best ∧ hasBest = true) ∨ x ∈ e :: es) := by
      intro b h hmem hb
      rcases ih b h x hmem with ⟨rfl, rfl⟩ | hmem
      · rcases hb with rfl | ⟨rfl, hh⟩
        · exact .inr List.mem_cons_self
        · exact .inl ⟨rfl, hh rfl⟩
      · exact .inr (List.mem_cons_of_mem e hmem)
    unfold selectNewest at hx
    split at hx
    · split at hx
      · next hb =>
        rcases List.mem_cons.mp hx with rfl | hx
        · exact .inl ⟨rfl, hb⟩
        · exact hrest e true hx (.inl rfl)
      · exact hrest e true hx (.inl rfl)
    · split at hx
      · exact hrest e hasBest hx (.inl rfl)
      · exact hrest best hasBest hx (.inr ⟨rfl, id⟩)

theorem flushEntries_subset (walk : List KeyValuePair) : ∀ x ∈ flushEntries walk, x ∈ walk := by
  intro x hx
  rcases selectNewest_subset _ _ _ x hx with ⟨-, h⟩ | h
  · cases h
  · exact h

/-- For every version the scan has seen, it writes one of the same key that is no older. -/
theorem selectNewest_newest (best : KeyValuePair) (hasBest : Bool) (es : List KeyValuePair)
    (hbest : hasBest = false → best.key = []) (x : KeyValuePair) (hkey : x.key ≠ [])
    (hx : x ∈ es ∨ (x.key = best.key ∧ x.timestamp ≤ best.timestamp)) :
    ∃ y ∈ selectNewest best hasBest es, y.key = x.key ∧ x.timestamp ≤ y.timestamp := by
  induction es generalizing best hasBest with
  | nil =>
    obtain ⟨hsame, hts⟩ := hx.resolve_left List.not_mem_nil
    cases hasBest with
    | false => exact absurd (hsame.trans (hbest rfl)) hkey
    | true => exact ⟨best, List.mem_singleton.mpr rfl, hsame.symm, hts⟩
  | cons e es ih =>
    unfold selectNewest
    by_cases hek : e.key = best.key
    · rw [if_neg (not_not.mpr hek)]
      split
      · next hlt =>
        refine ih e hasBest (fun hb => hek.trans (hbest hb)) ?_
        rcases hx with hx | ⟨hsame, hts⟩
        · rcases List.mem_cons.mp hx with rfl | hx
          · exact .inr ⟨rfl, Nat.le_refl _⟩
          · exact .inl hx
        · exact .inr ⟨hsame.trans hek.symm, by omega⟩
      · next hge =>
        refine ih best hasBest hbest ?_
        rcases hx with hx | hx
        · rcases List.mem_cons.mp hx with rfl | hx
          · exact .inr ⟨hek, Nat.le_of_not_lt hge⟩
          · exact .inl hx
        · exact .inr hx
    · rw [if_pos hek]
      have hrest : x ∈ e :: es →
          ∃ y ∈ selectNewest e true es, y.key = x.key ∧ x.timestamp ≤ y.timestamp := by
        intro hx
        refine ih e true (fun hb => by cases hb) ?_
        rcases List.mem_cons.mp hx with rfl | hx
        · exact .inr ⟨rfl, Nat.le_refl _⟩
        · exact .inl hx
      split
      · rcases hx with hx | ⟨hsame, hts⟩
        · obtain ⟨y, hy, hrel⟩ := hrest hx
          exact ⟨y, List.mem_cons_of_mem _ hy, hrel⟩
        · exact ⟨best, List.mem_cons_self, hsame.symm, hts⟩
      · next hb =>
        rcases hx with hx | ⟨hsame, -⟩
        · exact hrest hx
        · exact absurd (hsame.trans (hbest (by simpa using hb))) hkey

theorem flushEntries_newest (walk : List KeyValuePair) (x : KeyValuePair) (hx : x ∈ walk) (hkey : x.key ≠ []) :
    ∃ y ∈ flushEntries walk, y.key = x.key ∧ x.timestamp ≤ y.timestamp :=
  selectNewest_newest _ _ walk (fun _ => rfl) x hkey (.inl hx)

/-- Strictly ascending keys: one version of each key. -/
def Ascending (es : List KeyValuePair) : Prop := es.Pairwise fun a b => a.key < b.key

/-- Keys in order, with any number of versions of a key. -/
def KeySorted (es : List KeyValuePair) : Prop := es.Pairwise fun a b => a.key ≤ b.key

instance decidableKeySorted (es : List KeyValuePair) : Decidable (KeySorted es) :=
  inferInstanceAs (Decidable (es.Pairwise fun a b => a.key ≤ b.key))

theorem Ascending.keySorted {es : List KeyValuePair} (h : Ascending es) : KeySorted es := h.imp le_of_lt

theorem Ascending.eq_of_key {es : List KeyValuePair} (h : Ascending es) {x y : KeyValuePair} (hx : x ∈ es)
    (hy : y ∈ es) (hkey : x.key = y.key) : x = y := by
  have hnodup : (es.map KeyValuePair.key).Nodup := List.pairwise_map.mpr (h.imp ne_of_lt)
  exact List.inj_on_of_nodup_map hnodup hx hy hkey

/-- The order of a walk in which a key may have several versions of one timestamp. -/
def Descending (a b : KeyValuePair) : Prop := a.key < b.key ∨ (a.key = b.key ∧ b.timestamp ≤ a.timestamp)

theorem Descending.key_le {a b : KeyValuePair} (h : Descending a b) : a.key ≤ b.key := by
  rcases h with h | h
  · exact le_of_lt h
  · exact le_of_eq h.1

theorem Descending.of_before {a b : KeyValuePair} (h : Before a b) : Descending a b :=
  h.imp_right fun h => ⟨h.1, Nat.le_of_lt h.2⟩

theorem versionsOf_cons (key : Bytes) (e : KeyValuePair) (es : List KeyValuePair) :
    versionsOf key (e :: es) = if e.key = key then e :: versionsOf key es else versionsOf key es := by
  simp only [versionsOf, List.filter_cons, decide_eq_true_eq]

theorem nil_le (k : Bytes) : ([] : Bytes) ≤ k := by
  rcases lt_or_ge k [] with h | h
  · exact absurd h (List.not_lt_nil k)
  · exact h

/-- The scan goes up from its current key, which it does not write if there is nothing to write. -/
theorem selectNewest_ascending (best : KeyValuePair) (hasBest : Bool) (es : List KeyValuePair) (h : KeySorted (best :: es)) :
    Ascending (selectNewest best hasBest es) ∧
      ∀ x ∈ selectNewest best hasBest es, best.key ≤ x.key ∧ (hasBest = false → best.key ≠ x.key) := by
  induction es generalizing best hasBest with
  | nil =>
    cases hasBest with
    | false => exact ⟨List.Pairwise.nil, fun _ hx => (by cases hx)⟩
    | true =>
      refine ⟨List.pairwise_singleton _ _, fun x hx => ⟨?_, fun hfalse => (by cases hfalse)⟩⟩
      rw [List.mem_singleton.mp hx]
  | cons e es ih =>
    obtain ⟨hbest, htail⟩ := List.pairwise_cons.mp h
    have hbe := hbest e List.mem_cons_self
    by_cases hkey : e.key = best.key
    · rw [selectNewest, if_neg (not_not.mpr hkey)]
      split
      · obtain ⟨hasc, hge⟩ := ih e hasBest htail
        exact ⟨hasc, fun x hx => hkey ▸ hge x hx⟩
      · exact ih best hasBest (List.pairwise_cons.mpr ⟨fun x hx => hbest x (List.mem_cons_of_mem e hx), htail.of_cons⟩)
    · have hlt : best.key < e.key := lt_of_le_of_ne hbe (Ne.symm hkey)
      obtain ⟨hasc, hge⟩ := ih e true htail
      have habove : ∀ x ∈ selectNewest e true es, best.key < x.key := fun x hx => lt_of_lt_of_le hlt (hge x hx).1
      rw [selectNewest, if_pos hkey]
      split
      · next hb =>
        refine ⟨List.pairwise_cons.mpr ⟨habove, hasc⟩, fun x hx => ⟨?_, fun hfalse => (by rw [hb] at hfalse; cases hfalse)⟩⟩
        rcases List.mem_cons.mp hx with rfl | hx
        · exact le_refl _
        · exact le_of_lt (habove x hx)
      · exact ⟨hasc, fun x hx => ⟨le_of_lt (habove x hx), fun _ => ne_of_lt (habove x hx)⟩⟩

/-- A flush of a walk in key order writes ascending keys, and never the empty one. -/
theorem flushEntries_ascending (walk : List KeyValuePair) (h : KeySorted walk) :
    Ascending (flushEntries walk) ∧ ∀ x ∈ flushEntries walk, x.key ≠ [] := by
  obtain ⟨hasc, hge⟩ :=
    selectNewest_ascending ⟨[], [], 0, false⟩ false walk (List.pairwise_cons.mpr ⟨fun x _ => nil_le x.key, h⟩)
  exact ⟨hasc, fun x hx => ((hge x hx).2 rfl).symm⟩

/-- The version that a flush writes is the newest of its key. -/
theorem flushEntries_top (walk : List KeyValuePair) (h : KeySorted walk) {x y : KeyValuePair} (hx : x ∈ flushEntries walk)
    (hy : y ∈ walk) (hkey : y.key = x.key) : y.timestamp ≤ x.timestamp := by
  obtain ⟨hasc, hkeys⟩ := flushEntries_ascending walk h
  obtain ⟨z, hz, hzkey, hle⟩ := flushEntries_newest walk y hy (hkey ▸ hkeys x hx)
  rwa [← hasc.eq_of_key hz hx (hzkey.trans hkey)]

/-- The scan after its current version `best`: no later version of `best.key` is newer, so `best` is written
and the first versions of the later keys follow. -/
theorem selectNewest_heads (best : KeyValuePair) (es : List KeyValuePair) (h : (best :: es).Pairwise Descending) (key : Bytes) :
    versionsOf key (selectNewest best true es) = (versionsOf key (best :: es)).head?.toList := by
  induction es generalizing best with
  | nil =>
    rw [selectNewest, if_pos rfl, versionsOf_cons]
    split <;> rfl
  | cons e es ih =>
    obtain ⟨hbest, htail⟩ := List.pairwise_cons.mp h
    have hbe := hbest e List.mem_cons_self
    by_cases hkey : e.key = best.key
    · have hts : ¬ best.timestamp < e.timestamp := by
        rcases hbe with hlt | ⟨-, hle⟩
        · exact absurd hkey.symm (ne_of_lt hlt)
        · omega
      have heq : selectNewest best true (e :: es) = selectNewest best true es := by
        rw [selectNewest, if_neg (not_not.mpr hkey), if_neg hts]
      have hskip : (best :: es).Pairwise Descending :=
        List.pairwise_cons.mpr ⟨fun x hx => hbest x (List.mem_cons_of_mem e hx), htail.of_cons⟩
      rw [heq, ih best hskip, versionsOf_cons, versionsOf_cons key best, versionsOf_cons key e, hkey]
      split <;> rfl
    · have hlt : best.key < e.key := lt_of_le_of_ne hbe.key_le (Ne.symm hkey)
      have heq : selectNewest best true (e :: es) = best :: selectNewest e true es := by
        rw [selectNewest, if_pos hkey, if_pos rfl]
      obtain ⟨-, hge⟩ := selectNewest_ascending e true es (htail.imp Descending.key_le)
      rw [heq, versionsOf_cons, versionsOf_cons key best]
      split
      · next hk =>
        rw [versionsOf_eq_nil fun x hx => hk ▸ ne_of_gt (lt_of_lt_of_le hlt (hge x hx).1)]
        rfl
      · exact ih e htail

/-- A flush of such a walk writes the first version of every key but the empty one. -/
theorem flushEntries_heads (walk : List KeyValuePair) (h : walk.Pairwise Descending) :
    Ascending (flushEntries walk) ∧ (∀ x ∈ flushEntries walk, x.key ≠ []) ∧
      ∀ key, key ≠ [] → versionsOf key (flushEntries walk) = (versionsOf key walk).head?.toList := by
  -- versions of the empty key stand at the front and nothing is written for them
  have hskip : ∀ best : KeyValuePair, best.key = [] → ∀ es : List KeyValuePair, es.Pairwise Descending →
      ∀ key, key ≠ [] → versionsOf key (selectNewest best false es) = (versionsOf key es).head?.toList := by
    intro best hbest es
    induction es generalizing best with
    | nil => exact fun _ _ _ => rfl
    | cons e es ih =>
      intro hes key hne
      obtain ⟨hhead, htail⟩ := List.pairwise_cons.mp hes
      by_cases hkey : e.key = []
      · have hnext : ∃ b : KeyValuePair, b.key = [] ∧
            selectNewest best false (e :: es) = selectNewest b false es := by
          rw [selectNewest, if_neg (not_not.mpr (hkey.trans hbest.symm))]
          split
          · exact ⟨e, hkey, rfl⟩
          · exact ⟨best, hbest, rfl⟩
        obtain ⟨b, hb, heq⟩ := hnext
        rw [heq, ih b hb htail key hne, versionsOf_cons, if_neg fun heq => hne (heq.symm.trans hkey)]
      · have heq : selectNewest best false (e :: es) = selectNewest e true es := by
          rw [selectNewest, if_pos (by rw [hbest]; exact hkey), if_neg Bool.false_ne_true]
        rw [heq]
        exact selectNewest_heads e es hes key
  obtain ⟨hasc, hkeys⟩ := flushEntries_ascending walk (h.imp Descending.key_le)
  exact ⟨hasc, hkeys, hskip _ rfl walk h⟩

/-- A flush of a sorted walk writes the newest version of every key but the empty one. -/
theorem flushEntries_sorted (walk : List KeyValuePair) (h : walk.Pairwise Before) :
    Ascending (flushEntries walk) ∧
      ∀ x, x ∈ flushEntries walk ↔
        x ∈ walk ∧ x.key ≠ [] ∧ ∀ y ∈ walk, y.key = x.key → y.timestamp ≤ x.timestamp := by
  have hsorted : KeySorted walk := h.imp fun hab => (Descending.of_before hab).key_le
  obtain ⟨hasc, hkeys⟩ := flushEntries_ascending walk hsorted
  refine ⟨hasc, fun x => ⟨fun hx => ⟨flushEntries_subset walk x hx, hkeys x hx,
    fun y hy hyx => flushEntries_top walk hsorted hx hy hyx⟩, ?_⟩⟩
  rintro ⟨hx, hne, htop⟩
  obtain ⟨y, hy, hykey, hle⟩ := flushEntries_newest walk x hx hne
  have hywalk := flushEntries_subset walk y hy
  have hts : y.timestamp = x.timestamp := Nat.le_antisymm (htop y hywalk hykey) hle
  exact eq_of_before h hywalk hx hykey hts ▸ hy

theorem entries_writeFromWalk (sizing : ℕ → ℕ × ℕ) (walk : List KeyValuePair) (n : ℕ) (aborted : List ℕ) :
    (writeFromWalk sizing walk n aborted).entries = flushEntries walk := Pack.pack_flatten _ _ _ _

theorem entries_write (sizing : ℕ → ℕ × ℕ) (es : List KeyValuePair) (aborted : List ℕ) :
    (write sizing es aborted).entries = es := Pack.pack_flatten _ _ _ _

end SSTableFile

/-! ## Reading through the cache -/

/-- Every cached block stands in the relation `K` to the number and position it is cached under. -/
def CacheHolds (K : ℕ → ℕ → List KeyValuePair → Prop) (cache : Option SSTableCache) : Prop :=
  ∀ c, cache = some c → ∀ seq idx b, c.blocks seq idx = some b → K seq idx b

theorem CacheHolds.mono {K K' : ℕ → ℕ → List KeyValuePair → Prop} {cache : Option SSTableCache}
    (h : CacheHolds K cache) (hK : ∀ seq idx b, K seq idx b → K' seq idx b) : CacheHolds K' cache :=
  fun c hc seq idx b hb => hK seq idx b (h c hc seq idx b hb)

theorem CacheHolds.putBlock {K : ℕ → ℕ → List KeyValuePair → Prop} {cache : Option SSTableCache}
    (h : CacheHolds K cache) (seq idx : ℕ) (b : List KeyValuePair) (hb : K seq idx b) :
    CacheHolds K (cache.map fun c => c.putBlock seq idx b) := by
  intro c hc s i b' hb'
  obtain ⟨c0, hc0, rfl⟩ := Option.map_eq_some_iff.mp hc
  simp only [SSTableCache.putBlock] at hb'
  split at hb'
  · next heq =>
    obtain ⟨rfl, rfl⟩ := heq
    cases hb'
    exact hb
  · exact h c0 hc0 s i b' hb'

theorem CacheHolds.putHeavy {K : ℕ → ℕ → List KeyValuePair → Prop} {cache : Option SSTableCache}
    (h : CacheHolds K cache) (seq : ℕ) (hv : CachedHeavy) :
    CacheHolds K (cache.map fun c => c.putHeavy seq hv) := by
  intro c hc s i b hb
  obtain ⟨c0, hc0, rfl⟩ := Option.map_eq_some_iff.mp hc
  exact h c0 hc0 s i b hb

theorem CacheHolds.putBlocks {K : ℕ → ℕ → List KeyValuePair → Prop} {cache : Option SSTableCache}
    (h : CacheHolds K cache) (seq idx : ℕ) (bs : List (List KeyValuePair))
    (hbs : ∀ i b, bs[i]? = some b → K seq (idx + i) b) :
    CacheHolds K (cache.map fun c => c.putBlocks seq idx bs) := by
  induction bs generalizing idx cache with
  | nil =>
    intro c hc
    obtain ⟨c0, hc0, rfl⟩ := Option.map_eq_some_iff.mp hc
    exact h c0 hc0
  | cons b bs ih =>
    have hput := h.putBlock seq idx b (hbs 0 b rfl)
    have hrest := ih hput (idx + 1) fun i b' hb' => by
      have := hbs (i + 1) b' hb'
      rwa [Nat.add_assoc, Nat.add_comm 1 i]
    rw [Option.map_map] at hrest
    exact hrest

theorem CacheHolds.evict {K : ℕ → ℕ → List KeyValuePair → Prop} {cache : Option SSTableCache}
    (h : CacheHolds K cache) (keepHeavy : ℕ → Bool) (keepBlock : ℕ → ℕ → Bool) :
    CacheHolds K (cache.map fun c => c.evict keepHeavy keepBlock) := by
  intro c hc s i b hb
  obtain ⟨c0, hc0, rfl⟩ := Option.map_eq_some_iff.mp hc
  simp only [SSTableCache.evict] at hb
  split at hb
  · exact h c0 hc0 s i b hb
  · cases hb

theorem scanBlock_eq_some {aborted : List ℕ} {key : Bytes} {readTs : ℕ} {b : List KeyValuePair}
    {v : KeyValuePair} (h : scanBlock aborted key readTs b = some v) :
    v ∈ b ∧ v.key = key ∧ v.timestamp ≤ readTs := by
  have hp := List.find?_some h
  simp only [Bool.and_eq_true, decide_eq_true_eq] at hp
  exact ⟨List.mem_of_find?_eq_some h, hp.1.2, hp.2⟩

section LookupKey

variable {K : ℕ → ℕ → List KeyValuePair → Prop} {file : Option SSTableFile} {key : Bytes}
  {readTs seq : ℕ}

/-- What a found version is: a visible version of the key in a block of the relation. -/
def FoundIn (K : ℕ → ℕ → List KeyValuePair → Prop) (seq : ℕ) (key : Bytes) (readTs : ℕ)
    (v : KeyValuePair) : Prop :=
  ∃ idx b, K seq idx b ∧ v ∈ b ∧ v.key = key ∧ v.timestamp ≤ readTs

theorem searchBlock_spec (key : Bytes) (readTs : ℕ) (h : CachedHeavy) {cache : Option SSTableCache} (hc : CacheHolds K cache)
    (hread : ∀ idx, K seq idx (fileBlock file idx)) (idx : ℕ) :
    CacheHolds K (searchBlock file h key readTs seq cache idx).2 ∧
      ∀ v, (searchBlock file h key readTs seq cache idx).1 = some v → FoundIn K seq key readTs v := by
  unfold searchBlock
  split
  · exact ⟨hc, fun v hv => by cases hv⟩
  · split
    · next b hb =>
      obtain ⟨c, hcache, hblock⟩ := Option.bind_eq_some_iff.mp hb
      exact ⟨hc, fun v hv => ⟨idx, b, hc c hcache seq idx b hblock, scanBlock_eq_some hv⟩⟩
    · exact ⟨hc.putBlock seq idx _ (hread idx), fun v hv => ⟨idx, _, hread idx, scanBlock_eq_some hv⟩⟩

theorem searchBlocks_spec (h : CachedHeavy) {cache : Option SSTableCache} (hc : CacheHolds K cache)
    (hread : ∀ idx, K seq idx (fileBlock file idx)) (idxs : List ℕ) :
    CacheHolds K (searchBlocks file h key readTs seq idxs cache).2 ∧
      ∀ v, (searchBlocks file h key readTs seq idxs cache).1 = some v → FoundIn K seq key readTs v := by
  induction idxs generalizing cache with
  | nil => exact ⟨hc, fun v hv => by cases hv⟩
  | cons idx idxs ih =>
    have h1 := searchBlock_spec key readTs h hc hread idx
    rw [searchBlocks]
    split
    · exact h1
    · exact ih h1.1

theorem lookupIn_spec (h : CachedHeavy) {cache : Option SSTableCache} (hc : CacheHolds K cache)
    (hread : ∀ idx, K seq idx (fileBlock file idx)) :
    CacheHolds K (lookupIn file h key readTs seq cache).2 ∧
      ∀ v, (lookupIn file h key readTs seq cache).1 = some v → FoundIn K seq key readTs v := by
  unfold lookupIn
  split
  · exact ⟨hc, fun v hv => by cases hv⟩
  · split
    · exact ⟨hc, fun v hv => by cases hv⟩
    · exact searchBlocks_spec h hc hread _

theorem lookupKey_spec {cache : Option SSTableCache} (hc : CacheHolds K cache)
    (hread : ∀ idx, K seq idx (fileBlock file idx)) {r : Option KeyValuePair × Option SSTableCache}
    (hr : lookupKey file key readTs cache seq = some r) :
    CacheHolds K r.2 ∧ ∀ v, r.1 = some v → FoundIn K seq key readTs v := by
  unfold lookupKey at hr
  split at hr
  · cases hr
    exact lookupIn_spec _ hc hread
  · obtain ⟨⟨md, cache'⟩, hmd, rfl⟩ := Option.map_eq_some_iff.mp hr
    refine lookupIn_spec _ ?_ hread
    unfold readMetadata at hmd
    split at hmd
    · cases hmd
      exact hc
    · obtain ⟨f, -, hf⟩ := Option.map_eq_some_iff.mp hmd
      cases hf
      exact hc.putHeavy seq _

end LookupKey

end Kvdb
