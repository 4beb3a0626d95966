import Kvdb.SSTable.Reader

/-! # A cache that agrees with a file

Blocks and metadata are cached under a `manifest_seq` only. When what is cached under the number of
a file comes from that file, `LookupKey` through the cache answers as it does without one, and what
it adds to the cache comes from the file again. -/
namespace Kvdb
set_option autoImplicit false

namespace SSTableCache

/-- What is cached under `seq` comes from the file. -/
structure Agrees (c : SSTableCache) (seq : ℕ) (f : SSTableFile) : Prop where
  heavy : ∀ h, c.heavy seq = some h → h = f.heavy
  blocks : ∀ i b, c.blocks seq i = some b → b = fileBlock (some f) i

/-- Something is cached under `seq`. -/
def Caches (c : SSTableCache) (seq : ℕ) : Prop := c.heavy seq ≠ none ∨ ∃ i, c.blocks seq i ≠ none

/-- The caches differ at most under `seq`. -/
structure SameBut (seq : ℕ) (c c' : SSTableCache) : Prop where
  heavy : ∀ s, s ≠ seq → c'.heavy s = c.heavy s
  blocks : ∀ s, s ≠ seq → ∀ i, c'.blocks s i = c.blocks s i

theorem SameBut.refl (seq : ℕ) (c : SSTableCache) : SameBut seq c c := ⟨fun _ _ => rfl, fun _ _ _ => rfl⟩

theorem SameBut.trans {seq : ℕ} {c c' c'' : SSTableCache} (h : SameBut seq c c') (h' : SameBut seq c' c'') :
    SameBut seq c c'' :=
  ⟨fun s hs => (h'.heavy s hs).trans (h.heavy s hs), fun s hs i => (h'.blocks s hs i).trans (h.blocks s hs i)⟩

theorem SameBut.agrees {seq s : ℕ} {c c' : SSTableCache} {f : SSTableFile} (h : SameBut seq c c')
    (hs : s ≠ seq) (ha : Agrees c s f) : Agrees c' s f := by
  refine ⟨?_, ?_⟩
  · intro hv hhv
    exact ha.heavy hv (h.heavy s hs ▸ hhv)
  · intro i b hb
    exact ha.blocks i b (h.blocks s hs i ▸ hb)

theorem SameBut.caches {seq s : ℕ} {c c' : SSTableCache} (h : SameBut seq c c') (hs : s ≠ seq)
    (hc : c'.Caches s) : c.Caches s := by
  rcases hc with hc | ⟨i, hc⟩
  · exact .inl (h.heavy s hs ▸ hc)
  · exact .inr ⟨i, h.blocks s hs i ▸ hc⟩

theorem putHeavy_sameBut (c : SSTableCache) (seq : ℕ) (h : CachedHeavy) : SameBut seq c (c.putHeavy seq h) :=
  ⟨fun _ hs => if_neg hs, fun _ _ _ => rfl⟩

theorem putBlock_sameBut (c : SSTableCache) (seq idx : ℕ) (b : List KeyValuePair) :
    SameBut seq c (c.putBlock seq idx b) :=
  ⟨fun _ _ => rfl, fun _ hs _ => if_neg fun h => hs h.1⟩

theorem putBlocks_heavy (c : SSTableCache) (seq idx : ℕ) (bs : List (List KeyValuePair)) :
    (c.putBlocks seq idx bs).heavy = c.heavy := by
  induction bs generalizing c idx with
  | nil => rfl
  | cons b bs ih => exact ih (c.putBlock seq idx b) (idx + 1)

theorem putBlocks_sameBut (c : SSTableCache) (seq idx : ℕ) (bs : List (List KeyValuePair)) :
    SameBut seq c (c.putBlocks seq idx bs) := by
  induction bs generalizing c idx with
  | nil => exact SameBut.refl seq c
  | cons b bs ih => exact (putBlock_sameBut c seq idx b).trans (ih _ _)

variable {c : SSTableCache} {seq : ℕ} {f : SSTableFile}

theorem agrees_of_not_caches (h : ¬ c.Caches seq) : Agrees c seq f := by
  refine ⟨?_, ?_⟩
  · intro hv hhv
    exact absurd (.inl (by rw [hhv]; exact Option.some_ne_none hv)) h
  · intro i b hb
    exact absurd (.inr ⟨i, by rw [hb]; exact Option.some_ne_none b⟩) h

theorem Agrees.putHeavy (h : Agrees c seq f) : Agrees (c.putHeavy seq f.heavy) seq f := by
  refine ⟨?_, h.blocks⟩
  intro hv hhv
  simp only [SSTableCache.putHeavy, if_true] at hhv
  exact (Option.some.inj hhv).symm

theorem Agrees.putBlock (h : Agrees c seq f) (idx : ℕ) :
    Agrees (c.putBlock seq idx (fileBlock (some f) idx)) seq f := by
  refine ⟨h.heavy, ?_⟩
  intro i b hb
  simp only [SSTableCache.putBlock] at hb
  split at hb
  · next heq =>
    cases hb
    rw [heq.2]
  · exact h.blocks i b hb

theorem Agrees.putBlocks (h : Agrees c seq f) (idx : ℕ) (bs : List (List KeyValuePair))
    (hbs : f.blocks.drop idx = bs) : Agrees (c.putBlocks seq idx bs) seq f := by
  induction bs generalizing c idx with
  | nil => exact h
  | cons b bs ih =>
    have hget : f.blocks[idx]? = some b := by
      rw [← List.head?_drop, hbs]
      rfl
    have hb : b = fileBlock (some f) idx := by
      rw [fileBlock, Option.bind_some, hget]
      rfl
    have hdrop : f.blocks.drop (idx + 1) = bs := by
      rw [← List.drop_drop, hbs]
      rfl
    rw [SSTableCache.putBlocks]
    nth_rewrite 1 [hb]
    exact ih (h.putBlock idx) (idx + 1) hdrop

theorem Agrees.evict (h : Agrees c seq f) (keepHeavy : ℕ → Bool) (keepBlock : ℕ → ℕ → Bool) :
    Agrees (c.evict keepHeavy keepBlock) seq f := by
  refine ⟨?_, ?_⟩
  · intro hv hhv
    simp only [SSTableCache.evict] at hhv
    split at hhv
    · exact h.heavy hv hhv
    · cases hhv
  · intro i b hb
    simp only [SSTableCache.evict] at hb
    split at hb
    · exact h.blocks i b hb
    · cases hb

theorem Caches.of_evict {s : ℕ} {keepHeavy : ℕ → Bool} {keepBlock : ℕ → ℕ → Bool}
    (h : (c.evict keepHeavy keepBlock).Caches s) : c.Caches s := by
  rcases h with h | ⟨i, h⟩
  · simp only [SSTableCache.evict] at h
    split at h
    · exact .inl h
    · exact absurd rfl h
  · simp only [SSTableCache.evict] at h
    split at h
    · exact .inr ⟨i, h⟩
    · exact absurd rfl h

theorem Agrees.invalidate (h : Agrees c seq f) (s : ℕ) : Agrees (c.invalidate s) seq f := by
  refine ⟨?_, ?_⟩
  · intro hv hhv
    simp only [SSTableCache.invalidate] at hhv
    split at hhv
    · cases hhv
    · exact h.heavy hv hhv
  · intro i b hb
    simp only [SSTableCache.invalidate] at hb
    split at hb
    · cases hb
    · exact h.blocks i b hb

theorem Caches.of_invalidate {s t : ℕ} (h : (c.invalidate s).Caches t) : t ≠ s ∧ c.Caches t := by
  simp only [Caches, SSTableCache.invalidate] at h
  by_cases hts : t = s
  · simp [hts] at h
  · rw [if_neg hts] at h
    refine ⟨hts, ?_⟩
    rcases h with h | ⟨i, h⟩
    · exact .inl h
    · rw [if_neg hts] at h
      exact .inr ⟨i, h⟩

/-- Dropping the numbers of a list. -/
theorem foldl_invalidate {α : Type} (g : α → ℕ) (xs : List α) (c : SSTableCache) :
    (∀ s f, Agrees c s f → Agrees (xs.foldl (fun c x => c.invalidate (g x)) c) s f) ∧
      ∀ s, (xs.foldl (fun c x => c.invalidate (g x)) c).Caches s → c.Caches s ∧ ∀ x ∈ xs, s ≠ g x := by
  induction xs generalizing c with
  | nil => exact ⟨fun _ _ h => h, fun _ h => ⟨h, fun _ hx => by cases hx⟩⟩
  | cons x xs ih =>
    obtain ⟨hagree, hcaches⟩ := ih (c.invalidate (g x))
    refine ⟨fun s f h => hagree s f (h.invalidate (g x)), ?_⟩
    intro s h
    obtain ⟨h1, hxs⟩ := hcaches s h
    obtain ⟨hne, h2⟩ := h1.of_invalidate
    refine ⟨h2, ?_⟩
    intro y hy
    rcases List.mem_cons.mp hy with rfl | hy
    · exact hne
    · exact hxs y hy

end SSTableCache

/-! ## `LookupKey` through an agreeing cache -/

open SSTableCache

section LookupKey

variable {c : SSTableCache} {f : SSTableFile} {key : Bytes} {readTs seq : ℕ}

/-- What a read of the file may do to the cache: it still agrees with the file, and nothing else is
touched. -/
def ReadFrom (seq : ℕ) (f : SSTableFile) (c c' : SSTableCache) : Prop := Agrees c' seq f ∧ SameBut seq c c'

theorem searchBlock_agrees (key : Bytes) (readTs : ℕ) (hc : Agrees c seq f) (idx : ℕ) :
    ∃ c', searchBlock (some f) f.heavy key readTs seq (some c) idx =
        ((searchBlock (some f) f.heavy key readTs seq none idx).1, some c') ∧ ReadFrom seq f c c' := by
  unfold searchBlock
  split
  · exact ⟨c, rfl, hc, SameBut.refl seq c⟩
  · simp only [Option.bind_some, Option.bind_none, Option.map_some]
    split
    · next b hb =>
      rw [hc.blocks idx b hb]
      exact ⟨c, rfl, hc, SameBut.refl seq c⟩
    · exact ⟨_, rfl, hc.putBlock idx, putBlock_sameBut c seq idx _⟩

theorem searchBlock_none_cache (file : Option SSTableFile) (h : CachedHeavy) (idx : ℕ) :
    (searchBlock file h key readTs seq none idx).2 = none := by
  unfold searchBlock
  split <;> rfl

theorem searchBlocks_agrees (key : Bytes) (readTs : ℕ) (hc : Agrees c seq f) (idxs : List ℕ) :
    ∃ c', searchBlocks (some f) f.heavy key readTs seq idxs (some c) =
        ((searchBlocks (some f) f.heavy key readTs seq idxs none).1, some c') ∧ ReadFrom seq f c c' := by
  induction idxs generalizing c with
  | nil => exact ⟨c, rfl, hc, SameBut.refl seq c⟩
  | cons idx idxs ih =>
    obtain ⟨c1, heq, hagree, hsame⟩ := searchBlock_agrees key readTs hc idx
    rw [searchBlocks, searchBlocks]
    simp only [heq, searchBlock_none_cache]
    split
    · exact ⟨c1, rfl, hagree, hsame⟩
    · obtain ⟨c2, heq2, hagree2, hsame2⟩ := ih hagree
      exact ⟨c2, heq2, hagree2, hsame.trans hsame2⟩

theorem lookupIn_agrees (key : Bytes) (readTs : ℕ) (hc : Agrees c seq f) :
    ∃ c', lookupIn (some f) f.heavy key readTs seq (some c) =
        ((lookupIn (some f) f.heavy key readTs seq none).1, some c') ∧ ReadFrom seq f c c' := by
  unfold lookupIn
  split
  · exact ⟨c, rfl, hc, SameBut.refl seq c⟩
  · split
    · exact ⟨c, rfl, hc, SameBut.refl seq c⟩
    · exact searchBlocks_agrees key readTs hc _

/-! Whatever is cached, a lookup touches its own key only. -/

theorem searchBlock_sameBut (key : Bytes) (readTs seq : ℕ) (file : Option SSTableFile) (h : CachedHeavy)
    (c : SSTableCache) (idx : ℕ) :
    ∃ c', (searchBlock file h key readTs seq (some c) idx).2 = some c' ∧ SameBut seq c c' := by
  unfold searchBlock
  split
  · exact ⟨c, rfl, SameBut.refl seq c⟩
  · split
    · exact ⟨c, rfl, SameBut.refl seq c⟩
    · exact ⟨_, rfl, putBlock_sameBut c seq idx _⟩

theorem searchBlocks_sameBut (key : Bytes) (readTs seq : ℕ) (file : Option SSTableFile) (h : CachedHeavy)
    (c : SSTableCache) (idxs : List ℕ) :
    ∃ c', (searchBlocks file h key readTs seq idxs (some c)).2 = some c' ∧ SameBut seq c c' := by
  induction idxs generalizing c with
  | nil => exact ⟨c, rfl, SameBut.refl seq c⟩
  | cons idx idxs ih =>
    obtain ⟨c1, heq, hsame⟩ := searchBlock_sameBut key readTs seq file h c idx
    rw [searchBlocks]
    split
    · exact ⟨c1, heq, hsame⟩
    · rw [heq]
      obtain ⟨c2, heq2, hsame2⟩ := ih c1
      exact ⟨c2, heq2, hsame.trans hsame2⟩

theorem lookupIn_sameBut (key : Bytes) (readTs seq : ℕ) (file : Option SSTableFile) (h : CachedHeavy)
    (c : SSTableCache) :
    ∃ c', (lookupIn file h key readTs seq (some c)).2 = some c' ∧ SameBut seq c c' := by
  unfold lookupIn
  split
  · exact ⟨c, rfl, SameBut.refl seq c⟩
  · split
    · exact ⟨c, rfl, SameBut.refl seq c⟩
    · exact searchBlocks_sameBut key readTs seq file h c _

theorem lookupKey_sameBut {file : Option SSTableFile} {r : Option KeyValuePair × Option SSTableCache}
    (hr : lookupKey file key readTs (some c) seq = some r) : ∃ c', r.2 = some c' ∧ SameBut seq c c' := by
  unfold lookupKey at hr
  rw [Option.bind_some] at hr
  split at hr
  · cases hr
    exact lookupIn_sameBut key readTs seq file _ c
  · next hnone =>
    rw [readMetadata, Option.bind_some, hnone] at hr
    simp only [Option.map_map, Option.map_eq_some_iff] at hr
    obtain ⟨f, -, rfl⟩ := hr
    obtain ⟨c', heq, hsame⟩ := lookupIn_sameBut key readTs seq file
      ⟨(f.metadata 0).bloom, (f.metadata 0).firstKeys, (f.metadata 0).abortedBatchTs⟩ (c.putHeavy seq f.heavy)
    exact ⟨c', heq, (putHeavy_sameBut c seq f.heavy).trans hsame⟩

theorem lookupIn_none_cache (file : Option SSTableFile) (h : CachedHeavy) :
    (lookupIn file h key readTs seq none).2 = none := by
  have hblocks : ∀ idxs, (searchBlocks file h key readTs seq idxs none).2 = none := by
    intro idxs
    induction idxs with
    | nil => rfl
    | cons idx idxs ih =>
      rw [searchBlocks]
      split
      · exact searchBlock_none_cache file h idx
      · rw [searchBlock_none_cache]
        exact ih
  unfold lookupIn
  split
  · rfl
  · split
    · rfl
    · exact hblocks _

/-- `LookupKey` on an open file without a cache. -/
theorem lookupKey_none (f : SSTableFile) (key : Bytes) (readTs seq : ℕ) :
    lookupKey (some f) key readTs none seq = some (lookupIn (some f) f.heavy key readTs seq none) := rfl

/-- Through an agreeing cache `LookupKey` answers as it does without a cache. -/
theorem lookupKey_agrees (key : Bytes) (readTs : ℕ) (hc : Agrees c seq f) :
    ∃ c', lookupKey (some f) key readTs (some c) seq =
        some ((lookupIn (some f) f.heavy key readTs seq none).1, some c') ∧ ReadFrom seq f c c' := by
  unfold lookupKey
  rw [Option.bind_some]
  split
  · next h hh =>
    obtain ⟨c', heq, hread⟩ := lookupIn_agrees key readTs hc
    rw [hc.heavy h hh, heq]
    exact ⟨c', rfl, hread⟩
  · next hh =>
    obtain ⟨c', heq, hagree, hsame⟩ := lookupIn_agrees key readTs hc.putHeavy
    refine ⟨c', ?_, hagree, (putHeavy_sameBut c seq f.heavy).trans hsame⟩
    rw [readMetadata, Option.bind_some, hh]
    simp only [Option.map_some, SSTableFile.metadata]
    exact congrArg some heq

end LookupKey

end Kvdb
