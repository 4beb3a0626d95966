import Kvdb.Engine.Batch
import Kvdb.Engine.Steps
import Kvdb.SSTable.Contents
import Kvdb.Cache.Contents

/-! # Where the answers of the engine come from

`Stems W e` says that every version in the memtables, the files and the block cache of `e` is one of
the written versions `W`, and that every cached value is the value of one of them. The operations
keep this, and a lookup returns the value of a written version that its timestamp can see. -/
namespace Kvdb.Engine
set_option autoImplicit false

/-- A written version of the key with the value, visible at `ts`. -/
def Written (W : KeyValuePair → Prop) (key value : Bytes) (ts : ℕ) : Prop :=
  ∃ w, W w ∧ w.key = key ∧ w.value = value ∧ w.timestamp ≤ ts

structure Stems (W : KeyValuePair → Prop) (e : Engine) : Prop where
  active : ∀ x ∈ e.activeMemtable.entries, W x
  frozen : ∀ m ∈ e.frozenMemtables, ∀ x ∈ m.entries, W x
  files : ∀ n f, e.files n = some f → ∀ x ∈ f.entries, W x
  cache : CacheHolds (fun _ _ b => ∀ x ∈ b, W x) e.sstCache
  kv : e.kvCache.Holds (Written W)

variable {W : KeyValuePair → Prop} {e : Engine}

theorem Stems.mono {W' : KeyValuePair → Prop} (h : Stems W e) (hW : ∀ x, W x → W' x) : Stems W' e where
  active x hx := hW x (h.active x hx)
  frozen m hm x hx := hW x (h.frozen m hm x hx)
  files n f hf x hx := hW x (h.files n f hf x hx)
  cache := h.cache.mono fun _ _ _ hb x hx => hW x (hb x hx)
  kv := h.kv.mono fun _ _ _ ⟨w, hw, hrest⟩ => ⟨w, hW w hw, hrest⟩

/-! ## Writes -/

theorem Stems.applyWrite (h : Stems W e) (key value : Bytes) (isTombstone : Bool) (ts : ℕ)
    (hW : W ⟨key, value, ts, isTombstone⟩) : Stems W (e.applyWrite key value isTombstone ts) := by
  have hins : ∀ x ∈ (e.activeMemtable.insert key value ts isTombstone).entries, W x := by
    intro x hx
    rcases MemTable.mem_insert hx with rfl | hx
    · exact hW
    · exact h.active x hx
  unfold Engine.applyWrite freezeIfFull
  split
  · refine ⟨?_, ?_, h.files, h.cache, h.kv⟩
    · intro x hx
      cases hx
    · intro m hm x hx
      rcases List.mem_append.mp hm with hm | hm
      · exact h.frozen m hm x hx
      · rw [List.mem_singleton.mp hm] at hx
        exact hins x hx
  · exact ⟨hins, h.frozen, h.files, h.cache, h.kv⟩

theorem Stems.written (h : Stems W e) (key value : Bytes) (isTombstone : Bool)
    (hW : W ⟨key, value, e.globalTs + 1, isTombstone⟩) : Stems W (e.written key value isTombstone) :=
  Stems.applyWrite (e := e.tick) ⟨h.active, h.frozen, h.files, h.cache, h.kv⟩ key value isTombstone _ hW

theorem Stems.insert (h : Stems W e) {e' : Engine} {key value : Bytes} {n : ℕ}
    (hins : e.insert key value = .returned (e', n)) (hW : W ⟨key, value, e.globalTs + 1, false⟩) :
    Stems W e' := by
  obtain ⟨-, -, rfl⟩ := insert_returned hins
  have hw := h.written key value false hW
  refine ⟨hw.active, hw.frozen, hw.files, hw.cache, ?_⟩
  exact h.kv.put key value _ ⟨_, hW, rfl, rfl, Nat.le_refl _⟩

theorem Stems.delete (h : Stems W e) {e' : Engine} {key : Bytes} {n : ℕ}
    (hdel : e.delete key = .returned (e', n)) (hW : W ⟨key, [], e.globalTs + 1, true⟩) : Stems W e' := by
  obtain ⟨-, -, rfl⟩ := delete_returned hdel
  have hw := h.written key [] true hW
  exact ⟨hw.active, hw.frozen, hw.files, hw.cache, h.kv.erase key⟩

theorem Stems.rotate (h : Stems W e) : Stems W e.rotate := by
  refine ⟨?_, ?_, h.files, h.cache, h.kv⟩
  · intro x hx
    cases hx
  · intro m hm x hx
    rcases List.mem_append.mp hm with hm | hm
    · exact h.frozen m hm x hx
    · rw [List.mem_singleton.mp hm] at hx
      exact h.active x hx

/-! ## Flushes -/

theorem flushFile_stems (e : Engine) (m : MemTable) (hm : ∀ x ∈ m.entries, W x) :
    ∀ x ∈ (e.flushFile m).entries, W x := by
  intro x hx
  rw [flushFile, SSTableFile.entries_writeFromWalk] at hx
  exact hm x (m.tree.memTableWalk_sublist.subset (SSTableFile.flushEntries_subset _ x hx))

theorem readMetadata_cacheHolds {K : ℕ → ℕ → List KeyValuePair → Prop} {file : Option SSTableFile}
    {path : ℕ} {cache cache' : Option SSTableCache} {seq : ℕ} {md : Metadata} (h : CacheHolds K cache)
    (hread : readMetadata file path cache seq = some (md, cache')) : CacheHolds K cache' := by
  unfold readMetadata at hread
  split at hread
  · cases hread
    exact h
  · obtain ⟨f, -, hf⟩ := Option.map_eq_some_iff.mp hread
    cases hf
    exact h.putHeavy seq _

theorem Stems.doFlush (h : Stems W e) (m : MemTable) (hm : ∀ x ∈ m.entries, W x) :
    Stems W (e.doFlush m) := by
  have hfile := e.flushFile_stems m hm
  rcases e.doFlush_cases m with ⟨-, heq⟩ | ⟨-, md, cache, hmd, heq⟩
  · rw [heq]
    exact h
  · rw [heq]
    obtain ⟨md', hread, -⟩ := hmd.read
    refine ⟨h.active, h.frozen, ?_, ?_, h.kv⟩
    · intro n f hf
      simp only [afterFlush] at hf
      split at hf
      · cases hf
        exact hfile
      · exact h.files n f hf
    · refine readMetadata_cacheHolds (h.cache.putBlocks _ _ _ ?_) hread
      intro i b hb x hx
      exact hfile x (List.mem_flatten.mpr ⟨b, List.mem_of_getElem? hb, hx⟩)

theorem Stems.flushWorker (h : Stems W e) : Stems W e.flushWorker := by
  unfold Engine.flushWorker
  split
  · exact h
  · next m rest hfrozen =>
    have hpop : Stems W { e with frozenMemtables := rest } := by
      refine ⟨h.active, ?_, h.files, h.cache, h.kv⟩
      intro m' hm'
      refine h.frozen m' ?_
      rw [hfrozen]
      exact List.mem_cons_of_mem m hm'
    split
    · have hflush := hpop.doFlush m (h.frozen m (by rw [hfrozen]; exact List.mem_cons_self))
      exact ⟨hflush.active, hflush.frozen, hflush.files, hflush.cache, hflush.kv⟩
    · exact hpop

/-! ## Lookup -/

theorem fileBlock_stems {file : Option SSTableFile} (h : ∀ f, file = some f → ∀ x ∈ f.entries, W x)
    (idx : ℕ) : ∀ x ∈ fileBlock file idx, W x := by
  intro x hx
  unfold fileBlock at hx
  cases hb : file.bind fun f => f.blocks[idx]? with
  | none =>
    rw [hb] at hx
    cases hx
  | some b =>
    obtain ⟨f, hf, hidx⟩ := Option.bind_eq_some_iff.mp hb
    rw [hb] at hx
    exact h f hf x (List.mem_flatten.mpr ⟨b, List.mem_of_getElem? hidx, hx⟩)

theorem probeTables_stems {files : ℕ → Option SSTableFile} (hfiles : ∀ n f, files n = some f →
    ∀ x ∈ f.entries, W x) (scanned : List ℕ) (key : Bytes) (readTs : ℕ) (ms : List Metadata)
    {cache : Option SSTableCache} (hc : CacheHolds (fun _ _ b => ∀ x ∈ b, W x) cache) :
    CacheHolds (fun _ _ b => ∀ x ∈ b, W x) (probeTables files scanned key readTs ms cache).2 ∧
      ∀ v, (probeTables files scanned key readTs ms cache).1 = some v →
        W v ∧ v.key = key ∧ v.timestamp ≤ readTs := by
  induction ms generalizing cache with
  | nil => exact ⟨hc, fun v hv => by cases hv⟩
  | cons m ms ih =>
    unfold probeTables
    split
    · exact ih hc
    · split
      · exact ih hc
      · next v cache' hr =>
        have hspec := lookupKey_spec hc (fun idx => fileBlock_stems (hfiles m.filepath) idx) hr
        refine ⟨hspec.1, ?_⟩
        intro v' hv'
        obtain ⟨idx, b, hb, hmem, hrest⟩ := hspec.2 v' hv'
        exact ⟨hb v' hmem, hrest⟩
      · next cache' hr =>
        exact ih (lookupKey_spec hc (fun idx => fileBlock_stems (hfiles m.filepath) idx) hr).1

theorem Stems.probeMemtables (h : Stems W e) {key value : Bytes} {readTs : ℕ}
    (hv : e.probeMemtables key readTs = some value) : Written W key value readTs := by
  obtain ⟨m, hm, hlook⟩ := List.exists_of_findSome?_eq_some hv
  obtain ⟨x, hx, hkey, hts, hval⟩ := BPlusTree.lookup_eq_some hlook
  refine ⟨x, ?_, hkey, hval, hts⟩
  rcases List.mem_cons.mp hm with rfl | hm
  · exact h.active x hx
  · exact h.frozen m (List.mem_reverse.mp hm) x hx

theorem Stems.lookupUncached (h : Stems W e) (key : Bytes) (readTs : ℕ) :
    CacheHolds (fun _ _ b => ∀ x ∈ b, W x) (e.lookupUncached key readTs).2 ∧
      ∀ v, (e.lookupUncached key readTs).1 = some v → v ≠ [] → Written W key v readTs := by
  unfold Engine.lookupUncached
  split
  · next v hv =>
    refine ⟨h.cache, ?_⟩
    intro v' hv' _
    cases hv'
    exact h.probeMemtables hv
  · have hprobe := probeTables_stems h.files (e.frozenMemtables.map MemTable.id) key readTs
      (lookupOrder e.sstableMetadata) h.cache
    refine ⟨hprobe.1, ?_⟩
    intro v hv hne
    obtain ⟨x, hx, hval⟩ := Option.map_eq_some_iff.mp hv
    obtain ⟨hW, hkey, hts⟩ := hprobe.2 x hx
    unfold valueOf at hval
    split at hval
    · exact absurd hval.symm hne
    · exact ⟨x, hW, hkey, hval, hts⟩

/-- A lookup keeps the provenance and returns a written value that its timestamp can see. -/
theorem Stems.lookupAt (h : Stems W e) (key : Bytes) (readTs : ℕ) :
    Stems W (e.lookupAt key readTs).2 ∧
      ∀ v, (e.lookupAt key readTs).1 = some v → Written W key v readTs := by
  have hget := h.kv.get key readTs
  have hunc := h.lookupUncached key readTs
  unfold Engine.lookupAt
  split
  · next v kv hkv =>
    rw [hkv] at hget
    refine ⟨⟨h.active, h.frozen, h.files, h.cache, hget⟩, ?_⟩
    intro v' hv'
    split at hv'
    · cases hv'
    · next hne =>
      cases hv'
      obtain ⟨ts, hts, w, hw, hkey, hval, hwts⟩ := h.kv.get_eq_some key v readTs (by rw [hkv])
        (by simpa using hne)
      exact ⟨w, hw, hkey, hval, Nat.le_trans hwts hts⟩
  · next kv hkv =>
    rw [hkv] at hget
    split
    · next v cache hlook =>
      rw [hlook] at hunc
      split
      · refine ⟨⟨h.active, h.frozen, h.files, hunc.1, hget⟩, ?_⟩
        intro v' hv'
        cases hv'
      · next hne =>
        have hw := hunc.2 v rfl (by simpa using hne)
        refine ⟨⟨h.active, h.frozen, h.files, hunc.1, hget.put key v readTs hw⟩, ?_⟩
        intro v' hv'
        cases hv'
        exact hw
    · next cache hlook =>
      rw [hlook] at hunc
      refine ⟨⟨h.active, h.frozen, h.files, hunc.1, hget⟩, ?_⟩
      intro v' hv'
      cases hv'

end Kvdb.Engine
