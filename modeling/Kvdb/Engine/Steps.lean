import Kvdb.Engine.Recovery

/-! # What one step of the engine changes

One lemma per operation: a flush appends one table numbered by `sstable_seq_`, a compaction without
inputs changes nothing, the steps of a write leave the catalogue alone. Later modules use these and
do not unfold the operations. -/
namespace Kvdb.Engine
set_option autoImplicit false

/-! ## Writes -/

/-- The writer is not held back by a batch. -/
def mayWrite (e : Engine) : Prop := ¬ (e.batchInProgress = true ∧ e.batchTs < e.globalTs + 1)

/-- The body of `Insert` and `Delete` under the next timestamp, before the key-value cache. -/
def written (e : Engine) (key value : Bytes) (isTombstone : Bool) : Engine :=
  e.tick.applyWrite key value isTombstone (e.globalTs + 1)

theorem takeTimestamp_eq_some {e : Engine} {r : ℕ × Engine} (h : e.takeTimestamp = some r) :
    e.mayWrite ∧ r = (e.globalTs + 1, e.tick) := by
  unfold takeTimestamp at h
  split at h
  · cases h
  · next hfree =>
    cases h
    refine ⟨?_, rfl⟩
    rintro ⟨hb, hlt⟩
    simp [hb, hlt] at hfree

/-- What a returning `Insert` has done. -/
theorem insert_returned {e e' : Engine} {key value : Bytes} {n : ℕ}
    (h : e.insert key value = .returned (e', n)) :
    e.mayWrite ∧ n = e.wal.batchSeq + 1 ∧
      e' = { e.written key value false with
        kvCache := e.kvCache.put key value (e.globalTs + 1) } := by
  unfold insert at h
  split at h
  · cases h
  · cases h
  · split at h
    · cases h
    · next ts e1 htake =>
      obtain ⟨hfree, hr⟩ := takeTimestamp_eq_some htake
      cases hr
      cases h
      refine ⟨hfree, rfl, ?_⟩
      unfold written applyWrite freezeIfFull
      split <;> rfl

/-- What a returning `Delete` has done. -/
theorem delete_returned {e e' : Engine} {key : Bytes} {n : ℕ} (h : e.delete key = .returned (e', n)) :
    e.mayWrite ∧ n = e.wal.batchSeq + 1 ∧
      e' = { e.written key [] true with kvCache := e.kvCache.erase key } := by
  unfold delete at h
  split at h
  · cases h
  · split at h
    · cases h
    · next ts e1 htake =>
      obtain ⟨hfree, hr⟩ := takeTimestamp_eq_some htake
      cases hr
      cases h
      refine ⟨hfree, rfl, ?_⟩
      unfold written applyWrite freezeIfFull
      split <;> rfl

/-! ## Flushes -/

/-- The record that a flush adds to the catalogue, with the cache after `ReadMetadata`. -/
structure Flushed (e : Engine) (m : MemTable) (md : Metadata) (cache : Option SSTableCache) : Prop where
  filepath : md.filepath = e.sstableSeq
  manifestSeq : md.manifestSeq = e.sstableSeq
  level : md.level = 0
  sourceTableId : md.sourceTableId = m.id
  read : ∃ md', readMetadata (some (e.flushFile m)) e.sstableSeq
      (e.sstCache.map fun c => c.putBlocks e.sstableSeq 0 (e.flushFile m).blocks) e.sstableSeq =
        some (md', cache) ∧
      md = { md' with sourceTableId := m.id, filepath := e.sstableSeq, manifestSeq := e.sstableSeq }

/-- The engine after a flush that adds `md`. -/
def afterFlush (e : Engine) (m : MemTable) (md : Metadata) (cache : Option SSTableCache) : Engine :=
  { e with
    sstableSeq := e.sstableSeq + 1
    files := fun n => if n = e.sstableSeq then some (e.flushFile m) else e.files n
    sstCache := cache
    sstableMetadata := e.sstableMetadata ++ [md]
    manifest := Manifest.addSSTable e.manifest e.sstableSeq md }

/-- An empty memtable is not flushed; any other one becomes the next table. -/
theorem doFlush_cases (e : Engine) (m : MemTable) :
    (m.entryCount = 0 ∧ e.doFlush m = e) ∨
      (m.entryCount ≠ 0 ∧ ∃ md cache, Flushed e m md cache ∧ e.doFlush m = e.afterFlush m md cache) := by
  by_cases hm : m.entryCount = 0
  · exact .inl ⟨hm, by simp [doFlush, hm]⟩
  · refine .inr ⟨hm, ?_⟩
    obtain ⟨⟨md, cache⟩, hread⟩ := readMetadata_isSome (e.flushFile m) e.sstableSeq
      (e.sstCache.map fun c => c.putBlocks e.sstableSeq 0 (e.flushFile m).blocks) e.sstableSeq
    have hlevel : md.level = 0 := readMetadata_level hread
    have hread' : readMetadata (((e.reserveSeq 1).flushWrite m e.sstableSeq).files e.sstableSeq)
        e.sstableSeq ((e.reserveSeq 1).flushWrite m e.sstableSeq).sstCache e.sstableSeq =
          some (md, cache) := by
      simpa [flushWrite, writeFile, reserveSeq, flushFile] using hread
    refine ⟨_, cache, ⟨rfl, rfl, ?_, rfl, md, hread, rfl⟩, ?_⟩
    · exact hlevel
    · rw [doFlush, if_neg hm, flushPublish, hread']
      rfl

/-- A flush leaves the members that the catalogue does not depend on alone. -/
theorem doFlush_keeps {α : Type} (field : Engine → α) (e : Engine) (m : MemTable)
    (h : ∀ md cache, field (e.afterFlush m md cache) = field e) : field (e.doFlush m) = field e := by
  rcases e.doFlush_cases m with ⟨-, heq⟩ | ⟨-, md, cache, -, heq⟩
  · rw [heq]
  · rw [heq, h]

@[simp] theorem doFlush_activeMemtable (e : Engine) (m : MemTable) :
    (e.doFlush m).activeMemtable = e.activeMemtable :=
  doFlush_keeps activeMemtable e m fun _ _ => rfl

@[simp] theorem doFlush_frozenMemtables (e : Engine) (m : MemTable) :
    (e.doFlush m).frozenMemtables = e.frozenMemtables :=
  doFlush_keeps frozenMemtables e m fun _ _ => rfl

@[simp] theorem doFlush_wal (e : Engine) (m : MemTable) : (e.doFlush m).wal = e.wal :=
  doFlush_keeps wal e m fun _ _ => rfl

@[simp] theorem doFlush_batchInProgress (e : Engine) (m : MemTable) :
    (e.doFlush m).batchInProgress = e.batchInProgress :=
  doFlush_keeps batchInProgress e m fun _ _ => rfl

@[simp] theorem doFlush_syncedSeq (e : Engine) (m : MemTable) : (e.doFlush m).syncedSeq = e.syncedSeq :=
  doFlush_keeps syncedSeq e m fun _ _ => rfl

/-- The versions in the file of a catalogued table. -/
def tableEntries (e : Engine) (md : Metadata) : List KeyValuePair :=
  ((e.files md.filepath).map SSTableFile.entries).getD []

theorem tableEntries_congr {e e' : Engine} {md : Metadata} (h : e'.files md.filepath = e.files md.filepath) :
    e'.tableEntries md = e.tableEntries md := by
  rw [tableEntries, tableEntries, h]

@[simp] theorem flushPublish_sstableSeq (e : Engine) (m : MemTable) (seq : ℕ) :
    (e.flushPublish m seq).sstableSeq = e.sstableSeq := by
  unfold flushPublish
  split <;> rfl

theorem flushPublish_memtables (e : Engine) (m : MemTable) (seq : ℕ) :
    (e.flushPublish m seq).activeMemtable = e.activeMemtable ∧
      (e.flushPublish m seq).frozenMemtables = e.frozenMemtables := by
  unfold flushPublish
  split <;> exact ⟨rfl, rfl⟩

theorem flushPublish_catalogue (e : Engine) (m : MemTable) (seq : ℕ) :
    ∃ mds, (e.flushPublish m seq).sstableMetadata = e.sstableMetadata ++ mds ∧
      ∀ md ∈ mds, md.filepath = seq := by
  unfold flushPublish
  split
  · exact ⟨[], by simp, by simp⟩
  · exact ⟨[_], rfl, by simp⟩

/-! ## Recovery -/

theorem pathLevel_fillMetadata (files : ℕ → Option SSTableFile) (m : Metadata) :
    Manifest.pathLevel (fillMetadata files m) = Manifest.pathLevel m := by
  unfold fillMetadata
  split <;> rfl

theorem foldl_rule {α : Type} {P : Engine → Prop} {f : Engine → α → Engine}
    (hf : ∀ e a, P e → P (f e a)) (as : List α) {e : Engine} (h : P e) : P (as.foldl f e) := by
  induction as generalizing e with
  | nil => exact h
  | cons a as ih => exact ih (hf e a h)

/-- What holds when the aborted batches of the log have been marked, is kept by a flush and does not
depend on the other members, holds of the constructed engine. -/
theorem construct_of_marked {P : Engine → Prop} (cfg : EngineConfig) (d : Directory)
    (hmarked : P ((WAL.recover d.wal).aborted.foldl markAborted
      ((openDirectory cfg d).raiseTs (WAL.recover d.wal).checkpointTs)))
    (hflush : ∀ e m, P e → P (e.doFlush m))
    (hcongr : ∀ e e', e'.manifest = e.manifest → e'.sstableMetadata = e.sstableMetadata →
      e'.sstableSeq = e.sstableSeq → P e → P e') : P (construct cfg d) := by
  have hactive : ∀ e, P e → P e.flushActive := fun e he => hflush _ _ (hcongr e _ rfl rfl rfl he)
  have hckpt : ∀ e, P e → P e.writeCheckpoint := fun e he => hcongr e _ rfl rfl rfl he
  have hsync : ∀ e, P e → P e.syncWal := fun e he => hcongr e _ rfl rfl rfl he
  have hreplay : ∀ e kv, P e → P (e.replayEntry kv) := by
    intro e kv he
    have hins : P ((e.memInsert kv.key kv.value kv.timestamp false).raiseTs kv.timestamp) :=
      hcongr e _ rfl rfl rfl he
    unfold replayEntry
    simp only []
    split
    · exact hckpt _ (hactive _ hins)
    · exact hins
  have hfinish : ∀ e, P e → P e.finishReplay := by
    intro e he
    refine hsync _ (hckpt _ ?_)
    split
    · exact hactive e he
    · exact he
  refine hcongr (openDirectory cfg d).recoverFromWAL _ rfl rfl rfl ?_
  unfold recoverFromWAL
  simp only []
  split
  · exact hmarked
  · exact hfinish _ (foldl_rule hreplay _ hmarked)

/-- The catalogue of a constructed engine: what holds of the opened directory, is kept by a flush and
by the marking of an aborted batch, and does not depend on the other members, holds at the end. -/
theorem construct_rule {P : Engine → Prop} (cfg : EngineConfig) (d : Directory)
    (hopen : P (openDirectory cfg d))
    (hflush : ∀ e m, P e → P (e.doFlush m)) (hmark : ∀ e ts, P e → P (e.markAborted ts))
    (hcongr : ∀ e e', e'.manifest = e.manifest → e'.sstableMetadata = e.sstableMetadata →
      e'.sstableSeq = e.sstableSeq → P e → P e') : P (construct cfg d) := by
  have hraised : P ((openDirectory cfg d).raiseTs (WAL.recover d.wal).checkpointTs) :=
    hcongr (openDirectory cfg d) _ rfl rfl rfl hopen
  exact construct_of_marked cfg d (foldl_rule hmark _ hraised) hflush hcongr

/-! ## Compaction -/

theorem compactLevel_of_nothing (e : Engine) (fromLevel topLevel : ℕ)
    (h : e.nothingToCompact fromLevel topLevel = true) : e.compactLevel fromLevel topLevel = e := by
  rw [compactLevel, if_pos h]

theorem exists_input (e : Engine) (fromLevel topLevel : ℕ)
    (h : e.nothingToCompact fromLevel topLevel = false) :
    topLevel + 1 ≤ Config.maxLevel ∧ ∃ m, m ∈ e.compactionInputs fromLevel topLevel := by
  simp only [nothingToCompact, Bool.or_eq_false_iff, decide_eq_false_iff_not, Nat.not_lt,
    List.isEmpty_eq_false_iff] at h
  exact ⟨h.1, List.exists_mem_of_ne_nil _ h.2⟩

theorem mem_compactionInputs (e : Engine) (fromLevel topLevel : ℕ) (m : Metadata) :
    m ∈ e.compactionInputs fromLevel topLevel ↔
      m ∈ e.sstableMetadata ∧ fromLevel ≤ m.level ∧ m.level ≤ topLevel := by
  simp [compactionInputs]

/-- Writing the output files changes the files only. -/
theorem writeOutputs_eq (e : Engine) (outputs : List (ℕ × SSTableFile)) :
    e.writeOutputs outputs = { e with files := (e.writeOutputs outputs).files } := by
  induction outputs generalizing e with
  | nil => rfl
  | cons p ps ih =>
    have h := ih (e.writeFile p.1 p.2)
    rw [writeOutputs, List.foldl_cons]
    rw [writeOutputs] at h
    exact h

@[simp] theorem writeOutputs_sstableSeq (e : Engine) (outputs : List (ℕ × SSTableFile)) :
    (e.writeOutputs outputs).sstableSeq = e.sstableSeq := by rw [writeOutputs_eq]

@[simp] theorem writeOutputs_catalogue (e : Engine) (outputs : List (ℕ × SSTableFile)) :
    (e.writeOutputs outputs).sstableMetadata = e.sstableMetadata := by rw [writeOutputs_eq]

@[simp] theorem writeOutputs_manifest (e : Engine) (outputs : List (ℕ × SSTableFile)) :
    (e.writeOutputs outputs).manifest = e.manifest := by rw [writeOutputs_eq]

theorem writeOutputs_files_of_notMem (e : Engine) (outputs : List (ℕ × SSTableFile)) (n : ℕ)
    (hn : n ∉ outputs.map Prod.fst) : (e.writeOutputs outputs).files n = e.files n := by
  induction outputs generalizing e with
  | nil => rfl
  | cons p ps ih =>
    rw [List.map_cons, List.mem_cons, not_or] at hn
    have hrest := ih (e.writeFile p.1 p.2) hn.2
    rw [writeOutputs, List.foldl_cons]
    rw [writeOutputs] at hrest
    rw [hrest]
    exact if_neg hn.1

theorem writeOutputs_files_of_mem (e : Engine) (outputs : List (ℕ × SSTableFile)) {n : ℕ} {f : SSTableFile}
    (hnodup : (outputs.map Prod.fst).Nodup) (hmem : (n, f) ∈ outputs) :
    (e.writeOutputs outputs).files n = some f := by
  induction outputs generalizing e with
  | nil => cases hmem
  | cons p ps ih =>
    rw [List.map_cons, List.nodup_cons] at hnodup
    rcases List.mem_cons.mp hmem with heq | hmem
    · subst heq
      exact (writeOutputs_files_of_notMem _ ps n hnodup.1).trans (if_pos rfl)
    · exact ih (e.writeFile p.1 p.2) hnodup.2 hmem

section Compacted

variable (e : Engine) (fromLevel topLevel : ℕ) (h : e.nothingToCompact fromLevel topLevel = false)

include h

theorem compactLevel_sstableSeq : (e.compactLevel fromLevel topLevel).sstableSeq =
    e.sstableSeq + reservedOutputs + (e.runCompact fromLevel topLevel).outputs.length := by
  simp [compactLevel, h, deferGarbage, recordCompaction, publishCompaction, reserveSeq]

theorem compactLevel_catalogue : (e.compactLevel fromLevel topLevel).sstableMetadata =
    (e.sstableMetadata.filter fun m =>
      !(e.compactionInputs fromLevel topLevel).any fun i => decide (m.filepath = i.filepath)) ++
        (e.runCompact fromLevel topLevel).outputs := by
  simp [compactLevel, h, deferGarbage, recordCompaction, publishCompaction, reserveSeq]

theorem compactLevel_manifest : (e.compactLevel fromLevel topLevel).manifest =
    compactionRecords e.manifest (e.sstableSeq + reservedOutputs)
      (e.compactionInputs fromLevel topLevel).length (e.runCompact fromLevel topLevel).outputs := by
  simp [compactLevel, h, deferGarbage, recordCompaction, publishCompaction, reserveSeq]

/-- `CompactLevel` with work, member by member. -/
theorem compactLevel_eq : e.compactLevel fromLevel topLevel = { e with
    files := (e.writeOutputs (e.runCompact fromLevel topLevel).files).files
    sstableSeq := (e.compactLevel fromLevel topLevel).sstableSeq
    sstableMetadata := (e.compactLevel fromLevel topLevel).sstableMetadata
    manifest := (e.compactLevel fromLevel topLevel).manifest
    sstCache := e.sstCache.map fun c => (e.runCompact fromLevel topLevel).garbage.foldl
      (fun c f => c.invalidate (gcSeq (e.compactionInputs fromLevel topLevel) f)) c
    pendingGc := e.pendingGc ++ (e.runCompact fromLevel topLevel).garbage.map fun f =>
      ⟨f, gcSeq (e.compactionInputs fromLevel topLevel) f, e.globalTs⟩ } := by
  have hfiles : ((e.reserveSeq reservedOutputs).writeOutputs (e.runCompact fromLevel topLevel).files).files =
      (e.writeOutputs (e.runCompact fromLevel topLevel).files).files := by
    generalize (e.runCompact fromLevel topLevel).files = outputs
    have hfold : ∀ (outputs : List (ℕ × SSTableFile)) (e1 e2 : Engine), e1.files = e2.files →
        (e1.writeOutputs outputs).files = (e2.writeOutputs outputs).files := by
      intro outputs
      induction outputs with
      | nil => exact fun _ _ h => h
      | cons p ps ih =>
        intro e1 e2 h12
        exact ih (e1.writeFile p.1 p.2) (e2.writeFile p.1 p.2) (by simp only [writeFile, h12])
    exact hfold outputs _ _ rfl
  rw [← hfiles]
  simp only [compactLevel, h, Bool.false_eq_true, if_false, deferGarbage, recordCompaction, publishCompaction]
  rw [writeOutputs_eq]
  rfl

end Compacted

/-- `CompactLevel` leaves the members that no table depends on alone. -/
theorem compactLevel_keeps {α : Type} (field : Engine → α) (e : Engine) (fromLevel topLevel : ℕ)
    (hfield : ∀ files seq mds manifest cache gc, field { e with
      files := files
      sstableSeq := seq
      sstableMetadata := mds
      manifest := manifest
      sstCache := cache
      pendingGc := gc } = field e) :
    field (e.compactLevel fromLevel topLevel) = field e := by
  cases h : e.nothingToCompact fromLevel topLevel with
  | true => rw [compactLevel_of_nothing e fromLevel topLevel h]
  | false =>
    rw [compactLevel_eq e fromLevel topLevel h]
    exact hfield _ _ _ _ _ _

end Kvdb.Engine
