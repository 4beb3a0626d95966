import Kvdb.Engine.Outputs
import Kvdb.Engine.Coverage

/-! # What the catalogue tells of its files

`Lookup` passes over a table by its record: the key range and the filter. In a `Faithful` engine each record says what
its file says, and each file admits its own keys. It rests on the numbers that `sstable_seq_` hands out: a flush
under a number that a catalogued table has puts another file behind that record, and with an index cached under
its number it takes the new record from there. `FlushSafe` and `CompactSafe` are what a flush and a compaction have to
meet. A restart has to meet `RestartSafe`, as `sstable_seq_` starts again at the number of recovered tables. -/
namespace Kvdb.Engine
set_option autoImplicit false

open SSTableFile (KeySorted Admits)

/-- The record has the key range and the filter of the file. -/
structure Tells (md : Metadata) (f : SSTableFile) : Prop where
  minKey : md.minKey = f.minKey
  maxKey : md.maxKey = f.maxKey
  bloom : md.bloom = f.bloom

structure Faithful (e : Engine) : Prop where
  files : ∀ n f, e.files n = some f → f.Admits
  tables : EachTable Tells e

variable {e e' : Engine} {m : MemTable} {fromLevel topLevel : ℕ}

/-- The leaves of the memtable have its keys in order, and the number of the new table names neither a catalogued file
nor a cached index. -/
def FlushSafe (e : Engine) (m : MemTable) : Prop :=
  m.entryCount ≠ 0 → KeySorted m.tree.memTableWalk ∧ (∀ md ∈ e.sstableMetadata, md.filepath ≠ e.sstableSeq) ∧
    ∀ c ∈ e.sstCache, c.heavy e.sstableSeq = none

instance decidableFlushSafe (e : Engine) (m : MemTable) : Decidable (FlushSafe e m) :=
  inferInstanceAs (Decidable (m.entryCount ≠ 0 → KeySorted m.tree.memTableWalk ∧
    (∀ md ∈ e.sstableMetadata, md.filepath ≠ e.sstableSeq) ∧ ∀ c ∈ e.sstCache, c.heavy e.sstableSeq = none))

/-- The iterators over the inputs yield keys in order, and no number of an output names a catalogued file. -/
def CompactSafe (e : Engine) (fromLevel topLevel : ℕ) : Prop :=
  (∀ src ∈ (e.compactionJob fromLevel topLevel).sources, KeySorted src) ∧
    ∀ md ∈ e.sstableMetadata, md.filepath ∉ (e.runCompact fromLevel topLevel).files.map Prod.fst

instance decidableCompactSafe (e : Engine) (fromLevel topLevel : ℕ) : Decidable (CompactSafe e fromLevel topLevel) :=
  inferInstanceAs (Decidable ((∀ src ∈ (e.compactionJob fromLevel topLevel).sources, KeySorted src) ∧
    ∀ md ∈ e.sstableMetadata, md.filepath ∉ (e.runCompact fromLevel topLevel).files.map Prod.fst))

/-- A version that a table holds is passed over for the identity of the table only. -/
theorem Faithful.scanned_of_skips (h : Faithful e) {md : Metadata} (hmd : md ∈ e.sstableMetadata) {x : KeyValuePair}
    (hx : x ∈ e.tableEntries md) {scanned : List ℕ} (hskip : skips scanned x.key md = true) :
    md.sourceTableId ∈ scanned := by
  rw [tableEntries] at hx
  cases hfile : e.files md.filepath with
  | none =>
    rw [hfile] at hx
    cases hx
  | some f =>
    rw [hfile] at hx
    obtain ⟨hmin, hmax, hrejects⟩ := h.files _ f hfile x hx
    have htells := h.tables md hmd f hfile
    rw [← htells.minKey] at hmin
    rw [← htells.maxKey] at hmax
    rw [← htells.bloom] at hrejects
    simpa [skips, not_lt.mpr hmin, not_lt.mpr hmax, hrejects] using hskip

theorem Faithful.congr (h : Faithful e) (hcat : e'.sstableMetadata = e.sstableMetadata) (hfiles : e'.files = e.files) :
    Faithful e' :=
  ⟨hfiles ▸ h.files, h.tables.congr hcat fun _ _ => congrFun hfiles _⟩

theorem drainFileGC_file {ts n : ℕ} {f : SSTableFile} (hfile : (e.drainFileGC ts).files n = some f) :
    e.files n = some f := by
  simp only [Engine.drainFileGC] at hfile
  split at hfile
  · cases hfile
  · exact hfile

theorem Faithful.drainFileGC (h : Faithful e) (ts : ℕ) : Faithful (e.drainFileGC ts) :=
  ⟨fun n f hfile => h.files n f (drainFileGC_file hfile),
    fun md hmd f hfile => h.tables md hmd f (drainFileGC_file hfile)⟩

/-! ## Flushes -/

theorem flushFile_admits (e : Engine) (hsorted : KeySorted m.tree.memTableWalk) : (e.flushFile m).Admits :=
  SSTableFile.writeFromWalk_admits _ _ _ hsorted

/-- Whatever the number of its file, a flush of a memtable in key order leaves files that admit their keys. -/
theorem doFlush_admits (hfiles : ∀ n f, e.files n = some f → f.Admits)
    (hsorted : m.entryCount ≠ 0 → KeySorted m.tree.memTableWalk) :
    ∀ n f, (e.doFlush m).files n = some f → f.Admits := by
  rcases e.doFlush_cases m with ⟨-, heq⟩ | ⟨hcount, md, cache, -, heq⟩
  · rw [heq]
    exact hfiles
  · rw [heq]
    intro n f hfile
    have hfile' : (if n = e.sstableSeq then some (e.flushFile m) else e.files n) = some f := hfile
    split at hfile'
    · cases hfile'
      exact e.flushFile_admits (hsorted hcount)
    · exact hfiles n f hfile'

theorem Faithful.doFlush (h : Faithful e) (hsafe : FlushSafe e m) : Faithful (e.doFlush m) := by
  refine ⟨doFlush_admits h.files fun hcount => (hsafe hcount).1, ?_⟩
  rcases e.doFlush_cases m with ⟨-, heq⟩ | ⟨hcount, md, cache, hmd, heq⟩
  · rw [heq]
    exact h.tables
  · obtain ⟨-, hnew, hheavy⟩ := hsafe hcount
    rw [heq]
    intro md' hmd' f hfile
    have hfile' : (if md'.filepath = e.sstableSeq then some (e.flushFile m) else e.files md'.filepath) =
        some f := hfile
    rcases List.mem_append.mp hmd' with hmd' | hmd'
    · rw [if_neg (hnew md' hmd')] at hfile'
      exact h.tables md' hmd' f hfile'
    · rw [List.mem_singleton] at hmd'
      subst hmd'
      rw [if_pos hmd.filepath] at hfile'
      cases hfile'
      rw [flushed_metadata_of_heavy hmd hheavy]
      exact ⟨rfl, rfl, rfl⟩

/-- A flush leaves the versions of the other tables alone, and those of its own come from its memtable. -/
theorem doFlush_tableEntries (hsafe : FlushSafe e m) {md : Metadata} (hmd : md ∈ (e.doFlush m).sstableMetadata) :
    (md ∈ e.sstableMetadata ∧ (e.doFlush m).tableEntries md = e.tableEntries md) ∨
      (md.sourceTableId = m.id ∧ ∀ x ∈ (e.doFlush m).tableEntries md, x ∈ m.entries) := by
  rcases e.doFlush_cases m with ⟨-, heq⟩ | ⟨hcount, md', cache, hmd', heq⟩
  · rw [heq] at hmd ⊢
    exact .inl ⟨hmd, rfl⟩
  · rw [heq] at hmd ⊢
    rcases List.mem_append.mp hmd with hmd | hmd
    · exact .inl ⟨hmd, tableEntries_congr (if_neg ((hsafe hcount).2.1 md hmd))⟩
    · rw [List.mem_singleton] at hmd
      subst hmd
      refine .inr ⟨hmd'.sourceTableId, ?_⟩
      rw [tableEntries_afterFlush_new hmd']
      exact e.flushFile_subset m

/-! ## Compactions -/

/-- Every file of a compaction has a part of what is merged. -/
theorem compact_files_admit (hsorted : ∀ src ∈ (e.compactionJob fromLevel topLevel).sources, KeySorted src) :
    ∀ p ∈ (e.runCompact fromLevel topLevel).files, p.2.Admits := by
  intro p hp
  have hout : p ∈ (e.compactionJob fromLevel topLevel).outFiles := by
    unfold runCompact Compaction.compact at hp
    split at hp
    · cases hp
    · exact hp
  obtain ⟨batch, hbatch, heq⟩ := mem_outputFiles hout
  have hmerged : KeySorted (e.compactionJob fromLevel topLevel).merged := Compaction.mergeLoop_keySorted _ _ hsorted
  have hflat : (e.compactionJob fromLevel topLevel).batches.flatten = (e.compactionJob fromLevel topLevel).merged :=
    Pack.pack_flatten _ _ _ _
  rw [← hflat] at hmerged
  rw [heq]
  exact SSTableFile.write_admits _ _ ((List.pairwise_flatten.mp hmerged).1 batch hbatch)

/-- A file behind a compaction is one of its outputs or was there before. -/
theorem compactLevel_file (hwork : e.nothingToCompact fromLevel topLevel = false) {n : ℕ} {f : SSTableFile}
    (hfile : (e.compactLevel fromLevel topLevel).files n = some f) :
    (n, f) ∈ (e.runCompact fromLevel topLevel).files ∨ e.files n = some f := by
  rw [compactLevel_eq e fromLevel topLevel hwork] at hfile
  have hwritten : ∀ (outputs : List (ℕ × SSTableFile)) (e : Engine), (e.writeOutputs outputs).files n = some f →
      (n, f) ∈ outputs ∨ e.files n = some f := by
    intro outputs
    induction outputs with
    | nil => exact fun _ h => .inr h
    | cons p ps ih =>
      intro e h
      rcases ih (e.writeFile p.1 p.2) h with hmem | hold
      · exact .inl (List.mem_cons_of_mem p hmem)
      · have hold' : (if n = p.1 then some p.2 else e.files n) = some f := hold
        split at hold'
        · next heq =>
          cases hold'
          rw [heq]
          exact .inl List.mem_cons_self
        · exact .inr hold'
  exact hwritten _ e hfile

/-- The tables of a compacted catalogue: those that stay, with their files, and the outputs. -/
theorem compactLevel_table (hwork : e.nothingToCompact fromLevel topLevel = false) (hsafe : CompactSafe e fromLevel topLevel)
    {md : Metadata} (hmd : md ∈ (e.compactLevel fromLevel topLevel).sstableMetadata) :
    (md ∈ e.sstableMetadata ∧ (e.compactLevel fromLevel topLevel).files md.filepath = e.files md.filepath) ∨
      (md.sourceTableId = 0 ∧ ∀ f, (e.compactLevel fromLevel topLevel).files md.filepath = some f → Tells md f) := by
  rw [compactLevel_survivors hwork, List.mem_append] at hmd
  rcases hmd with hmd | hmd
  · have hcat := (mem_survivors.mp hmd).1
    refine .inl ⟨hcat, ?_⟩
    rw [compactLevel_eq e fromLevel topLevel hwork]
    exact writeOutputs_files_of_notMem _ _ _ (hsafe.2 md hcat)
  · obtain ⟨f, -, heq, hfile⟩ := output_file hwork hmd
    refine .inr ⟨by rw [heq]; rfl, ?_⟩
    intro f' hfile'
    obtain rfl : f = f' := Option.some.inj (hfile.symm.trans hfile')
    rw [heq]
    exact ⟨rfl, rfl, rfl⟩

theorem Faithful.compactLevel (h : Faithful e)
    (hsafe : e.nothingToCompact fromLevel topLevel = false → CompactSafe e fromLevel topLevel) :
    Faithful (e.compactLevel fromLevel topLevel) := by
  cases hwork : e.nothingToCompact fromLevel topLevel with
  | true =>
    rw [compactLevel_of_nothing e fromLevel topLevel hwork]
    exact h
  | false =>
    refine ⟨?_, ?_⟩
    · intro n f hfile
      rcases compactLevel_file hwork hfile with hnew | hold
      · exact compact_files_admit (hsafe hwork).1 _ hnew
      · exact h.files n f hold
    · intro md hmd f hfile
      rcases compactLevel_table hwork (hsafe hwork) hmd with ⟨hcat, hsame⟩ | ⟨-, htells⟩
      · exact h.tables md hcat f (hsame.symm.trans hfile)
      · exact htells f hfile

/-! ## Restarts -/

/-- The engine with one more replayed entry, before its memtable is flushed if it is full. -/
def replayed (e : Engine) (kv : KeyValuePair) : Engine :=
  (e.memInsert kv.key kv.value kv.timestamp false).raiseTs kv.timestamp

theorem replayEntry_eq (e : Engine) (kv : KeyValuePair) : e.replayEntry kv =
    if (e.replayed kv).activeMemtable.isFull then (e.replayed kv).flushActive.writeCheckpoint else e.replayed kv := rfl

/-- Every flush of the replay is safe, the last one, which `finishReplay` makes, among them. -/
def ReplaySafe : Engine → List KeyValuePair → Prop
  | e, [] => FlushSafe e.freshMemtable e.activeMemtable.freeze
  | e, kv :: kvs =>
    ((e.replayed kv).activeMemtable.isFull = true →
      FlushSafe (e.replayed kv).freshMemtable (e.replayed kv).activeMemtable.freeze) ∧ ReplaySafe (e.replayEntry kv) kvs

instance decidableReplaySafe (e : Engine) (kvs : List KeyValuePair) : Decidable (ReplaySafe e kvs) :=
  match kvs with
  | [] => inferInstanceAs (Decidable (FlushSafe _ _))
  | kv :: kvs =>
    have := decidableReplaySafe (e.replayEntry kv) kvs
    inferInstanceAs (Decidable (_ ∧ _))

def RestartSafe (cfg : EngineConfig) (d : Directory) : Prop :=
  ReplaySafe (replayStart cfg d) (WAL.recover d.wal).entries

instance decidableRestartSafe (cfg : EngineConfig) (d : Directory) : Decidable (RestartSafe cfg d) :=
  inferInstanceAs (Decidable (ReplaySafe _ _))

theorem fillMetadata_tells {files : ℕ → Option SSTableFile} {md : Metadata} {f : SSTableFile}
    (h : files md.filepath = some f) : Tells (fillMetadata files md) f := by
  rw [fillMetadata, h]
  exact ⟨rfl, rfl, rfl⟩

theorem openDirectory_faithful (cfg : EngineConfig) {d : Directory} (hfiles : ∀ n f, d.files n = some f → f.Admits) :
    Faithful (openDirectory cfg d) := by
  refine ⟨hfiles, ?_⟩
  intro md hmd f hfile
  obtain ⟨m, -, rfl⟩ := List.mem_map.mp hmd
  rw [filepath_fillMetadata] at hfile
  exact fillMetadata_tells hfile

theorem Faithful.markAborted (h : Faithful e) (ts : ℕ) : Faithful (e.markAborted ts) := by
  refine ⟨h.files, ?_⟩
  intro md hmd f hfile
  obtain ⟨m, hm, rfl⟩ := List.mem_map.mp hmd
  have htells := h.tables m hm f hfile
  exact ⟨htells.minKey, htells.maxKey, htells.bloom⟩

theorem Faithful.flushActive (h : Faithful e) (hsafe : FlushSafe e.freshMemtable e.activeMemtable.freeze) :
    Faithful e.flushActive := by
  have hfresh : Faithful e.freshMemtable := h.congr rfl rfl
  exact hfresh.doFlush hsafe

theorem Faithful.replay (kvs : List KeyValuePair) (h : Faithful e) (hsafe : ReplaySafe e kvs) :
    Faithful (kvs.foldl replayEntry e).finishReplay := by
  induction kvs generalizing e with
  | nil =>
    rw [List.foldl_nil, finishReplay]
    split
    · exact (h.flushActive hsafe).congr rfl rfl
    · exact h.congr rfl rfl
  | cons kv kvs ih =>
    obtain ⟨hflush, hrest⟩ := hsafe
    have hreplayed : Faithful (e.replayed kv) := h.congr rfl rfl
    refine ih ?_ hrest
    rw [replayEntry_eq]
    split
    · next hfull => exact (hreplayed.flushActive (hflush hfull)).congr rfl rfl
    · exact hreplayed

/-- A constructed engine is faithful if every file of the directory admits its keys. -/
theorem construct_faithful {cfg : EngineConfig} {d : Directory} (hfiles : ∀ n f, d.files n = some f → f.Admits)
    (hsafe : RestartSafe cfg d) : Faithful (construct cfg d) := by
  have hopen : Faithful ((openDirectory cfg d).raiseTs (WAL.recover d.wal).checkpointTs) :=
    (openDirectory_faithful cfg hfiles).congr rfl rfl
  have hstart : Faithful (replayStart cfg d) := foldl_rule (fun _ ts h => h.markAborted ts) _ hopen
  have hrecovered : Faithful (openDirectory cfg d).recoverFromWAL := by
    unfold recoverFromWAL
    simp only []
    split
    · exact hstart
    · exact hstart.replay _ hsafe
  exact hrecovered.congr rfl rfl

/-- The destructor flushes every memtable. -/
theorem close_admits (hfiles : ∀ n f, e.files n = some f → f.Admits)
    (hsorted : ∀ m ∈ e.memtables, KeySorted m.tree.memTableWalk) : ∀ n f, e.close.files n = some f → f.Admits := by
  have hflushed : ∀ (ms : List MemTable) (e : Engine), (∀ m ∈ ms, KeySorted m.tree.memTableWalk) →
      (∀ n f, e.files n = some f → f.Admits) → ∀ n f, (ms.foldl Engine.doFlush e).files n = some f → f.Admits := by
    intro ms
    induction ms with
    | nil => exact fun _ _ h => h
    | cons m ms ih =>
      intro e hms h
      exact ih _ (fun m' hm' => hms m' (List.mem_cons_of_mem m hm'))
        (doFlush_admits h fun _ => hms m List.mem_cons_self)
  have hfrozen := hflushed e.frozenMemtables { e.syncWal with frozenMemtables := [] }
    (fun m hm => hsorted m (List.mem_append_left _ hm)) hfiles
  have hactive : KeySorted e.activeMemtable.tree.memTableWalk :=
    hsorted _ (List.mem_append_right _ List.mem_cons_self)
  intro n f hfile
  rw [close] at hfile
  have hfile' := drainFileGC_file hfile
  split at hfile'
  · exact doFlush_admits hfrozen (fun _ => hactive) n f hfile'
  · exact hfrozen n f hfile'

/-! ## The memtables of a constructed engine -/

/-- Nothing is frozen, and the id of the active memtable has been given out. -/
structure Settled (e : Engine) : Prop where
  frozen : e.frozenMemtables = []
  id : e.activeMemtable.id < e.nextTableId

theorem Settled.congr (h : Settled e) (hfrozen : e'.frozenMemtables = e.frozenMemtables)
    (hid : e'.activeMemtable.id = e.activeMemtable.id) (hnext : e'.nextTableId = e.nextTableId) : Settled e' := by
  refine ⟨hfrozen.trans h.frozen, ?_⟩
  rw [hid, hnext]
  exact h.id

theorem Settled.flushActive (h : Settled e) : Settled e.flushActive := by
  have hnext : e.flushActive.nextTableId = e.nextTableId + 1 := doFlush_keeps nextTableId _ _ fun _ _ => rfl
  refine ⟨(doFlush_frozenMemtables _ _).trans h.frozen, ?_⟩
  rw [hnext, Engine.flushActive, doFlush_activeMemtable]
  exact Nat.lt_succ_self _

theorem Settled.replayed (h : Settled e) (kv : KeyValuePair) : Settled (e.replayed kv) := by
  refine ⟨h.frozen, ?_⟩
  show (e.activeMemtable.insert kv.key kv.value kv.timestamp false).id < e.nextTableId
  rw [MemTable.insert_id]
  exact h.id

theorem Settled.replay (kvs : List KeyValuePair) (h : Settled e) :
    Settled (kvs.foldl replayEntry e).finishReplay := by
  have hreplay : ∀ e kv, Settled e → Settled (e.replayEntry kv) := by
    intro e kv h
    rw [replayEntry_eq]
    split
    · exact (h.replayed kv).flushActive.congr rfl rfl rfl
    · exact h.replayed kv
  have hlast := foldl_rule hreplay kvs h
  rw [finishReplay]
  split
  · exact hlast.flushActive.congr rfl rfl rfl
  · exact hlast.congr rfl rfl rfl

theorem construct_settled (cfg : EngineConfig) (d : Directory) : Settled (construct cfg d) := by
  have hopen : Settled ((openDirectory cfg d).raiseTs (WAL.recover d.wal).checkpointTs) := ⟨rfl, Nat.zero_lt_one⟩
  have hmark : ∀ e ts, Settled e → Settled (e.markAborted ts) := fun _ _ h => h.congr rfl rfl rfl
  have hstart : Settled (replayStart cfg d) := foldl_rule hmark _ hopen
  have hrecovered : Settled (openDirectory cfg d).recoverFromWAL := by
    unfold recoverFromWAL
    simp only []
    split
    · exact hstart
    · exact hstart.replay _
  exact hrecovered.congr rfl rfl rfl

end Kvdb.Engine
