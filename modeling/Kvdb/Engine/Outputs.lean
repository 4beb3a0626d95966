import Kvdb.Engine.Recency
import Kvdb.SSTable.SortedFile

/-! # What the tables record and what a compaction writes

`EachTable P` is the invariant that `P` relates every catalogued record to its file; a run keeps it if
the record and file of a flush and of every output meet `P`. Without batches every record describes
its file and names no aborted timestamp (`Described`).

A compaction is `Readable` if the keys of each input ascend and no cached block of an input stands
before one that is not cached. It then merges exactly the versions of its inputs, and its outputs hold
the newest version of each key, in disjoint ascending runs. -/
namespace Kvdb.Engine
set_option autoImplicit false

open SSTableFile (Ascending)

def EachTable (P : Metadata → SSTableFile → Prop) (e : Engine) : Prop :=
  ∀ md ∈ e.sstableMetadata, ∀ f, e.files md.filepath = some f → P md f

def EachMemtable (P : MemTable → Prop) (e : Engine) : Prop := ∀ m ∈ e.memtables, P m

variable {P : Metadata → SSTableFile → Prop} {M : MemTable → Prop} {e e' : Engine}

/-! ## Invariants of each table and each memtable -/

theorem EachTable.congr (h : EachTable P e) (hcat : e'.sstableMetadata = e.sstableMetadata)
    (hfiles : ∀ md ∈ e.sstableMetadata, e'.files md.filepath = e.files md.filepath) : EachTable P e' := by
  intro md hmd f hfile
  rw [hcat] at hmd
  rw [hfiles md hmd] at hfile
  exact h md hmd f hfile

theorem EachTable.doFlush (h : EachTable P e) (hf : Filed e) {m : MemTable}
    (hnew : ∀ md cache, Flushed e m md cache → P md (e.flushFile m)) : EachTable P (e.doFlush m) := by
  rcases e.doFlush_cases m with ⟨-, heq⟩ | ⟨-, md, cache, hmd, heq⟩
  · rw [heq]
    exact h
  · rw [heq]
    intro md' hmd' f hfile
    have hfile' : (if md'.filepath = e.sstableSeq then some (e.flushFile m) else e.files md'.filepath) =
        some f := hfile
    rcases List.mem_append.mp hmd' with hmd' | hmd'
    · rw [if_neg (Nat.ne_of_lt (hf.below md' hmd'))] at hfile'
      exact h md' hmd' f hfile'
    · rw [List.mem_singleton] at hmd'
      subst hmd'
      rw [if_pos hmd.filepath] at hfile'
      cases hfile'
      exact hnew md' cache hmd

theorem EachTable.compactLevel (h : EachTable P e) (hf : Filed e) {fromLevel topLevel : ℕ}
    (hout : e.nothingToCompact fromLevel topLevel = false →
      ∀ md ∈ (e.runCompact fromLevel topLevel).outputs, ∀ f,
        (md.filepath, f) ∈ (e.compactionJob fromLevel topLevel).outFiles →
        md = Compaction.outputMetadata (topLevel + 1) (e.compactionJob fromLevel topLevel).isLast
          (Compaction.mergedAborted (e.compactionInputs fromLevel topLevel)) (md.filepath, f) → P md f) :
    EachTable P (e.compactLevel fromLevel topLevel) := by
  cases hwork : e.nothingToCompact fromLevel topLevel with
  | true =>
    rw [compactLevel_of_nothing e fromLevel topLevel hwork]
    exact h
  | false =>
    intro md hmd f hfile
    rw [compactLevel_survivors hwork, List.mem_append] at hmd
    rcases hmd with hmd | hmd
    · have hcat := (Engine.mem_survivors.mp hmd).1
      rw [compactLevel_files_of_lt hwork (hf.below md hcat)] at hfile
      exact h md hcat f hfile
    · obtain ⟨f', hmem, heq, hfile'⟩ := output_file hwork hmd
      rw [hfile'] at hfile
      cases hfile
      exact hout hwork md hmd _ hmem heq

/-- A call keeps what its flush, if it makes one, and its compaction, if it makes one, keep. -/
theorem EachTable.step (h : EachTable P e) (hf : Filed e) {call : Calls.Call}
    (hs : Calls.step e call = some e')
    (hflush : ∀ m ∈ e.frozenMemtables, ∀ rest md cache,
      Flushed { e with frozenMemtables := rest } m md cache → P md (e.flushFile m))
    (hcompact : ∀ bottom top, Calls.compacted e call = some (bottom, top) →
      EachTable P (e.compactLevel bottom top)) : EachTable P e' := by
  refine catalogue_rule hs h hf (fun _ _ hcat hfiles h1 => h1.congr hcat hfiles) ?_ hcompact
  intro m hm rest
  have hpopped : EachTable P { e with frozenMemtables := rest } := h
  exact hpopped.doFlush (hf.congr rfl) (hflush m hm rest)

theorem EachMemtable.rotate (h : EachMemtable M e) (hfreeze : ∀ m, M m → M m.freeze)
    (hnew : ∀ id maxBytes, M (MemTable.new id maxBytes)) : EachMemtable M e.rotate := by
  intro m hm
  have hmems : e.rotate.memtables = e.frozenMemtables ++ [e.activeMemtable.freeze] ++
      [MemTable.new e.nextTableId e.cfg.memtableMaxBytes] := rfl
  rw [hmems, List.mem_append, List.mem_append, List.mem_singleton, List.mem_singleton] at hm
  rcases hm with (hm | rfl) | rfl
  · exact h m (List.mem_append_left _ hm)
  · exact hfreeze _ (h _ (List.mem_append_right _ List.mem_cons_self))
  · exact hnew _ _

theorem flushWorker_memtables (e : Engine) : ∀ m ∈ e.flushWorker.memtables, m ∈ e.memtables := by
  intro m hm
  unfold flushWorker at hm
  split at hm
  · exact hm
  · next m0 rest hfrozen =>
    have hrest : ∀ m ∈ ({ e with frozenMemtables := rest } : Engine).memtables, m ∈ e.memtables := by
      intro m hm
      rw [memtables, hfrozen]
      exact List.mem_cons_of_mem _ hm
    simp only [] at hm
    split at hm
    · refine hrest m ?_
      have heq : (({ e with frozenMemtables := rest } : Engine).doFlush m0).memtables =
          ({ e with frozenMemtables := rest } : Engine).memtables :=
        doFlush_keeps memtables _ m0 fun _ _ => rfl
      rw [← heq]
      exact hm
    · exact hrest m hm

/-- A call keeps what an insert, a freeze and a new memtable meet. -/
theorem EachMemtable.step (h : EachMemtable M e) {call : Calls.Call} (hs : Calls.step e call = some e')
    (hwrite : ∀ w, Calls.writes e call = some w →
      M (e.activeMemtable.insert w.key w.value (e.globalTs + 1) w.isTombstone))
    (hfreeze : ∀ m, M m → M m.freeze) (hnew : ∀ id maxBytes, M (MemTable.new id maxBytes)) :
    EachMemtable M e' := by
  refine Calls.step_rule hs h ?_ ?_ ?_ ?_ ?_ ?_ ?_
  · intro w kv hw _
    refine written_rule kv ?_ (fun _ h1 => h1.rotate hfreeze hnew) fun _ _ h1 => h1
    intro m hm
    have hmems : (e.inserted w.key w.value w.isTombstone).memtables = e.frozenMemtables ++
        [e.activeMemtable.insert w.key w.value (e.globalTs + 1) w.isTombstone] := rfl
    rw [hmems, List.mem_append, List.mem_singleton] at hm
    rcases hm with hm | rfl
    · exact h m (List.mem_append_left _ hm)
    · exact hwrite w hw
  · exact fun _ => h.rotate hfreeze hnew
  · exact fun m hm => h m (e.flushWorker_memtables m hm)
  · intro bottom top _ m hm
    rw [memtables_compactLevel] at hm
    exact h m hm
  · exact fun _ _ h1 => h1
  · intro key readTs
    obtain ⟨kv, cache, heq, -⟩ := e.lookupAt_eq key readTs
    rw [heq]
    exact h
  · exact fun _ _ => h

/-! ## Records and files -/

/-- The record of a table tells what its file holds, and nothing is aborted. -/
structure Recorded (md : Metadata) (f : SSTableFile) : Prop where
  wellFormed : f.WellFormed
  minKey : md.minKey = f.minKey
  maxKey : md.maxKey = f.maxKey
  bloom : md.bloom = f.bloom
  fileAborted : f.abortedBatchTs = []
  aborted : md.abortedBatchTs = []

structure Described (e : Engine) : Prop where
  memtables : EachMemtable MemTable.Clean e
  tables : EachTable Recorded e

/-- The record of a flush is read from its file if no index is cached under the new number. -/
theorem flushed_metadata_of_heavy {m : MemTable} {md : Metadata} {cache : Option SSTableCache}
    (hmd : Flushed e m md cache) (hheavy : ∀ c ∈ e.sstCache, c.heavy e.sstableSeq = none) :
    md = { (e.flushFile m).metadata e.sstableSeq with sourceTableId := m.id, manifestSeq := e.sstableSeq } := by
  obtain ⟨md', hread, rfl⟩ := hmd.read
  have hnone : ((e.sstCache.map fun c => c.putBlocks e.sstableSeq 0 (e.flushFile m).blocks).bind
      fun c => c.heavy e.sstableSeq) = none := by
    cases hcache : e.sstCache with
    | none => rfl
    | some c =>
      rw [Option.map_some, Option.bind_some, SSTableCache.putBlocks_heavy]
      exact hheavy c hcache
  rw [readMetadata, hnone] at hread
  obtain ⟨f, hf, heq⟩ := Option.map_eq_some_iff.mp hread
  cases hf
  cases heq
  rfl

theorem flushed_metadata {m : MemTable} {md : Metadata} {cache : Option SSTableCache}
    (hmd : Flushed e m md cache) (hfresh : ∀ c ∈ e.sstCache, ¬ c.Caches e.sstableSeq) :
    md = { (e.flushFile m).metadata e.sstableSeq with sourceTableId := m.id, manifestSeq := e.sstableSeq } := by
  refine flushed_metadata_of_heavy hmd ?_
  intro c hc
  by_contra hne
  exact hfresh c hc (.inl hne)

theorem mergedAborted_eq_nil {inputs : List Metadata} (h : ∀ i ∈ inputs, i.abortedBatchTs = []) :
    Compaction.mergedAborted inputs = [] := by
  have hnil : inputs.flatMap Metadata.abortedBatchTs = [] := List.flatMap_eq_nil_iff.mpr h
  rw [Compaction.mergedAborted, hnil]
  rfl

section Described

variable {fromLevel topLevel : ℕ}

theorem Described.mergedAborted (h : Described e) (hf : Filed e) (fromLevel topLevel : ℕ) :
    Compaction.mergedAborted (e.compactionInputs fromLevel topLevel) = [] := by
  refine mergedAborted_eq_nil ?_
  intro i hi
  have hicat := ((mem_compactionInputs e fromLevel topLevel i).mp hi).1
  obtain ⟨f, hfile⟩ := hf.files i hicat
  exact (h.tables i hicat f hfile).aborted

/-- An output is written by `Write`, with no aborted timestamps. -/
theorem Described.output (h : Described e) (hf : Filed e) {md : Metadata} {f : SSTableFile}
    (hout : (md.filepath, f) ∈ (e.compactionJob fromLevel topLevel).outFiles) :
    ∃ batch ∈ (e.compactionJob fromLevel topLevel).batches, f = SSTableFile.write e.cfg.bloomSizing batch [] := by
  obtain ⟨batch, hbatch, heq⟩ := mem_outputFiles hout
  refine ⟨batch, hbatch, ?_⟩
  have haborted : (if (e.compactionJob fromLevel topLevel).isLast then []
      else Compaction.mergedAborted (e.compactionJob fromLevel topLevel).inputs) = [] := by
    split
    · rfl
    · exact h.mergedAborted hf fromLevel topLevel
  rw [haborted] at heq
  exact heq

theorem Described.compactLevel (h : Described e) (hf : Filed e) (fromLevel topLevel : ℕ) :
    EachTable Recorded (e.compactLevel fromLevel topLevel) := by
  refine h.tables.compactLevel hf ?_
  intro _ md _ f hout heq
  obtain ⟨batch, -, rfl⟩ := h.output hf hout
  rw [heq]
  refine ⟨SSTableFile.write_wellFormed _ _ _, rfl, rfl, rfl, rfl, ?_⟩
  show (if (e.compactionJob fromLevel topLevel).isLast then [] else
    Compaction.mergedAborted (e.compactionInputs fromLevel topLevel)) = []
  split
  · rfl
  · exact h.mergedAborted hf fromLevel topLevel

theorem Described.step (h : Described e) (hr : Running e) {call : Calls.Call}
    (hs : Calls.step e call = some e') : Described e' := by
  refine ⟨?_, ?_⟩
  · refine h.memtables.step hs ?_ (fun _ hm => hm.freeze) MemTable.clean_new
    intro w _
    exact (h.memtables _ (List.mem_append_right _ List.mem_cons_self)).insert _ _ _ _
  · refine h.tables.step hr.filed hs ?_ fun bottom top _ => h.compactLevel hr.filed bottom top
    intro m hm rest md cache hmd
    have hfresh : ∀ c ∈ e.sstCache, ¬ c.Caches e.sstableSeq :=
      fun c hc hcaches => Nat.lt_irrefl _ (hr.keyed.cached c hc _ hcaches)
    have haborted : m.tree.abortedBatchTs = [] := (h.memtables m (List.mem_append_left _ hm)).noAborted
    rw [flushed_metadata hmd hfresh]
    exact ⟨SSTableFile.writeFromWalk_wellFormed _ _ _ _, rfl, rfl, rfl, haborted, haborted⟩

end Described

theorem create_described (cfg : EngineConfig) : Described (create cfg) := by
  refine ⟨?_, fun md hmd => (by cases hmd)⟩
  intro m hm
  rw [List.mem_singleton.mp hm]
  exact MemTable.clean_new _ _

/-- The invariants of every run without batches, with the records of the tables. -/
theorem run_described (cfg : EngineConfig) {calls : List Calls.Call} {e : Engine}
    (h : Runs.Run Calls.step Runs.anyStep (create cfg) calls e) : Running e ∧ Described e := by
  refine h.invariant (I := fun e => Running e ∧ Described e) ?_ ⟨create_running cfg, create_described cfg⟩
  rintro e call e' - hs ⟨hr, hd⟩
  exact ⟨hr.step hs, hd.step hr hs⟩

/-! ## Readable inputs -/

/-- The versions that the inputs of a compaction hold. -/
def inputEntries (e : Engine) (fromLevel topLevel : ℕ) : List KeyValuePair :=
  (e.compactionInputs fromLevel topLevel).flatMap e.tableEntries

/-- What the cache holds of the blocks of a table. -/
def blocksCached (e : Engine) (md : Metadata) : ℕ → Option (List KeyValuePair) :=
  cachedBlocks (e.sstCache.getD SSTableCache.empty) md.manifestSeq

def Readable (e : Engine) (fromLevel topLevel : ℕ) : Prop :=
  ∀ i ∈ e.compactionInputs fromLevel topLevel, ∀ f ∈ e.files i.filepath,
    Ascending f.entries ∧ SSTableIterator.InOrder f (e.blocksCached i)

instance decidableReadable (e : Engine) (fromLevel topLevel : ℕ) : Decidable (Readable e fromLevel topLevel) :=
  inferInstanceAs (Decidable (∀ i ∈ e.compactionInputs fromLevel topLevel, ∀ f ∈ e.files i.filepath,
    f.entries.Pairwise (fun a b => a.key < b.key) ∧ SSTableIterator.InOrder f (e.blocksCached i)))

theorem mem_inputEntries {fromLevel topLevel : ℕ} {x : KeyValuePair} :
    x ∈ e.inputEntries fromLevel topLevel ↔
      ∃ i ∈ e.compactionInputs fromLevel topLevel, x ∈ e.tableEntries i := List.mem_flatMap

section Readable

variable {fromLevel topLevel : ℕ} (hr : Running e) (hd : Described e)
  (hread : Readable e fromLevel topLevel)

include hr hd hread

/-- The iterator over an input yields its versions. -/
theorem stream_input {i : Metadata} (hi : i ∈ e.compactionInputs fromLevel topLevel) :
    SSTableIterator.stream (e.files i.filepath) (e.blocksCached i)
      (Compaction.mergedAborted (e.compactionInputs fromLevel topLevel)) = e.tableEntries i := by
  have hicat := ((mem_compactionInputs e fromLevel topLevel i).mp hi).1
  obtain ⟨f, hfile⟩ := hr.filed.files i hicat
  have hrec := hd.tables i hicat f hfile
  rw [hd.mergedAborted hr.filed, hfile, tableEntries, hfile]
  exact SSTableIterator.stream_eq hrec.wellFormed (hr.keyed.cachedFrom hicat hfile) (hread i hi f hfile).2

theorem sources_ascending :
    ∀ src ∈ (e.compactionJob fromLevel topLevel).sources, Ascending src := by
  intro src hsrc
  obtain ⟨i, hi, rfl⟩ := List.mem_map.mp (List.mem_of_mem_filter hsrc)
  have hinput := (List.mem_insertionSort _).mp hi
  obtain ⟨f, hfile⟩ := hr.filed.files i ((mem_compactionInputs e fromLevel topLevel i).mp hinput).1
  have hstream := stream_input hr hd hread hinput
  rw [tableEntries, hfile, Option.map_some, Option.getD_some] at hstream
  have hasc := (hread i hinput f hfile).1
  rw [← hstream, ← hfile] at hasc
  exact hasc

theorem mem_sources_iff (x : KeyValuePair) :
    x ∈ (e.compactionJob fromLevel topLevel).sources.flatten ↔ x ∈ e.inputEntries fromLevel topLevel := by
  rw [mem_inputEntries]
  refine ⟨mem_sources hr.filed hr.keyed, ?_⟩
  rintro ⟨i, hi, hx⟩
  rw [← stream_input hr hd hread hi] at hx
  refine List.mem_flatten.mpr ⟨_, List.mem_filter.mpr ⟨List.mem_map_of_mem ((List.mem_insertionSort _).mpr hi), ?_⟩, hx⟩
  rw [Bool.not_eq_true', List.isEmpty_eq_false_iff]
  exact List.ne_nil_of_mem hx

omit hd hread in
theorem sources_visible :
    ∀ x ∈ (e.compactionJob fromLevel topLevel).sources.flatten, x.timestamp ≤ e.globalTs := by
  intro x hx
  obtain ⟨i, hi, hx⟩ := mem_sources hr.filed hr.keyed hx
  exact hr.recent.tablesVisible i ((mem_compactionInputs e fromLevel topLevel i).mp hi).1 x hx

theorem merged_ascending : Ascending (e.compactionJob fromLevel topLevel).merged :=
  Compaction.merge_ascending (sources_ascending hr hd hread) (sources_visible hr) _

/-- What is merged of a key is its newest version. -/
theorem merged_newest {x : KeyValuePair} (hx : x ∈ (e.compactionJob fromLevel topLevel).merged) :
    Compaction.Newest (e.inputEntries fromLevel topLevel) x := by
  obtain ⟨hmem, hnew⟩ := Compaction.merge_newest (sources_ascending hr hd hread) (sources_visible hr) _ x hx
  refine ⟨(mem_sources_iff hr hd hread x).mp hmem, ?_⟩
  intro y hy
  exact hnew y ((mem_sources_iff hr hd hread y).mpr hy)

/-- Below the last level no key is lost. -/
theorem merged_complete (hlast : topLevel + 1 ≠ Config.maxLevel) {y : KeyValuePair}
    (hy : y ∈ e.inputEntries fromLevel topLevel) :
    ∃ x ∈ (e.compactionJob fromLevel topLevel).merged, x.key = y.key := by
  have hmerged : (e.compactionJob fromLevel topLevel).merged =
      Compaction.merge e.globalTs false [] [] (e.compactionJob fromLevel topLevel).sources := by
    show Compaction.merge e.globalTs (decide (topLevel + 1 = Config.maxLevel)) [] []
      (e.compactionJob fromLevel topLevel).sources = _
    rw [decide_eq_false hlast]
  rw [hmerged]
  exact Compaction.merge_complete (sources_ascending hr hd hread) (sources_visible hr) y
    ((mem_sources_iff hr hd hread y).mpr hy)

/-- At the last level a key is kept if no dropped tombstone stands before it. -/
theorem merged_last_complete (hlast : topLevel + 1 = Config.maxLevel) {x : KeyValuePair}
    (hx : x ∈ e.inputEntries fromLevel topLevel)
    (hreach : ∀ w, Compaction.Newest (e.inputEntries fromLevel topLevel) w → w.isTombstone = true → x.key < w.key) :
    ∃ z ∈ (e.compactionJob fromLevel topLevel).merged, z.key = x.key := by
  have hasc := sources_ascending hr hd hread
  have hvis : ∀ x ∈ (e.compactionJob fromLevel topLevel).sources.flatten, x.timestamp ≤ e.globalTs :=
    sources_visible hr
  have hmerged : (e.compactionJob fromLevel topLevel).merged =
      (Compaction.merge e.globalTs false [] [] (e.compactionJob fromLevel topLevel).sources).takeWhile
        fun x => !x.isTombstone := by
    rw [← Compaction.merge_last hasc hvis]
    show Compaction.merge e.globalTs (decide (topLevel + 1 = Config.maxLevel)) [] []
      (e.compactionJob fromLevel topLevel).sources = _
    rw [decide_eq_true hlast]
  obtain ⟨z, hz, hzkey⟩ := Compaction.merge_complete hasc hvis x ((mem_sources_iff hr hd hread x).mpr hx)
  refine ⟨z, ?_, hzkey⟩
  rw [hmerged]
  refine Compaction.mem_takeWhile_of_ascending (Compaction.merge_ascending hasc hvis false) hz ?_
  intro w hw hle
  obtain ⟨hwmem, hwnew⟩ := Compaction.merge_newest hasc hvis false w hw
  rw [Bool.not_eq_true']
  by_contra htomb
  have hlt := hreach w ⟨(mem_sources_iff hr hd hread w).mp hwmem, fun y hy =>
    hwnew y ((mem_sources_iff hr hd hread y).mpr hy)⟩ (by simpa using htomb)
  rw [← hzkey] at hlt
  exact absurd hle (not_le.mpr hlt)

end Readable

/-! ## The outputs -/

section Outputs

variable {fromLevel topLevel : ℕ}

/-- The outputs hold the batches, one each. -/
theorem outputs_entries (hwork : e.nothingToCompact fromLevel topLevel = false)
    (hsources : (e.compactionJob fromLevel topLevel).sources ≠ []) :
    (e.runCompact fromLevel topLevel).outputs.map (e.compactLevel fromLevel topLevel).tableEntries =
      (e.compactionJob fromLevel topLevel).batches := by
  have hrun : e.runCompact fromLevel topLevel =
      ⟨(e.compactionJob fromLevel topLevel).outFiles, (e.compactionJob fromLevel topLevel).outputs,
        (e.compactionJob fromLevel topLevel).inputs.map Metadata.filepath⟩ := by
    rw [runCompact, Compaction.compact, if_neg (by simpa using hsources)]
  have houtputs : (e.runCompact fromLevel topLevel).outputs = (e.compactionJob fromLevel topLevel).outputs := by
    rw [hrun]
  have hnodup := (Compaction.compact_numbers (e.compactionJob fromLevel topLevel)).2
  have hfile : ∀ p ∈ (e.compactionJob fromLevel topLevel).outFiles,
      (e.compactLevel fromLevel topLevel).files p.1 = some p.2 := by
    intro p hp
    rw [compactLevel_eq e fromLevel topLevel hwork, hrun]
    refine writeOutputs_files_of_mem _ _ ?_ hp
    rw [show Compaction.compact (e.compactionJob fromLevel topLevel) = e.runCompact fromLevel topLevel from rfl,
      houtputs, Compaction.Job.outputs, List.map_map] at hnodup
    exact hnodup
  rw [houtputs, Compaction.Job.outputs, List.map_map]
  refine Eq.trans (List.map_congr_left ?_) (Compaction.outputFiles_entries _ _ _ _)
  intro p hp
  show (((e.compactLevel fromLevel topLevel).files p.1).map SSTableFile.entries).getD [] = p.2.entries
  rw [hfile p hp]
  rfl

theorem outputs_of_no_sources (hsources : (e.compactionJob fromLevel topLevel).sources = []) :
    (e.runCompact fromLevel topLevel).outputs = [] := by
  rw [runCompact, Compaction.compact, if_pos (by simp [hsources])]

/-- The outputs of ascending merged entries ascend from one to the next. -/
theorem outputs_ascending (hr : Running e) (hd : Described e) (hread : Readable e fromLevel topLevel)
    (hwork : e.nothingToCompact fromLevel topLevel = false) :
    (e.runCompact fromLevel topLevel).outputs.Pairwise fun a b =>
      ∀ x ∈ (e.compactLevel fromLevel topLevel).tableEntries a,
        ∀ y ∈ (e.compactLevel fromLevel topLevel).tableEntries b, x.key < y.key := by
  by_cases hsources : (e.compactionJob fromLevel topLevel).sources = []
  · rw [outputs_of_no_sources hsources]
    exact List.Pairwise.nil
  · have hasc := merged_ascending hr hd hread
    have hflat : (e.compactionJob fromLevel topLevel).batches.flatten =
        (e.compactionJob fromLevel topLevel).merged := Pack.pack_flatten _ _ _ _
    rw [← hflat, Ascending, List.pairwise_flatten, ← outputs_entries hwork hsources, List.pairwise_map] at hasc
    exact hasc.2

/-- The bounds of an output are keys that it holds. -/
theorem output_range (hf : Filed e) (hd : Described e) (hwork : e.nothingToCompact fromLevel topLevel = false)
    {md : Metadata} (hmd : md ∈ (e.runCompact fromLevel topLevel).outputs) :
    (∃ x ∈ (e.compactLevel fromLevel topLevel).tableEntries md, x.key = md.minKey) ∧
      ∃ x ∈ (e.compactLevel fromLevel topLevel).tableEntries md, x.key = md.maxKey := by
  obtain ⟨f, hout, heq, hfile⟩ := output_file hwork hmd
  obtain ⟨batch, hbatch, rfl⟩ := hd.output hf hout
  have hne : batch ≠ [] := Pack.pack_ne_nil _ _ _ _ batch hbatch
  have hentries : (e.compactLevel fromLevel topLevel).tableEntries md = batch := by
    rw [tableEntries, hfile]
    exact SSTableFile.entries_write _ _ _
  rw [hentries, heq]
  exact ⟨SSTableFile.head_attained hne, SSTableFile.getLast_attained hne⟩

end Outputs

end Kvdb.Engine
