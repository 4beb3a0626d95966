import Kvdb.Engine.Tables
import Kvdb.Snapshot.Readers

/-! # Deferred deletion of SSTable files (`DeferFileGC`, `DrainFileGC`)

A compaction takes its inputs out of the catalogue, reads `global_ts_` as the fence of the garbage and queues it.
`DrainFileGC` deletes a file when both trackers report a minimum that is not below its fence. A reader that has
taken the timestamp of the fence, or a `RangeIterator`, which is registered nowhere, may still have the file in its
copy of the catalogue. -/
namespace Kvdb.FileGC
set_option autoImplicit false

open Kvdb.Runs Kvdb.Engine
open Kvdb.Snapshot (Which Call)

/-- Where a reader stands: the trackers it is registered with, or a `RangeIterator` that has been returned. -/
inductive Stage where
  | idle
  | begun
  | memtables
  | both
  | sstables
  | live
  deriving DecidableEq

/-- A thread in `Lookup` or `RangeScan`, with the copy of the catalogue that it has taken. -/
structure Reader where
  call : Call
  readTs : ℕ
  stage : Stage
  snap : Option (List Metadata)

def Reader.registered (r : Reader) : Which → Bool
  | .memtables => decide (r.stage = .memtables ∨ r.stage = .both)
  | .sstables => decide (r.stage = .both ∨ r.stage = .sstables)

/-- The copy of the catalogue has the file. -/
def Reader.holds (r : Reader) (path : ℕ) : Prop := ∃ mds ∈ r.snap, ∃ md ∈ mds, md.filepath = path

instance decidableHolds (r : Reader) (path : ℕ) : Decidable (r.holds path) :=
  inferInstanceAs (Decidable (∃ mds ∈ r.snap, ∃ md ∈ mds, md.filepath = path))

/-- Where a thread stands in `CompactLevel`. -/
inductive CompactStage where
  | idle
  | merged (inputs : List Metadata) (result : Compaction.Result)
  | published (inputs : List Metadata) (result : Compaction.Result)
  | recorded (inputs : List Metadata) (result : Compaction.Result)
  | deferring (inputs : List Metadata) (left : List ℕ) (fence : ℕ)

/-- The loop of `DrainFileGC` under the mutex: the entries left, and the first of the two minima for the next one. -/
inductive DrainStage where
  | idle
  | examining (todo : List PendingFileGC) (first : Option (Which × ℕ))

variable {n : ℕ}

/-- `ready` are the files that drains have taken out of the queue and not deleted yet. -/
structure State (n : ℕ) where
  engine : Engine
  compact : CompactStage
  drain : DrainStage
  ready : List PendingFileGC
  readers : Fin n → Reader

inductive ReaderAction where
  | start (call : Call)
  | acquire (x : Which)
  | snapshot
  | releaseMemtables
  | finish
  | destroy

inductive Action (n : ℕ) where
  | call (c : Calls.Call)
  | compactStart (fromLevel topLevel : ℕ)
  | compactPublish
  | compactRecord
  | compactFence
  | deferFileGC
  | drainLock
  | report (x : Which) (minActiveTs : ℕ)
  | drainUnlock
  | remove (p : PendingFileGC)
  | reader (k : Fin n) (a : ReaderAction)

def init (cfg : EngineConfig) (n : ℕ) : State n :=
  ⟨Engine.create cfg, .idle, .idle, [], fun _ => ⟨.lookup, 0, .idle, none⟩⟩

/-- `Lookup` copies the catalogue when it is registered for the SSTables, and it may return before, with a hit in the
key-value cache or in a memtable; `RangeScan` copies it first, and its iterator outlives both registrations. -/
def Reader.step (e : Engine) (r : Reader) : ReaderAction → Option Reader
  | .start call => if r.stage = .idle then some ⟨call, e.globalTs, .begun, none⟩ else none
  | .acquire .memtables => if r.stage = .begun then some { r with stage := .memtables } else none
  | .acquire .sstables =>
    if r.stage = .memtables ∧ (r.call = .rangeScan → r.snap.isSome) then some { r with stage := .both } else none
  | .snapshot =>
    if r.snap.isNone ∧ (r.call = .lookup ∧ r.stage = .sstables ∨ r.call = .rangeScan ∧ r.stage = .memtables) then
      some { r with snap := some e.sstableMetadata }
    else none
  | .releaseMemtables => if r.stage = .both then some { r with stage := .sstables } else none
  | .finish =>
    match r.call with
    | .lookup => if r.stage = .begun ∨ r.stage = .sstables then some { r with stage := .idle, snap := none } else none
    | .rangeScan => if r.stage = .sstables then some { r with stage := .live } else none
  | .destroy => if r.stage = .live then some { r with stage := .idle, snap := none } else none

/-- The calls that neither compact nor drain, which have their own steps. -/
def plainCall : Calls.Call → Bool
  | .insert _ _ | .delete _ | .rotate | .flushWorker | .evict _ _ => true
  | _ => false

/-- One file of the loop at the end of `CompactLevel`. -/
def deferFile (e : Engine) (inputs : List Metadata) (path fence : ℕ) : Engine :=
  { e with
    sstCache := e.sstCache.map fun c => c.invalidate (gcSeq inputs path)
    pendingGc := e.pendingGc ++ [⟨path, gcSeq inputs path, fence⟩] }

/-- One file of the second loop of `DrainFileGC`. -/
def removeFile (e : Engine) (p : PendingFileGC) : Engine :=
  { e with
    sstCache := e.sstCache.map fun c => c.invalidate p.manifestSeq
    files := fun path => if path = p.filepath then none else e.files path }

/-- The end of a round of the first loop, with the smaller of the two minima. -/
def State.examined (s : State n) (p : PendingFileGC) (todo : List PendingFileGC) (minActiveTs : ℕ) : State n :=
  if p.fenceTs ≤ minActiveTs then
    { s with
      engine := { s.engine with pendingGc := s.engine.pendingGc.erase p }
      drain := .examining todo none
      ready := p :: s.ready }
  else { s with drain := .examining todo none }

/-- The two arguments of `std::min` may be evaluated in either order. -/
def step (s : State n) : Action n → Option (State n)
  | .call c => if plainCall c then (Calls.step s.engine c).map fun e => { s with engine := e } else none
  | .compactStart fromLevel topLevel =>
    match s.compact with
    | .idle =>
      if s.engine.nothingToCompact fromLevel topLevel then none
      else some { s with
        engine := (s.engine.reserveSeq reservedOutputs).writeOutputs (s.engine.runCompact fromLevel topLevel).files
        compact := .merged (s.engine.compactionInputs fromLevel topLevel) (s.engine.runCompact fromLevel topLevel) }
    | _ => none
  | .compactPublish =>
    match s.compact with
    | .merged inputs result =>
      some { s with engine := s.engine.publishCompaction inputs result.outputs, compact := .published inputs result }
    | _ => none
  | .compactRecord =>
    match s.compact with
    | .published inputs result =>
      some { s with engine := s.engine.recordCompaction inputs result.outputs, compact := .recorded inputs result }
    | _ => none
  | .compactFence =>
    match s.compact with
    | .recorded inputs result => some { s with compact := .deferring inputs result.garbage s.engine.globalTs }
    | _ => none
  | .deferFileGC =>
    match s.compact, s.drain with
    | .deferring _ [] _, _ => some { s with compact := .idle }
    | .deferring inputs (path :: left) fence, .idle =>
      some { s with engine := deferFile s.engine inputs path fence, compact := .deferring inputs left fence }
    | _, _ => none
  | .drainLock =>
    match s.drain with
    | .idle => some { s with drain := .examining s.engine.pendingGc none }
    | _ => none
  | .report x minActiveTs =>
    match s.drain with
    | .examining (p :: todo) none => some { s with drain := .examining (p :: todo) (some (x, minActiveTs)) }
    | .examining (p :: todo) (some (y, first)) => if x = y then none else some (s.examined p todo (min first minActiveTs))
    | _ => none
  | .drainUnlock =>
    match s.drain with
    | .examining [] none => some { s with drain := .idle }
    | _ => none
  | .remove p =>
    if p ∈ s.ready then some { s with engine := removeFile s.engine p, ready := s.ready.erase p } else none
  | .reader k a => ((s.readers k).step s.engine a).map fun r => { s with readers := Function.update s.readers k r }

/-- What is assumed of the trackers: the minimum is at or below the timestamp of every registered reader. -/
def Reported (s : State n) : Action n → Prop
  | .report x minActiveTs => ∀ k, (s.readers k).registered x = true → minActiveTs ≤ (s.readers k).readTs
  | _ => True

/-- The condition on a step. When the fence is read, the timestamp of every reader that holds one of the files is below
it. When the second minimum for a file is read, no `RangeIterator` holds the file. Between a minimum for the SSTables and
one for the memtables, no reader that holds the file leaves the first tracker. -/
def Clear (s : State n) : Action n → Prop
  | .compactFence =>
    match s.compact with
    | .recorded _ result => ∀ k, (s.readers k).stage ≠ .live → ∀ path ∈ result.garbage, (s.readers k).holds path →
        (s.readers k).readTs < s.engine.globalTs
    | _ => True
  | .report _ _ =>
    match s.drain with
    | .examining (p :: _) (some _) => ∀ k, (s.readers k).stage = .live → ¬ (s.readers k).holds p.filepath
    | _ => True
  | .reader k .releaseMemtables =>
    match s.drain with
    | .examining (p :: _) (some (.sstables, _)) => ¬ (s.readers k).holds p.filepath
    | _ => True
  | _ => True

def Allowed (s : State n) (a : Action n) : Prop := Reported s a ∧ Clear s a

instance decidableReported (s : State n) (a : Action n) : Decidable (Reported s a) := by
  cases a <;> unfold Reported <;> infer_instance

instance decidableClear (s : State n) (a : Action n) : Decidable (Clear s a) := by
  unfold Clear
  split
  · split <;> infer_instance
  · split <;> infer_instance
  · split <;> infer_instance
  · infer_instance

instance decidableAllowed (s : State n) (a : Action n) : Decidable (Allowed s a) :=
  inferInstanceAs (Decidable (_ ∧ _))

/-! ## What a step does -/

section Cases

variable {s t : State n}

theorem call_cases {c : Calls.Call} (hs : step s (.call c) = some t) :
    plainCall c = true ∧ ∃ e, Calls.step s.engine c = some e ∧ t = { s with engine := e } := by
  simp only [step] at hs
  split at hs
  · next hplain =>
    obtain ⟨e, he, rfl⟩ := Option.map_eq_some_iff.mp hs
    exact ⟨hplain, e, he, rfl⟩
  · cases hs

theorem compactStart_cases {fromLevel topLevel : ℕ} (hs : step s (.compactStart fromLevel topLevel) = some t) :
    s.compact = .idle ∧ t = { s with
      engine := (s.engine.reserveSeq reservedOutputs).writeOutputs (s.engine.runCompact fromLevel topLevel).files
      compact := .merged (s.engine.compactionInputs fromLevel topLevel) (s.engine.runCompact fromLevel topLevel) } := by
  simp only [step] at hs
  split at hs
  · next hidle =>
    split at hs
    · cases hs
    · cases hs
      exact ⟨hidle, rfl⟩
  · cases hs

theorem compactPublish_cases (hs : step s .compactPublish = some t) :
    ∃ inputs result, s.compact = .merged inputs result ∧ t = { s with
      engine := s.engine.publishCompaction inputs result.outputs
      compact := .published inputs result } := by
  simp only [step] at hs
  split at hs
  · next inputs result hmerged =>
    cases hs
    exact ⟨inputs, result, hmerged, rfl⟩
  · cases hs

theorem compactRecord_cases (hs : step s .compactRecord = some t) :
    ∃ inputs result, s.compact = .published inputs result ∧ t = { s with
      engine := s.engine.recordCompaction inputs result.outputs
      compact := .recorded inputs result } := by
  simp only [step] at hs
  split at hs
  · next inputs result hpublished =>
    cases hs
    exact ⟨inputs, result, hpublished, rfl⟩
  · cases hs

theorem compactFence_cases (hs : step s .compactFence = some t) :
    ∃ inputs result, s.compact = .recorded inputs result ∧
      t = { s with compact := .deferring inputs result.garbage s.engine.globalTs } := by
  simp only [step] at hs
  split at hs
  · next inputs result hrecorded =>
    cases hs
    exact ⟨inputs, result, hrecorded, rfl⟩
  · cases hs

theorem deferFileGC_cases (hs : step s .deferFileGC = some t) :
    (∃ inputs fence, s.compact = .deferring inputs [] fence ∧ t = { s with compact := .idle }) ∨
      ∃ inputs path left fence, s.compact = .deferring inputs (path :: left) fence ∧ s.drain = .idle ∧
        t = { s with engine := deferFile s.engine inputs path fence, compact := .deferring inputs left fence } := by
  simp only [step] at hs
  split at hs
  · next inputs fence hcompact =>
    cases hs
    exact .inl ⟨inputs, fence, hcompact, rfl⟩
  · next inputs path left fence hcompact hdrain =>
    cases hs
    exact .inr ⟨inputs, path, left, fence, hcompact, hdrain, rfl⟩
  · cases hs

theorem drainLock_cases (hs : step s .drainLock = some t) :
    s.drain = .idle ∧ t = { s with drain := .examining s.engine.pendingGc none } := by
  simp only [step] at hs
  split at hs
  · next hidle =>
    cases hs
    exact ⟨hidle, rfl⟩
  · cases hs

theorem report_cases {x : Which} {minActiveTs : ℕ} (hs : step s (.report x minActiveTs) = some t) :
    ∃ p todo, (s.drain = .examining (p :: todo) none ∧
        t = { s with drain := .examining (p :: todo) (some (x, minActiveTs)) }) ∨
      ∃ y first, x ≠ y ∧ s.drain = .examining (p :: todo) (some (y, first)) ∧
        t = s.examined p todo (min first minActiveTs) := by
  simp only [step] at hs
  split at hs
  · next p todo hdrain =>
    cases hs
    exact ⟨p, todo, .inl ⟨hdrain, rfl⟩⟩
  · next p todo y first hdrain =>
    split at hs
    · cases hs
    · next hne =>
      cases hs
      exact ⟨p, todo, .inr ⟨y, first, hne, hdrain, rfl⟩⟩
  · cases hs

theorem drainUnlock_cases (hs : step s .drainUnlock = some t) :
    s.drain = .examining [] none ∧ t = { s with drain := .idle } := by
  simp only [step] at hs
  split at hs
  · next hdrain =>
    cases hs
    exact ⟨hdrain, rfl⟩
  · cases hs

theorem remove_cases {p : PendingFileGC} (hs : step s (.remove p) = some t) :
    p ∈ s.ready ∧ t = { s with engine := removeFile s.engine p, ready := s.ready.erase p } := by
  simp only [step] at hs
  split at hs
  · next hp =>
    cases hs
    exact ⟨hp, rfl⟩
  · cases hs

theorem reader_cases {k : Fin n} {a : ReaderAction} (hs : step s (.reader k a) = some t) :
    ∃ r, (s.readers k).step s.engine a = some r ∧ t = { s with readers := Function.update s.readers k r } := by
  obtain ⟨r, hr, rfl⟩ := Option.map_eq_some_iff.mp hs
  exact ⟨r, hr, rfl⟩

end Cases

/-! ## The names of the files -/

/-- The garbage of a compaction that is out of the catalogue and not queued yet. -/
def garbageOf : CompactStage → List ℕ
  | .published _ result => result.garbage
  | .recorded _ result => result.garbage
  | .deferring _ left _ => left
  | _ => []

def todoOf : DrainStage → List PendingFileGC
  | .examining todo _ => todo
  | .idle => []

/-- The queue, and what a drain has still to examine of it. -/
def queue (s : State n) : List PendingFileGC := s.engine.pendingGc ++ todoOf s.drain

/-- The files that are deleted sooner or later. -/
def doomed (s : State n) : List ℕ := (queue s ++ s.ready).map PendingFileGC.filepath ++ garbageOf s.compact

/-- The outputs that are published and not counted by `sstable_seq_` yet. -/
def uncounted : CompactStage → ℕ
  | .published _ result => result.outputs.length
  | _ => 0

/-- No file that is to be deleted is in the catalogue, and none comes back under a new name. -/
structure Named (s : State n) : Prop where
  below : ∀ md ∈ s.engine.sstableMetadata, md.filepath < s.engine.sstableSeq + uncounted s.compact
  gone : ∀ path ∈ doomed s, path < s.engine.sstableSeq ∧ ∀ md ∈ s.engine.sstableMetadata, md.filepath ≠ path
  merged : ∀ inputs result, s.compact = .merged inputs result →
    (∀ path ∈ result.garbage, ∃ i ∈ inputs, i.filepath = path) ∧ (∀ i ∈ inputs, i.filepath < s.engine.sstableSeq) ∧
      ∀ out ∈ result.outputs, out.filepath < s.engine.sstableSeq + result.outputs.length ∧
        (∀ i ∈ inputs, i.filepath < out.filepath) ∧ ∀ path ∈ doomed s, path < out.filepath

section Names

variable {s t : State n}

/-- Steps that add tables under new numbers only. -/
theorem Named.quiet (h : Named s) (hcompact : t.compact = s.compact)
    (hseq : s.engine.sstableSeq ≤ t.engine.sstableSeq)
    (hcat : ∀ md ∈ t.engine.sstableMetadata, md ∈ s.engine.sstableMetadata ∨
      s.engine.sstableSeq ≤ md.filepath ∧ md.filepath < t.engine.sstableSeq)
    (hdoomed : ∀ path ∈ doomed t, path ∈ doomed s) : Named t := by
  refine ⟨?_, ?_, ?_⟩
  · intro md hmd
    rw [hcompact]
    rcases hcat md hmd with hold | hnew
    · have hlt := h.below md hold
      omega
    · omega
  · intro path hpath
    obtain ⟨hlt, hne⟩ := h.gone path (hdoomed path hpath)
    refine ⟨hlt.trans_le hseq, ?_⟩
    intro md hmd
    rcases hcat md hmd with hold | hnew
    · exact hne md hold
    · omega
  · intro inputs result hmerged
    obtain ⟨hgarbage, hinputs, houtputs⟩ := h.merged inputs result (hcompact.symm.trans hmerged)
    refine ⟨hgarbage, fun i hi => (hinputs i hi).trans_le hseq, ?_⟩
    intro out hout
    obtain ⟨hlt, hfresh, hpending⟩ := houtputs out hout
    exact ⟨hlt.trans_le (Nat.add_le_add_right hseq _), hfresh, fun path hpath => hpending path (hdoomed path hpath)⟩

/-- What the calls outside compactions and drains do to the tables. -/
theorem plainCall_tables {e e' : Engine} {c : Calls.Call} (hplain : plainCall c = true) (hs : Calls.step e c = some e') :
    e'.pendingGc = e.pendingGc ∧ e.sstableSeq ≤ e'.sstableSeq ∧
      ∀ md ∈ e'.sstableMetadata, md ∈ e.sstableMetadata ∨ e.sstableSeq ≤ md.filepath ∧ md.filepath < e'.sstableSeq := by
  have hsame : e'.tables = e.tables → e'.pendingGc = e.pendingGc ∧ e.sstableSeq ≤ e'.sstableSeq ∧
      ∀ md ∈ e'.sstableMetadata, md ∈ e.sstableMetadata ∨ e.sstableSeq ≤ md.filepath ∧ md.filepath < e'.sstableSeq := by
    intro ht
    simp only [tables, Prod.mk.injEq] at ht
    obtain ⟨hcat, -, hseq, -, hgc⟩ := ht
    rw [hcat, hseq, hgc]
    exact ⟨rfl, Nat.le_refl _, fun md hmd => .inl hmd⟩
  cases c with
  | insert key value =>
    obtain ⟨-, rfl⟩ := Calls.insert_step hs
    exact hsame (tables_written e key value false _)
  | delete key =>
    obtain ⟨-, rfl⟩ := Calls.delete_step hs
    exact hsame (tables_written e key [] true _)
  | rotate =>
    simp only [Calls.step] at hs
    split at hs
    · cases hs
    · cases hs
      exact hsame rfl
  | flushWorker =>
    cases hs
    rcases e.tables_flushWorker with ht | ⟨m, -, rest, ht⟩
    · exact hsame ht
    · simp only [tables, Prod.mk.injEq] at ht
      obtain ⟨hcat, -, hseq, -, hgc⟩ := ht
      rw [hcat, hseq, hgc]
      rcases ({ e with frozenMemtables := rest } : Engine).doFlush_cases m with ⟨-, heq⟩ | ⟨-, md, cache, hmd, heq⟩
      · rw [heq]
        exact ⟨rfl, Nat.le_refl _, fun md hmd => .inl hmd⟩
      · rw [heq]
        refine ⟨rfl, Nat.le_succ _, ?_⟩
        intro md' hmd'
        rcases List.mem_append.mp hmd' with hold | hnew
        · exact .inl hold
        · right
          rw [List.mem_singleton.mp hnew, hmd.filepath]
          exact ⟨Nat.le_refl _, Nat.lt_succ_self _⟩
  | evict keepHeavy keepBlock =>
    cases hs
    exact ⟨rfl, Nat.le_refl _, fun md hmd => .inl hmd⟩
  | _ => cases hplain

theorem mem_doomed {path : ℕ} :
    path ∈ doomed s ↔ (∃ p ∈ queue s, p.filepath = path) ∨ (∃ p ∈ s.ready, p.filepath = path) ∨
      path ∈ garbageOf s.compact := by
  simp only [doomed, List.mem_append, List.mem_map, or_and_right, exists_or, or_assoc]

theorem Named.compactStart (h : Named s) {fromLevel topLevel : ℕ}
    (hs : step s (.compactStart fromLevel topLevel) = some t) : Named t := by
  obtain ⟨hidle, rfl⟩ := compactStart_cases hs
  have hbelow := h.below
  rw [hidle] at hbelow
  have hcat : ((s.engine.reserveSeq reservedOutputs).writeOutputs
      (s.engine.runCompact fromLevel topLevel).files).sstableMetadata = s.engine.sstableMetadata := by
    rw [writeOutputs_eq]
    rfl
  have hgc : ((s.engine.reserveSeq reservedOutputs).writeOutputs
      (s.engine.runCompact fromLevel topLevel).files).pendingGc = s.engine.pendingGc := by
    rw [writeOutputs_eq]
    rfl
  have hseq : ((s.engine.reserveSeq reservedOutputs).writeOutputs
      (s.engine.runCompact fromLevel topLevel).files).sstableSeq = s.engine.sstableSeq + reservedOutputs := by
    rw [writeOutputs_eq]
    rfl
  have hdoomed : ∀ path, path ∈ doomed { s with
      engine := (s.engine.reserveSeq reservedOutputs).writeOutputs (s.engine.runCompact fromLevel topLevel).files
      compact := .merged (s.engine.compactionInputs fromLevel topLevel) (s.engine.runCompact fromLevel topLevel) } →
      path ∈ doomed s := by
    intro path hpath
    simp only [mem_doomed, queue, hgc, garbageOf, List.not_mem_nil, or_false] at hpath
    rw [mem_doomed]
    rcases hpath with hpath | hpath
    · exact .inl hpath
    · exact .inr (.inl hpath)
  refine ⟨?_, ?_, ?_⟩
  · intro md hmd
    rw [hcat] at hmd
    have hlt := hbelow md hmd
    rw [hseq]
    simp only [uncounted] at hlt ⊢
    omega
  · intro path hpath
    obtain ⟨hlt, hne⟩ := h.gone path (hdoomed path hpath)
    rw [hseq, hcat]
    exact ⟨by omega, hne⟩
  · intro inputs result hmerged
    cases hmerged
    have hinputs : ∀ i ∈ s.engine.compactionInputs fromLevel topLevel, i.filepath < s.engine.sstableSeq := by
      intro i hi
      exact hbelow i ((mem_compactionInputs s.engine fromLevel topLevel i).mp hi).1
    rw [hseq]
    refine ⟨fun path hpath => garbage_subset hpath, fun i hi => (hinputs i hi).trans_le (Nat.le_add_right _ _), ?_⟩
    intro out hout
    obtain ⟨hge, hlt⟩ := output_ge hout
    refine ⟨by omega, fun i hi => (hinputs i hi).trans_le hge, ?_⟩
    intro path hpath
    exact (h.gone path (hdoomed path hpath)).1.trans_le hge

theorem Named.compactPublish (h : Named s) (hs : step s .compactPublish = some t) : Named t := by
  obtain ⟨inputs, result, hmerged, rfl⟩ := compactPublish_cases hs
  obtain ⟨hgarbage, hinputs, houtputs⟩ := h.merged inputs result hmerged
  have hbelow := h.below
  rw [hmerged] at hbelow
  have hcat : ∀ md ∈ (s.engine.publishCompaction inputs result.outputs).sstableMetadata,
      (md ∈ s.engine.sstableMetadata ∧ ∀ i ∈ inputs, md.filepath ≠ i.filepath) ∨ md ∈ result.outputs := by
    intro md hmd
    simpa [publishCompaction] using hmd
  refine ⟨?_, ?_, fun _ _ hstage => (by cases hstage)⟩
  · intro md hmd
    show md.filepath < s.engine.sstableSeq + result.outputs.length
    rcases hcat md hmd with ⟨hold, -⟩ | hout
    · have hlt := hbelow md hold
      simp only [uncounted] at hlt
      omega
    · exact (houtputs md hout).1
  · intro path hpath
    show path < s.engine.sstableSeq ∧ _
    have hwhich : path ∈ doomed s ∨ path ∈ result.garbage := by
      rcases mem_doomed.mp hpath with hqueue | hready | hpath
      · exact .inl (mem_doomed.mpr (.inl hqueue))
      · exact .inl (mem_doomed.mpr (.inr (.inl hready)))
      · exact .inr hpath
    rcases hwhich with hold | hpath
    · refine ⟨(h.gone path hold).1, ?_⟩
      intro md hmd
      rcases hcat md hmd with ⟨hmd, -⟩ | hout
      · exact (h.gone path hold).2 md hmd
      · exact Nat.ne_of_gt ((houtputs md hout).2.2 path hold)
    · obtain ⟨i, hi, rfl⟩ := hgarbage path hpath
      refine ⟨hinputs i hi, ?_⟩
      intro md hmd
      rcases hcat md hmd with ⟨-, hne⟩ | hout
      · exact hne i hi
      · exact Nat.ne_of_gt ((houtputs md hout).2.1 i hi)

theorem Named.compactRecord (h : Named s) (hs : step s .compactRecord = some t) : Named t := by
  obtain ⟨inputs, result, hpublished, rfl⟩ := compactRecord_cases hs
  have hbelow := h.below
  rw [hpublished] at hbelow
  refine ⟨hbelow, ?_, fun _ _ hstage => (by cases hstage)⟩
  intro path hpath
  have hold : path ∈ doomed s := by
    rw [mem_doomed] at hpath ⊢
    rw [hpublished]
    exact hpath
  obtain ⟨hlt, hne⟩ := h.gone path hold
  exact ⟨hlt.trans_le (Nat.le_add_right _ _), hne⟩

theorem Named.compactFence (h : Named s) (hs : step s .compactFence = some t) : Named t := by
  obtain ⟨inputs, result, hrecorded, rfl⟩ := compactFence_cases hs
  have hbelow := h.below
  rw [hrecorded] at hbelow
  refine ⟨hbelow, ?_, fun _ _ hstage => (by cases hstage)⟩
  intro path hpath
  refine h.gone path ?_
  rw [mem_doomed] at hpath ⊢
  rw [hrecorded]
  exact hpath

theorem Named.deferFileGC (h : Named s) (hs : step s .deferFileGC = some t) : Named t := by
  have hbelow := h.below
  rcases deferFileGC_cases hs with ⟨inputs, fence, hcompact, rfl⟩ | ⟨inputs, path, left, fence, hcompact, -, rfl⟩
  · rw [hcompact] at hbelow
    refine ⟨hbelow, ?_, fun _ _ hstage => (by cases hstage)⟩
    intro path hpath
    refine h.gone path ?_
    rw [mem_doomed] at hpath ⊢
    rw [hcompact]
    exact hpath
  · rw [hcompact] at hbelow
    refine ⟨hbelow, ?_, fun _ _ hstage => (by cases hstage)⟩
    intro path' hpath'
    refine h.gone path' ?_
    rw [mem_doomed] at hpath' ⊢
    rw [hcompact]
    simp only [queue, deferFile, garbageOf, List.mem_append, List.mem_cons, List.not_mem_nil, or_false] at hpath' ⊢
    rcases hpath' with ⟨p, (hp | rfl) | hp, rfl⟩ | hready | hleft
    · exact .inl ⟨p, .inl hp, rfl⟩
    · exact .inr (.inr (.inl rfl))
    · exact .inl ⟨p, .inr hp, rfl⟩
    · exact .inr (.inl hready)
    · exact .inr (.inr (.inr hleft))

theorem Named.step (h : Named s) {a : Action n} (hs : FileGC.step s a = some t) : Named t := by
  cases a with
  | call c =>
    obtain ⟨hplain, e, he, rfl⟩ := call_cases hs
    obtain ⟨hgc, hseq, hcat⟩ := plainCall_tables hplain he
    refine h.quiet rfl hseq hcat ?_
    intro path hpath
    rw [mem_doomed] at hpath ⊢
    simp only [queue, hgc] at hpath
    exact hpath
  | compactStart fromLevel topLevel => exact h.compactStart hs
  | compactPublish => exact h.compactPublish hs
  | compactRecord => exact h.compactRecord hs
  | compactFence => exact h.compactFence hs
  | deferFileGC => exact h.deferFileGC hs
  | drainLock =>
    obtain ⟨-, rfl⟩ := drainLock_cases hs
    refine h.quiet rfl (Nat.le_refl _) (fun md hmd => .inl hmd) ?_
    intro path hpath
    rw [mem_doomed] at hpath ⊢
    simp only [queue, todoOf, List.mem_append, or_self] at hpath
    rcases hpath with ⟨p, hp, rfl⟩ | hpath
    · exact .inl ⟨p, List.mem_append_left _ hp, rfl⟩
    · exact .inr hpath
  | report x minActiveTs =>
    obtain ⟨p, todo, ⟨hdrain, rfl⟩ | ⟨y, first, -, hdrain, rfl⟩⟩ := report_cases hs
    · refine h.quiet rfl (Nat.le_refl _) (fun md hmd => .inl hmd) ?_
      intro path hpath
      rw [mem_doomed] at hpath ⊢
      simp only [queue, hdrain] at hpath ⊢
      exact hpath
    · unfold State.examined
      split
      · refine h.quiet rfl (Nat.le_refl _) (fun md hmd => .inl hmd) ?_
        intro path hpath
        rw [mem_doomed] at hpath ⊢
        simp only [queue, hdrain, todoOf, List.mem_append, List.mem_cons] at hpath ⊢
        rcases hpath with ⟨q, hq | hq, rfl⟩ | ⟨q, rfl | hq, rfl⟩ | hpath
        · exact .inl ⟨q, .inl (List.mem_of_mem_erase hq), rfl⟩
        · exact .inl ⟨q, .inr (.inr hq), rfl⟩
        · exact .inl ⟨q, .inr (.inl rfl), rfl⟩
        · exact .inr (.inl ⟨q, hq, rfl⟩)
        · exact .inr (.inr hpath)
      · refine h.quiet rfl (Nat.le_refl _) (fun md hmd => .inl hmd) ?_
        intro path hpath
        rw [mem_doomed] at hpath ⊢
        simp only [queue, hdrain, todoOf, List.mem_append, List.mem_cons] at hpath ⊢
        rcases hpath with ⟨q, hq | hq, rfl⟩ | hpath
        · exact .inl ⟨q, .inl hq, rfl⟩
        · exact .inl ⟨q, .inr (.inr hq), rfl⟩
        · exact .inr hpath
  | drainUnlock =>
    obtain ⟨hdrain, rfl⟩ := drainUnlock_cases hs
    refine h.quiet rfl (Nat.le_refl _) (fun md hmd => .inl hmd) ?_
    intro path hpath
    rw [mem_doomed] at hpath ⊢
    simp only [queue, hdrain] at hpath ⊢
    exact hpath
  | remove p =>
    obtain ⟨-, rfl⟩ := remove_cases hs
    refine h.quiet rfl (Nat.le_refl _) (fun md hmd => .inl hmd) ?_
    intro path hpath
    rw [mem_doomed] at hpath ⊢
    rcases hpath with hpath | ⟨q, hq, rfl⟩ | hpath
    · exact .inl hpath
    · exact .inr (.inl ⟨q, List.mem_of_mem_erase hq, rfl⟩)
    · exact .inr (.inr hpath)
  | reader k a =>
    obtain ⟨r, -, rfl⟩ := reader_cases hs
    exact h.quiet rfl (Nat.le_refl _) (fun md hmd => .inl hmd) fun path hpath => hpath

end Names

/-! ## The fences -/

/-- A reader that holds a copy of the catalogue is registered, unless it is an iterator. -/
def Reader.Copied (r : Reader) : Prop :=
  (r.call = .lookup ∧ r.stage = .sstables) ∨
    (r.call = .rangeScan ∧ (r.stage = .memtables ∨ r.stage = .both ∨ r.stage = .sstables ∨ r.stage = .live))

/-- The reader is registered with the tracker whose minimum is read second. -/
def Awaited : Which → Stage → Prop
  | .memtables, stage => stage = .both ∨ stage = .sstables
  | .sstables, stage => stage = .memtables ∨ stage = .both

structure Fenced (s : State n) : Prop where
  copied : ∀ k, (s.readers k).snap.isSome → (s.readers k).Copied
  queued : ∀ p ∈ queue s, ∀ k, (s.readers k).holds p.filepath →
    (s.readers k).stage = .live ∨ (s.readers k).readTs < p.fenceTs
  deferring : ∀ inputs left fence, s.compact = .deferring inputs left fence → ∀ path ∈ left, ∀ k,
    (s.readers k).holds path → (s.readers k).stage = .live ∨ (s.readers k).readTs < fence
  spared : ∀ p ∈ s.ready, ∀ k, ¬ (s.readers k).holds p.filepath
  looked : ∀ p todo x first, s.drain = .examining (p :: todo) (some (x, first)) → ∀ k, (s.readers k).holds p.filepath →
    (s.readers k).stage = .live ∨ first < p.fenceTs ∨ Awaited x (s.readers k).stage

section Fences

variable {s t : State n}

theorem holds_isSome {r : Reader} {path : ℕ} (h : r.holds path) : r.snap.isSome := by
  obtain ⟨mds, hmds, -⟩ := h
  rw [hmds]
  rfl

/-- A reader that holds a file on the way out held it before; its place changes as the source says. -/
theorem Reader.step_holds {e : Engine} {r r' : Reader} {a : ReaderAction} (hs : r.step e a = some r')
    (hcopied : r.snap.isSome → r.Copied) {path : ℕ} (hgone : ∀ md ∈ e.sstableMetadata, md.filepath ≠ path)
    (hholds : r'.holds path) :
    r.holds path ∧ r'.readTs = r.readTs ∧ r.stage ≠ .live ∧
      (r.stage = .memtables ∧ r'.stage = .both ∨
        r.stage = .both ∧ r'.stage = .sstables ∧ a = .releaseMemtables ∨
        r.stage = .sstables ∧ r'.stage = .live) := by
  have hnone : ∀ {r' : Reader}, r'.snap = none → ¬ r'.holds path := by
    rintro r' heq ⟨mds, hmds, -⟩
    rw [heq] at hmds
    cases hmds
  cases a with
  | start call =>
    simp only [Reader.step] at hs
    split at hs
    · cases hs
      exact absurd hholds (hnone rfl)
    · cases hs
  | acquire x =>
    cases x with
    | memtables =>
      simp only [Reader.step] at hs
      split at hs
      · next hstage =>
        cases hs
        have hplace := hcopied (holds_isSome hholds)
        simp [Reader.Copied, hstage] at hplace
      · cases hs
    | sstables =>
      simp only [Reader.step] at hs
      split at hs
      · next hstage =>
        cases hs
        refine ⟨hholds, rfl, ?_, .inl ⟨hstage.1, rfl⟩⟩
        rw [hstage.1]
        exact Stage.noConfusion
      · cases hs
  | snapshot =>
    simp only [Reader.step] at hs
    split at hs
    · cases hs
      obtain ⟨mds, hmds, md, hmd, hpath⟩ := hholds
      cases hmds
      exact absurd hpath (hgone md hmd)
    · cases hs
  | releaseMemtables =>
    simp only [Reader.step] at hs
    split at hs
    · next hstage =>
      cases hs
      refine ⟨hholds, rfl, ?_, .inr (.inl ⟨hstage, rfl, rfl⟩)⟩
      rw [hstage]
      exact Stage.noConfusion
    · cases hs
  | finish =>
    simp only [Reader.step] at hs
    split at hs
    · split at hs
      · cases hs
        exact absurd hholds (hnone rfl)
      · cases hs
    · split at hs
      · next hstage =>
        cases hs
        refine ⟨hholds, rfl, ?_, .inr (.inr ⟨hstage, rfl⟩)⟩
        rw [hstage]
        exact Stage.noConfusion
      · cases hs
  | destroy =>
    simp only [Reader.step] at hs
    split at hs
    · cases hs
      exact absurd hholds (hnone rfl)
    · cases hs

/-- A copy of the catalogue is taken and kept in the stages that the source takes and keeps it in. -/
theorem Reader.step_copied {e : Engine} {r r' : Reader} {a : ReaderAction} (hs : r.step e a = some r')
    (hcopied : r.snap.isSome → r.Copied) (hsome : r'.snap.isSome) : r'.Copied := by
  cases a with
  | start call =>
    simp only [Reader.step] at hs
    split at hs
    · cases hs
      cases hsome
    · cases hs
  | acquire x =>
    cases x with
    | memtables =>
      simp only [Reader.step] at hs
      split at hs
      · next hstage =>
        cases hs
        have hplace := hcopied hsome
        simp [Reader.Copied, hstage] at hplace
      · cases hs
    | sstables =>
      simp only [Reader.step] at hs
      split at hs
      · next hstage =>
        cases hs
        rcases hcopied hsome with ⟨-, hplace⟩ | ⟨hcall, -⟩
        · rw [hstage.1] at hplace
          cases hplace
        · exact .inr ⟨hcall, .inr (.inl rfl)⟩
      · cases hs
  | snapshot =>
    simp only [Reader.step] at hs
    split at hs
    · next hwhen =>
      cases hs
      rcases hwhen.2 with ⟨hcall, hstage⟩ | ⟨hcall, hstage⟩
      · exact .inl ⟨hcall, hstage⟩
      · exact .inr ⟨hcall, .inl hstage⟩
    · cases hs
  | releaseMemtables =>
    simp only [Reader.step] at hs
    split at hs
    · next hstage =>
      cases hs
      rcases hcopied hsome with ⟨-, hplace⟩ | ⟨hcall, -⟩
      · rw [hstage] at hplace
        cases hplace
      · exact .inr ⟨hcall, .inr (.inr (.inl rfl))⟩
    · cases hs
  | finish =>
    simp only [Reader.step] at hs
    split at hs
    · split at hs
      · cases hs
        cases hsome
      · cases hs
    · next hcall =>
      split at hs
      · cases hs
        exact .inr ⟨hcall, .inr (.inr (.inr rfl))⟩
      · cases hs
  | destroy =>
    simp only [Reader.step] at hs
    split at hs
    · cases hs
      cases hsome
    · cases hs

/-- Steps of the other threads that queue nothing and look at no tracker. -/
theorem Fenced.quiet (h : Fenced s) (hreaders : t.readers = s.readers) (hqueue : ∀ p ∈ queue t, p ∈ queue s)
    (hcompact : ∀ inputs left fence, t.compact = .deferring inputs left fence → s.compact = .deferring inputs left fence)
    (hready : ∀ p ∈ t.ready, p ∈ s.ready) (hdrain : t.drain = s.drain ∨ ∃ todo, t.drain = .examining todo none ∨
      t.drain = .idle) : Fenced t := by
  refine ⟨?_, ?_, ?_, ?_, ?_⟩
  · rw [hreaders]
    exact h.copied
  · rw [hreaders]
    exact fun p hp => h.queued p (hqueue p hp)
  · rw [hreaders]
    exact fun inputs left fence hstage => h.deferring inputs left fence (hcompact inputs left fence hstage)
  · rw [hreaders]
    exact fun p hp => h.spared p (hready p hp)
  · intro p todo x first hlooked
    rw [hreaders]
    rcases hdrain with hsame | ⟨todo', hnone | hidle⟩
    · exact h.looked p todo x first (hsame.symm.trans hlooked)
    · rw [hnone] at hlooked
      cases hlooked
    · rw [hidle] at hlooked
      cases hlooked

theorem Fenced.reader (h : Fenced s) (hnamed : Named s) {k : Fin n} {a : ReaderAction}
    (hok : Allowed s (.reader k a)) (hs : step s (.reader k a) = some t) : Fenced t := by
  obtain ⟨r, hr, rfl⟩ := reader_cases hs
  have hheld : ∀ {path : ℕ}, path ∈ doomed s → r.holds path → (s.readers k).holds path ∧ r.readTs = (s.readers k).readTs ∧
      (s.readers k).stage ≠ .live ∧
      ((s.readers k).stage = .memtables ∧ r.stage = .both ∨
        (s.readers k).stage = .both ∧ r.stage = .sstables ∧ a = .releaseMemtables ∨
        (s.readers k).stage = .sstables ∧ r.stage = .live) :=
    fun hpath hholds => Reader.step_holds hr (h.copied k) (hnamed.gone _ hpath).2 hholds
  have hfence : ∀ {path : ℕ} {fence : ℕ}, path ∈ doomed s →
      (∀ j, (s.readers j).holds path → (s.readers j).stage = .live ∨ (s.readers j).readTs < fence) →
      ∀ j, (Function.update s.readers k r j).holds path →
        (Function.update s.readers k r j).stage = .live ∨ (Function.update s.readers k r j).readTs < fence := by
    intro path fence hpath hall j
    by_cases hjk : j = k
    · subst hjk
      rw [Function.update_self]
      intro hholds
      obtain ⟨hold, hts, hlive, -⟩ := hheld hpath hholds
      right
      rw [hts]
      exact (hall j hold).resolve_left hlive
    · rw [Function.update_of_ne hjk]
      exact hall j
  refine ⟨?_, ?_, ?_, ?_, ?_⟩
  · intro j
    by_cases hjk : j = k
    · subst hjk
      simp only [Function.update_self]
      exact Reader.step_copied hr (h.copied j)
    · simp only [Function.update_of_ne hjk]
      exact h.copied j
  · intro p hp
    exact hfence (mem_doomed.mpr (.inl ⟨p, hp, rfl⟩)) (h.queued p hp)
  · intro inputs left fence hstage path hpath
    have hcompact : s.compact = .deferring inputs left fence := hstage
    refine hfence (mem_doomed.mpr (.inr (.inr ?_))) (h.deferring inputs left fence hcompact path hpath)
    rw [hcompact]
    exact hpath
  · intro p hp j
    by_cases hjk : j = k
    · subst hjk
      simp only [Function.update_self]
      intro hholds
      exact h.spared p hp j (hheld (mem_doomed.mpr (.inr (.inl ⟨p, hp, rfl⟩))) hholds).1
    · simp only [Function.update_of_ne hjk]
      exact h.spared p hp j
  · intro p todo x first hdrain j
    have hlooked : s.drain = .examining (p :: todo) (some (x, first)) := hdrain
    by_cases hjk : j = k
    · subst hjk
      simp only [Function.update_self]
      intro hholds
      have hmem : p ∈ queue s := by
        rw [queue, hlooked]
        exact List.mem_append_right _ List.mem_cons_self
      obtain ⟨hold, -, hlive, hmove⟩ := hheld (mem_doomed.mpr (.inl ⟨p, hmem, rfl⟩)) hholds
      have hclear := hok.2
      rcases h.looked p todo x first hlooked j hold with hlive' | hlow | hawaited
      · exact absurd hlive' hlive
      · exact .inr (.inl hlow)
      · rcases hmove with ⟨hbefore, hafter⟩ | ⟨hbefore, hafter, rfl⟩ | ⟨-, hafter⟩
        · right
          right
          rw [hbefore] at hawaited
          rw [hafter]
          cases x with
          | memtables => exact .inl rfl
          | sstables => exact .inr rfl
        · cases x with
          | memtables =>
            right
            right
            rw [hafter]
            exact .inr rfl
          | sstables =>
            simp only [Clear, hlooked] at hclear
            exact absurd hold hclear
        · exact .inl hafter
    · simp only [Function.update_of_ne hjk]
      exact h.looked p todo x first hlooked j

theorem Fenced.compactFence (h : Fenced s) (hok : Allowed s .compactFence) (hs : step s .compactFence = some t) :
    Fenced t := by
  obtain ⟨inputs, result, hrecorded, rfl⟩ := compactFence_cases hs
  have hclear := hok.2
  simp only [Clear, hrecorded] at hclear
  refine ⟨h.copied, h.queued, ?_, h.spared, h.looked⟩
  intro inputs' left fence hstage path hpath k hholds
  cases hstage
  by_cases hlive : (s.readers k).stage = .live
  · exact .inl hlive
  · exact .inr (hclear k hlive path hpath hholds)

theorem Fenced.deferFileGC (h : Fenced s) (hs : step s .deferFileGC = some t) : Fenced t := by
  rcases deferFileGC_cases hs with ⟨inputs, fence, hcompact, rfl⟩ | ⟨inputs, path, left, fence, hcompact, -, rfl⟩
  · exact h.quiet rfl (fun p hp => hp) (fun _ _ _ hstage => (by cases hstage)) (fun p hp => hp) (.inl rfl)
  · have hdeferred := h.deferring inputs (path :: left) fence hcompact
    refine ⟨h.copied, ?_, ?_, h.spared, h.looked⟩
    · intro p hp
      simp only [queue, deferFile, List.mem_append, List.mem_cons, List.not_mem_nil, or_false] at hp
      rcases hp with (hp | rfl) | hp
      · exact h.queued p (List.mem_append_left _ hp)
      · exact hdeferred path List.mem_cons_self
      · exact h.queued p (List.mem_append_right _ hp)
    · intro inputs' left' fence' hstage path' hpath'
      cases hstage
      exact hdeferred path' (List.mem_cons_of_mem _ hpath')

theorem registered_memtables {r : Reader} (h : r.Copied) (hlive : r.stage ≠ .live) :
    r.registered .memtables = true ∨ Awaited .memtables r.stage := by
  rcases h with ⟨-, hstage⟩ | ⟨-, hstage | hstage | hstage | hstage⟩
  · exact .inr (.inr hstage)
  · left
    simp [Reader.registered, hstage]
  · left
    simp [Reader.registered, hstage]
  · exact .inr (.inr hstage)
  · exact absurd hstage hlive

theorem registered_sstables {r : Reader} (h : r.Copied) (hlive : r.stage ≠ .live) :
    r.registered .sstables = true ∨ Awaited .sstables r.stage := by
  rcases h with ⟨-, hstage⟩ | ⟨-, hstage | hstage | hstage | hstage⟩
  · left
    simp [Reader.registered, hstage]
  · exact .inr (.inl hstage)
  · exact .inr (.inr hstage)
  · left
    simp [Reader.registered, hstage]
  · exact absurd hstage hlive

/-- Who is awaited is registered with the other tracker. -/
theorem Awaited.registered {x y : Which} (hne : x ≠ y) {r : Reader} (h : Awaited y r.stage) : r.registered x = true := by
  cases y with
  | memtables =>
    cases x with
    | memtables => exact absurd rfl hne
    | sstables => exact decide_eq_true h
  | sstables =>
    cases x with
    | memtables => exact decide_eq_true h
    | sstables => exact absurd rfl hne

/-- The first of the two minima. -/
theorem Fenced.firstReport (h : Fenced s) {x : Which} {minActiveTs : ℕ} (hok : Reported s (.report x minActiveTs))
    {p : PendingFileGC} {todo : List PendingFileGC} (hdrain : s.drain = .examining (p :: todo) none) :
    Fenced { s with drain := .examining (p :: todo) (some (x, minActiveTs)) } := by
  have hqueue : ∀ q ∈ queue { s with drain := .examining (p :: todo) (some (x, minActiveTs)) }, q ∈ queue s := by
    intro q hq
    rw [queue, hdrain]
    exact hq
  refine ⟨h.copied, fun q hq => h.queued q (hqueue q hq), h.deferring, h.spared, ?_⟩
  intro p' todo' x' first hlooked k hholds
  cases hlooked
  have hmem : p ∈ queue s := by
    rw [queue, hdrain]
    exact List.mem_append_right _ List.mem_cons_self
  rcases h.queued p hmem k hholds with hlive | hlow
  · exact .inl hlive
  · by_cases hlive : (s.readers k).stage = .live
    · exact .inl hlive
    · right
      have hplace := h.copied k (holds_isSome hholds)
      have hseen : (s.readers k).registered x = true ∨ Awaited x (s.readers k).stage := by
        cases x with
        | memtables => exact registered_memtables hplace hlive
        | sstables => exact registered_sstables hplace hlive
      rcases hseen with hregistered | hawaited
      · exact .inl ((hok k hregistered).trans_lt hlow)
      · exact .inr hawaited

/-- A file is taken out of the queue only if no reader holds it. -/
theorem Fenced.secondReport (h : Fenced s) {x y : Which} (hne : x ≠ y) {first minActiveTs : ℕ}
    (hok : Allowed s (.report x minActiveTs)) {p : PendingFileGC} {todo : List PendingFileGC}
    (hdrain : s.drain = .examining (p :: todo) (some (y, first))) : Fenced (s.examined p todo (min first minActiveTs)) := by
  have hclear := hok.2
  simp only [Clear, hdrain] at hclear
  have hmem : p ∈ queue s := by
    rw [queue, hdrain]
    exact List.mem_append_right _ List.mem_cons_self
  have htail : ∀ q ∈ todo, q ∈ queue s := by
    intro q hq
    rw [queue, hdrain]
    exact List.mem_append_right _ (List.mem_cons_of_mem _ hq)
  unfold State.examined
  split
  · next hready =>
    have hfree : ∀ k, ¬ (s.readers k).holds p.filepath := by
      intro k hholds
      have hlive : (s.readers k).stage ≠ .live := fun hlive => hclear k hlive hholds
      have hlow := (h.queued p hmem k hholds).resolve_left hlive
      rcases (h.looked p todo y first hdrain k hholds).resolve_left hlive with hfirst | hawaited
      · omega
      · have hsecond := hok.1 k (hawaited.registered hne)
        omega
    refine ⟨h.copied, ?_, h.deferring, ?_, fun _ _ _ _ hlooked => (by cases hlooked)⟩
    · intro q hq
      refine h.queued q ?_
      rcases List.mem_append.mp hq with hq | hq
      · exact List.mem_append_left _ (List.mem_of_mem_erase hq)
      · exact htail q hq
    · intro q hq
      rcases List.mem_cons.mp hq with rfl | hq
      · exact hfree
      · exact h.spared q hq
  · refine h.quiet rfl ?_ (fun _ _ _ hstage => hstage) (fun q hq => hq) (.inr ⟨todo, .inl rfl⟩)
    intro q hq
    rcases List.mem_append.mp hq with hq | hq
    · exact List.mem_append_left _ hq
    · exact htail q hq

theorem Fenced.step (h : Fenced s) (hnamed : Named s) {a : Action n} (hok : Allowed s a)
    (hs : FileGC.step s a = some t) : Fenced t := by
  cases a with
  | call c =>
    obtain ⟨hplain, e, he, rfl⟩ := call_cases hs
    refine h.quiet rfl ?_ (fun _ _ _ hstage => hstage) (fun p hp => hp) (.inl rfl)
    intro p hp
    rw [queue] at hp ⊢
    rw [← (plainCall_tables hplain he).1]
    exact hp
  | compactStart fromLevel topLevel =>
    obtain ⟨-, rfl⟩ := compactStart_cases hs
    refine h.quiet rfl ?_ (fun _ _ _ hstage => (by cases hstage)) (fun p hp => hp) (.inl rfl)
    intro p hp
    rw [queue, writeOutputs_eq] at hp
    exact hp
  | compactPublish =>
    obtain ⟨inputs, result, -, rfl⟩ := compactPublish_cases hs
    exact h.quiet rfl (fun p hp => hp) (fun _ _ _ hstage => (by cases hstage)) (fun p hp => hp) (.inl rfl)
  | compactRecord =>
    obtain ⟨inputs, result, -, rfl⟩ := compactRecord_cases hs
    exact h.quiet rfl (fun p hp => hp) (fun _ _ _ hstage => (by cases hstage)) (fun p hp => hp) (.inl rfl)
  | compactFence => exact h.compactFence hok hs
  | deferFileGC => exact h.deferFileGC hs
  | drainLock =>
    obtain ⟨-, rfl⟩ := drainLock_cases hs
    refine h.quiet rfl ?_ (fun _ _ _ hstage => hstage) (fun p hp => hp) (.inr ⟨s.engine.pendingGc, .inl rfl⟩)
    intro p hp
    simp only [queue, todoOf, List.mem_append, or_self] at hp
    exact List.mem_append_left _ hp
  | report x minActiveTs =>
    obtain ⟨p, todo, ⟨hdrain, rfl⟩ | ⟨y, first, hne, hdrain, rfl⟩⟩ := report_cases hs
    · exact h.firstReport hok.1 hdrain
    · exact h.secondReport hne hok hdrain
  | drainUnlock =>
    obtain ⟨hdrain, rfl⟩ := drainUnlock_cases hs
    refine h.quiet rfl ?_ (fun _ _ _ hstage => hstage) (fun p hp => hp) (.inr ⟨[], .inr rfl⟩)
    intro p hp
    rw [queue, hdrain]
    exact hp
  | remove p =>
    obtain ⟨-, rfl⟩ := remove_cases hs
    exact h.quiet rfl (fun q hq => hq) (fun _ _ _ hstage => hstage) (fun q hq => List.mem_of_mem_erase hq) (.inl rfl)
  | reader k a => exact h.reader hnamed hok hs

end Fences

theorem init_named (cfg : EngineConfig) (n : ℕ) : Named (init cfg n) :=
  ⟨fun _ hmd => (by cases hmd), fun _ hpath => (by cases hpath), fun _ _ hstage => (by cases hstage)⟩

theorem init_fenced (cfg : EngineConfig) (n : ℕ) : Fenced (init cfg n) :=
  ⟨fun _ hsnap => (by cases hsnap), fun _ hp => (by cases hp), fun _ _ _ hstage => (by cases hstage),
    fun _ hp => (by cases hp), fun _ _ _ _ hstage => (by cases hstage)⟩

/-! ## Every interleaving -/

/-- No file is deleted that the copy of the catalogue of a `Lookup` in progress or of a live `RangeIterator` has. -/
theorem drain_spares_snapshots (cfg : EngineConfig) (n : ℕ) (acts : List (Action n)) (s t : State n)
    (h : Run step Allowed (init cfg n) acts s) (p : PendingFileGC) (hs : step s (.remove p) = some t) (k : Fin n) :
    ¬ (s.readers k).holds p.filepath := by
  have hboth : Named s ∧ Fenced s := by
    refine h.invariant (I := fun s => Named s ∧ Fenced s) ?_ ⟨init_named cfg n, init_fenced cfg n⟩
    exact fun _ _ _ hok hstep hinv => ⟨hinv.1.step hstep, hinv.2.step hinv.1 hok hstep⟩
  exact hboth.2.spared p (remove_cases hs).1 k

/-- A `Lookup` up to its copy of the catalogue. -/
def lookupBegins (k : Fin n) : List (Action n) :=
  [.reader k (.start .lookup), .reader k (.acquire .memtables), .reader k (.acquire .sstables),
    .reader k .releaseMemtables, .reader k .snapshot]

def compacts (fromLevel topLevel : ℕ) : List (Action n) :=
  [.compactStart fromLevel topLevel, .compactPublish, .compactRecord, .compactFence, .deferFileGC, .deferFileGC]

/-- One table is written. -/
def writesTable : List (Action n) := [.call (.insert [1] [2]), .call .rotate, .call .flushWorker]

/-- A drain of one file, with the two minima. -/
def drains (memtables sstables : ℕ) : List (Action n) :=
  [.drainLock, .report .memtables memtables, .report .sstables sstables, .drainUnlock]

/-- A `Lookup` below the fence keeps its file through a drain; when it is over, the next drain takes the file. -/
def fencedRun : List (Action 2) :=
  writesTable ++ lookupBegins 0 ++ ([.call (.insert [3] [4])] : List (Action 2)) ++ compacts 0 0 ++ drains uint64Max 1 ++
    lookupBegins 1 ++
    ([.reader 0 .finish] : List (Action 2)) ++ drains uint64Max 2

theorem fencedRun_allowed : (checked step Allowed (init smallConfig 2) fencedRun).isSome = true := by
  decide

def fencedState : State 2 := (checked step Allowed (init smallConfig 2) fencedRun).get fencedRun_allowed

theorem drain_spares_fencedRun :
    (step fencedState (.remove ⟨0, 0, 2⟩)).isSome = true ∧ (fencedState.readers 1).stage = .sstables ∧
      (fencedState.readers 1).snap.isSome = true ∧ ¬ (fencedState.readers 1).holds 0 := by
  have hend : (step fencedState (.remove ⟨0, 0, 2⟩)).isSome = true ∧ (fencedState.readers 1).stage = .sstables ∧
      (fencedState.readers 1).snap.isSome = true := by
    decide
  obtain ⟨hsome, hstage, hsnap⟩ := hend
  exact ⟨hsome, hstage, hsnap, drain_spares_snapshots smallConfig 2 fencedRun fencedState _
    (Run.of_isSome (init smallConfig 2) fencedRun fencedRun_allowed) ⟨0, 0, 2⟩ (Option.some_get hsome).symm 1⟩

/-- No write comes between the timestamp of the reader and the fence. -/
def equalFence : List (Action 1) := writesTable ++ lookupBegins 0 ++ compacts 0 0 ++ drains uint64Max 1

/-- An iterator is returned and kept. -/
def keptIterator : List (Action 1) :=
  writesTable ++ ([.reader 0 (.start .rangeScan), .reader 0 (.acquire .memtables), .reader 0 .snapshot,
    .reader 0 (.acquire .sstables), .reader 0 .releaseMemtables, .reader 0 .finish,
    .call (.insert [3] [4])] : List (Action 1)) ++
    compacts 0 0 ++ drains uint64Max uint64Max

/-- The trackers report what they should, and the next step deletes a file of a `Lookup` in progress; so it does with a
file of a live iterator. -/
theorem held_file_deleted :
    (∃ s, Run step Reported (init smallConfig 1) equalFence s ∧ (s.readers 0).call = .lookup ∧
      (s.readers 0).stage = .sstables ∧ (s.readers 0).holds 0 ∧ (step s (.remove ⟨0, 0, 1⟩)).isSome = true) ∧
    ∃ s, Run step Reported (init smallConfig 1) keptIterator s ∧ (s.readers 0).call = .rangeScan ∧
      (s.readers 0).stage = .live ∧ (s.readers 0).holds 0 ∧ (step s (.remove ⟨0, 0, 2⟩)).isSome = true :=
  ⟨Run.exists_of_checked (by decide), Run.exists_of_checked (by decide)⟩

end Kvdb.FileGC
