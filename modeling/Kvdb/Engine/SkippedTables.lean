import Kvdb.Engine.TableRecords
import Kvdb.Engine.BatchServing

/-! # The tables that a `Lookup` passes over

Next to the calls of a run without batches there are any number of lookups, each with the memtables it has copied, and
restarts of the process, after a crash or after the destructor. A lookup loads the catalogue any time after it has copied
the memtables, and the flush worker goes on meanwhile.

`source_table_id` names the memtable of a table for the tables that this process has flushed. The constructor leaves it 0
in the tables it recovers, as `Compact` does in its outputs, and the first memtable of the process has the id 0 too. -/
namespace Kvdb.SkippedTables
set_option autoImplicit false

open Kvdb.Runs Kvdb.Engine
open Kvdb.BatchServing (finishFlush)
open SSTableFile (KeySorted)

/-- The memtables that a `Lookup` has copied. -/
structure Snapshot where
  activeSnapshot : MemTable
  frozenSnapshot : List MemTable

/-- `flight` is the memtable that the flush worker has taken off the queue. -/
structure State where
  engine : Engine
  flight : Option MemTable
  readers : List Snapshot

inductive Action where
  | call (call : Calls.Call)
  | flushPop
  | flushFinish
  | startLookup
  | endLookup (i : ℕ)
  | crash (cfg : EngineConfig)
  | close (cfg : EngineConfig)

def init (cfg : EngineConfig) : State := ⟨Engine.create cfg, none, []⟩

/-- A round of the flush worker is the two steps `flushPop` and `flushFinish` (`BatchServing.flushWorker_eq`). -/
def step (s : State) : Action → Option State
  | .call .flushWorker => none
  | .call call => (Calls.step s.engine call).map fun e => { s with engine := e }
  | .flushPop =>
    match s.flight, s.engine.frozenMemtables with
    | none, m :: rest =>
      some { s with
        engine := { s.engine with frozenMemtables := rest }
        flight := some m }
    | _, _ => none
  | .flushFinish =>
    s.flight.map fun m =>
      { s with
        engine := finishFlush s.engine m
        flight := none }
  | .startLookup =>
    some { s with readers := s.readers ++ [⟨s.engine.activeMemtable, s.engine.frozenMemtables⟩] }
  | .endLookup i => some { s with readers := s.readers.eraseIdx i }
  | .crash cfg => some ⟨construct cfg s.engine.directory, none, []⟩
  | .close cfg =>
    if s.flight.isNone && s.readers.isEmpty then some ⟨construct cfg s.engine.close.directory, none, []⟩ else none

/-- What a lookup passes over has no version of the key that is not in its memtables. -/
def SkipsCovered (s : State) : Prop :=
  ∀ c ∈ s.readers, ∀ key, ∀ md ∈ s.engine.sstableMetadata,
    skips (c.frozenSnapshot.map MemTable.id) key md = true →
      ∀ x ∈ s.engine.tableEntries md, x.key = key → ∃ m ∈ c.activeSnapshot :: c.frozenSnapshot, x ∈ m.entries

/-- The steps that keep the records true (`TableRecords`), with two conditions on the identities: a lookup finds no table
with the id of a memtable that is still frozen, and no compaction runs while a lookup holds the frozen memtable 0. -/
def Safe (s : State) : Action → Prop
  | .call call =>
    ∀ r ∈ Calls.compacted s.engine call, s.engine.nothingToCompact r.1 r.2 = false →
      CompactSafe s.engine r.1 r.2 ∧ ∀ c ∈ s.readers, ∀ m ∈ c.frozenSnapshot, m.id ≠ 0
  | .flushFinish => ∀ m ∈ s.flight, FlushSafe s.engine m
  | .startLookup => ∀ m ∈ s.engine.frozenMemtables, ∀ md ∈ s.engine.sstableMetadata, md.sourceTableId ≠ m.id
  | .crash cfg => RestartSafe cfg s.engine.directory
  | .close cfg =>
    (∀ m ∈ s.engine.memtables, KeySorted m.tree.memTableWalk) ∧ RestartSafe cfg s.engine.close.directory
  | _ => True

instance decidableSafe (s : State) (a : Action) : Decidable (Safe s a) :=
  match a with
  | .call call =>
    inferInstanceAs (Decidable (∀ r ∈ Calls.compacted s.engine call, s.engine.nothingToCompact r.1 r.2 = false →
      CompactSafe s.engine r.1 r.2 ∧ ∀ c ∈ s.readers, ∀ m ∈ c.frozenSnapshot, m.id ≠ 0))
  | .flushPop => isTrue trivial
  | .flushFinish => inferInstanceAs (Decidable (∀ m ∈ s.flight, FlushSafe s.engine m))
  | .startLookup =>
    inferInstanceAs (Decidable (∀ m ∈ s.engine.frozenMemtables, ∀ md ∈ s.engine.sstableMetadata, md.sourceTableId ≠ m.id))
  | .endLookup _ => isTrue trivial
  | .crash cfg => inferInstanceAs (Decidable (RestartSafe cfg s.engine.directory))
  | .close cfg =>
    inferInstanceAs (Decidable ((∀ m ∈ s.engine.memtables, KeySorted m.tree.memTableWalk) ∧
      RestartSafe cfg s.engine.close.directory))

/-! ## The identities -/

/-- The memtables that are not flushed yet, without the active one. -/
def State.pending (s : State) : List MemTable := s.flight.toList ++ s.engine.frozenMemtables

/-- What is known of a frozen memtable that a lookup holds. -/
structure Copied (s : State) (m : MemTable) : Prop where
  below : m.id < s.engine.activeMemtable.id
  same : ∀ m' ∈ s.pending, m'.id = m.id → m' = m
  tables : ∀ md ∈ s.engine.sstableMetadata, md.sourceTableId = m.id → ∀ x ∈ s.engine.tableEntries md, x ∈ m.entries

structure Sound (s : State) : Prop where
  faithful : Faithful s.engine
  distinct : (s.pending.map MemTable.id).Nodup
  below : ∀ m ∈ s.pending, m.id < s.engine.activeMemtable.id
  next : s.engine.activeMemtable.id < s.engine.nextTableId
  copied : ∀ c ∈ s.readers, ∀ m ∈ c.frozenSnapshot, Copied s m

variable {s s' : State}

theorem Sound.skipsCovered (h : Sound s) : SkipsCovered s := by
  rintro c hc key md hmd hskip x hx rfl
  obtain ⟨m, hm, hid⟩ := List.mem_map.mp (h.faithful.scanned_of_skips hmd hx hskip)
  exact ⟨m, List.mem_cons_of_mem _ hm, (h.copied c hc m hm).tables md hmd hid.symm x hx⟩

/-- A step that freezes nothing and starts no lookup. -/
theorem Sound.congr (h : Sound s) (hf : Faithful s'.engine) (hpending : s'.pending.Sublist s.pending)
    (hid : s'.engine.activeMemtable.id = s.engine.activeMemtable.id)
    (hnext : s'.engine.nextTableId = s.engine.nextTableId) (hreaders : ∀ c ∈ s'.readers, c ∈ s.readers)
    (htables : ∀ c ∈ s.readers, ∀ m ∈ c.frozenSnapshot, ∀ md ∈ s'.engine.sstableMetadata, md.sourceTableId = m.id →
      (md ∈ s.engine.sstableMetadata ∧ s'.engine.tableEntries md ⊆ s.engine.tableEntries md) ∨
        ∀ x ∈ s'.engine.tableEntries md, x ∈ m.entries) : Sound s' where
  faithful := hf
  distinct := h.distinct.sublist (hpending.map _)
  below m hm := by
    rw [hid]
    exact h.below m (hpending.subset hm)
  next := by
    rw [hid, hnext]
    exact h.next
  copied c hc m hm := by
    have hcopied := h.copied c (hreaders c hc) m hm
    refine ⟨by rw [hid]; exact hcopied.below, fun m' hm' => hcopied.same m' (hpending.subset hm'), ?_⟩
    intro md hmd hsource x hx
    rcases htables c (hreaders c hc) m hm md hmd hsource with ⟨hcat, hsub⟩ | hnew
    · exact hcopied.tables md hcat hsource x (hsub hx)
    · exact hnew x hx

/-! ## Steps of the engine -/

/-- A step of the engine that changes no table and no frozen memtable. -/
theorem Sound.quiet (h : Sound s) {e : Engine} (hcat : e.sstableMetadata = s.engine.sstableMetadata)
    (hfiles : e.files = s.engine.files) (hfrozen : e.frozenMemtables = s.engine.frozenMemtables)
    (hid : e.activeMemtable.id = s.engine.activeMemtable.id) (hnext : e.nextTableId = s.engine.nextTableId) :
    Sound { s with engine := e } := by
  refine h.congr (h.faithful.congr hcat hfiles) ?_ hid hnext (fun _ hc => hc) ?_
  · rw [State.pending, State.pending, hfrozen]
  · intro _ _ _ _ md hmd _
    refine .inl ⟨hcat ▸ hmd, ?_⟩
    rw [tableEntries_congr (congrFun hfiles _)]
    exact List.Subset.refl _

theorem Sound.rotate (h : Sound s) : Sound { s with engine := s.engine.rotate } := by
  have hpending : State.pending { s with engine := s.engine.rotate } = s.pending ++ [s.engine.activeMemtable.freeze] :=
    (List.append_assoc _ _ _).symm
  refine ⟨h.faithful.congr rfl rfl, ?_, ?_, Nat.lt_succ_self _, ?_⟩
  · rw [hpending, List.map_append, List.nodup_append]
    refine ⟨h.distinct, List.pairwise_singleton _ _, ?_⟩
    intro a ha b hb
    obtain ⟨m, hm, rfl⟩ := List.mem_map.mp ha
    rw [List.mem_singleton.mp hb]
    exact Nat.ne_of_lt (h.below m hm)
  · intro m hm
    rw [hpending, List.mem_append, List.mem_singleton] at hm
    rcases hm with hm | rfl
    · exact lt_trans (h.below m hm) h.next
    · exact h.next
  · intro c hc m hm
    have hcopied := h.copied c hc m hm
    refine ⟨lt_trans hcopied.below h.next, ?_, hcopied.tables⟩
    intro m' hm' hid
    rw [hpending, List.mem_append, List.mem_singleton] at hm'
    rcases hm' with hm' | rfl
    · exact hcopied.same m' hm' hid
    · exact absurd hid (Nat.ne_of_gt hcopied.below)

theorem Sound.written (h : Sound s) (key value : Bytes) (isTombstone : Bool) (kv : KVCache) :
    Sound { s with engine := { s.engine.written key value isTombstone with kvCache := kv } } := by
  refine written_rule (P := fun e => Sound { s with engine := e }) kv ?_ (fun e h1 => h1.rotate)
    fun e kv h1 => h1.quiet rfl rfl rfl rfl rfl
  refine h.quiet rfl rfl rfl ?_ rfl
  exact MemTable.insert_id _ _ _ _ _

theorem Sound.drainFileGC (h : Sound s) (ts : ℕ) : Sound { s with engine := s.engine.drainFileGC ts } := by
  refine h.congr (h.faithful.drainFileGC ts) (List.Sublist.refl _) rfl rfl (fun _ hc => hc) ?_
  intro _ _ _ _ md hmd _
  refine .inl ⟨hmd, ?_⟩
  intro x hx
  rw [tableEntries] at hx ⊢
  cases hfile : (s.engine.drainFileGC ts).files md.filepath with
  | none =>
    rw [hfile] at hx
    cases hx
  | some f =>
    rw [hfile] at hx
    rw [drainFileGC_file hfile]
    exact hx

theorem Sound.compactLevel (h : Sound s) {fromLevel topLevel : ℕ}
    (hsafe : s.engine.nothingToCompact fromLevel topLevel = false →
      CompactSafe s.engine fromLevel topLevel ∧ ∀ c ∈ s.readers, ∀ m ∈ c.frozenSnapshot, m.id ≠ 0) :
    Sound { s with engine := s.engine.compactLevel fromLevel topLevel } := by
  cases hwork : s.engine.nothingToCompact fromLevel topLevel with
  | true =>
    rw [compactLevel_of_nothing _ _ _ hwork]
    exact h
  | false =>
    obtain ⟨hcompact, hzero⟩ := hsafe hwork
    have hactive : (s.engine.compactLevel fromLevel topLevel).activeMemtable = s.engine.activeMemtable :=
      compactLevel_keeps Engine.activeMemtable _ _ _ fun _ _ _ _ _ _ => rfl
    have hfrozen : (s.engine.compactLevel fromLevel topLevel).frozenMemtables = s.engine.frozenMemtables :=
      compactLevel_keeps Engine.frozenMemtables _ _ _ fun _ _ _ _ _ _ => rfl
    have hnext : (s.engine.compactLevel fromLevel topLevel).nextTableId = s.engine.nextTableId :=
      compactLevel_keeps Engine.nextTableId _ _ _ fun _ _ _ _ _ _ => rfl
    refine h.congr (h.faithful.compactLevel fun _ => hcompact) ?_ (congrArg MemTable.id hactive) hnext (fun _ hc => hc) ?_
    · rw [State.pending, State.pending, hfrozen]
    · intro c hc m hm md hmd hsource
      rcases compactLevel_table hwork hcompact hmd with ⟨hcat, hsame⟩ | ⟨hdefault, -⟩
      · refine .inl ⟨hcat, ?_⟩
        rw [tableEntries_congr hsame]
        exact List.Subset.refl _
      · exact absurd (hsource.symm.trans hdefault) (hzero c hc m hm)

theorem Sound.call (h : Sound s) {call : Calls.Call} (hsafe : Safe s (.call call))
    (hs : step s (.call call) = some s') : Sound s' := by
  have hcompaction : ((∃ n l b, call = .manualCompact n l b) ∨ call = .compactionWorker) →
      ∀ e, Calls.step s.engine call = some e → Sound { s with engine := e } := by
    intro hcall e hstep
    rcases Calls.compact_step hstep hcall with ⟨-, rfl | rfl⟩ | ⟨bottom, top, hrange, rfl⟩
    · exact h
    · exact h.drainFileGC _
    · exact (h.compactLevel (hsafe (bottom, top) hrange)).drainFileGC _
  cases call with
  | insert key value =>
    obtain ⟨e, hstep, rfl⟩ := Option.map_eq_some_iff.mp hs
    obtain ⟨-, rfl⟩ := Calls.insert_step hstep
    exact h.written key value false _
  | delete key =>
    obtain ⟨e, hstep, rfl⟩ := Option.map_eq_some_iff.mp hs
    obtain ⟨-, rfl⟩ := Calls.delete_step hstep
    exact h.written key [] true _
  | rotate =>
    obtain ⟨e, hstep, rfl⟩ := Option.map_eq_some_iff.mp hs
    simp only [Calls.step] at hstep
    split at hstep
    · cases hstep
    · cases hstep
      exact h.rotate
  | flushWorker => cases hs
  | manualCompact n l b =>
    cases hs
    exact hcompaction (.inl ⟨n, l, b, rfl⟩) _ rfl
  | compactionWorker =>
    cases hs
    exact hcompaction (.inr rfl) _ rfl
  | drainFileGC ts =>
    cases hs
    exact h.drainFileGC ts
  | lookup key readTs =>
    obtain ⟨kv, cache, heq, -⟩ := s.engine.lookupAt_eq key readTs
    cases hs
    rw [heq]
    exact h.quiet rfl rfl rfl rfl rfl
  | evict keepHeavy keepBlock =>
    cases hs
    exact h.quiet rfl rfl rfl rfl rfl

/-! ## Steps of the flush worker and of a lookup -/

theorem Sound.flushPop (h : Sound s) (hs : step s .flushPop = some s') : Sound s' := by
  simp only [step] at hs
  split at hs
  · next m rest hflight hfrozen =>
    cases hs
    have hpending : s.pending = m :: rest := by
      rw [State.pending, hflight, hfrozen]
      rfl
    refine h.congr (h.faithful.congr rfl rfl) ?_ rfl rfl (fun _ hc => hc)
      fun _ _ _ _ md hmd _ => .inl ⟨hmd, List.Subset.refl _⟩
    rw [hpending]
    exact List.Sublist.refl _
  · cases hs

/-- The table that the worker publishes has the id of its memtable, and so has no other memtable. -/
theorem Sound.flushFinish (h : Sound s) (hsafe : Safe s .flushFinish) (hs : step s .flushFinish = some s') :
    Sound s' := by
  obtain ⟨m, hm, rfl⟩ := Option.map_eq_some_iff.mp hs
  have hpending : s.pending = m :: s.engine.frozenMemtables := by
    rw [State.pending, hm]
    rfl
  have hflushed : Sound
      { s with
        engine := s.engine.doFlush m
        flight := none } := by
    have hflush : FlushSafe s.engine m := hsafe m hm
    refine h.congr (h.faithful.doFlush hflush) ?_ (congrArg MemTable.id (doFlush_activeMemtable _ m))
      (doFlush_keeps Engine.nextTableId _ m fun _ _ => rfl) (fun _ hc => hc) ?_
    · rw [hpending]
      show (s.engine.doFlush m).frozenMemtables.Sublist _
      rw [doFlush_frozenMemtables]
      exact List.sublist_cons_self _ _
    · intro c hc m' hm' md hmd hsource
      rcases doFlush_tableEntries hflush hmd with ⟨hcat, hsame⟩ | ⟨hid, hsub⟩
      · exact .inl ⟨hcat, fun x hx => hsame ▸ hx⟩
      · have hmem : m ∈ s.pending := by
          rw [hpending]
          exact List.mem_cons_self
        rw [← (h.copied c hc m' hm').same m hmem (hid.symm.trans hsource)]
        exact .inr hsub
  unfold finishFlush
  split
  · exact hflushed.quiet rfl rfl rfl rfl rfl
  · refine h.congr h.faithful ?_ rfl rfl (fun _ hc => hc) fun _ _ _ _ md hmd _ => .inl ⟨hmd, List.Subset.refl _⟩
    rw [hpending]
    exact List.sublist_cons_self _ _

theorem Sound.startLookup (h : Sound s) (hsafe : Safe s .startLookup) (hs : step s .startLookup = some s') :
    Sound s' := by
  cases hs
  refine ⟨h.faithful, h.distinct, h.below, h.next, ?_⟩
  intro c hc m hm
  rcases List.mem_append.mp hc with hc | hc
  · have hcopied := h.copied c hc m hm
    exact ⟨hcopied.below, hcopied.same, hcopied.tables⟩
  · rw [List.mem_singleton.mp hc] at hm
    have hpending : m ∈ s.pending := List.mem_append_right _ hm
    refine ⟨h.below m hpending, ?_, fun md hmd hsource => absurd hsource (hsafe m hm md hmd)⟩
    exact fun m' hm' hid => List.inj_on_of_nodup_map h.distinct hm' hpending hid

theorem sound_construct {cfg : EngineConfig} {d : Directory} (hfiles : ∀ n f, d.files n = some f → f.Admits)
    (hsafe : RestartSafe cfg d) : Sound ⟨construct cfg d, none, []⟩ := by
  obtain ⟨hfrozen, hid⟩ := construct_settled cfg d
  have hpending : State.pending ⟨construct cfg d, none, []⟩ = [] := hfrozen
  refine ⟨construct_faithful hfiles hsafe, ?_, ?_, hid, fun _ hc => (by cases hc)⟩
  · rw [hpending]
    exact List.nodup_nil
  · rw [hpending]
    exact fun _ hm => (by cases hm)

theorem sound_init (cfg : EngineConfig) : Sound (init cfg) :=
  sound_construct (fun _ _ hfile => (by cases hfile)) fun hcount => absurd rfl hcount

theorem Sound.step (h : Sound s) {a : Action} (hsafe : Safe s a) (hs : step s a = some s') : Sound s' := by
  cases a with
  | call call => exact h.call hsafe hs
  | flushPop => exact h.flushPop hs
  | flushFinish => exact h.flushFinish hsafe hs
  | startLookup => exact h.startLookup hsafe hs
  | endLookup i =>
    cases hs
    exact h.congr h.faithful (List.Sublist.refl _) rfl rfl (fun _ hc => List.mem_of_mem_eraseIdx hc)
      fun _ _ _ _ md hmd _ => .inl ⟨hmd, List.Subset.refl _⟩
  | crash cfg =>
    cases hs
    exact sound_construct h.faithful.files hsafe
  | close cfg =>
    simp only [SkippedTables.step] at hs
    split at hs
    · cases hs
      exact sound_construct (close_admits h.faithful.files hsafe.1) hsafe.2
    · cases hs

/-! ## Runs -/

/-- Flushes while lookups hold the memtable, a compaction, and a restart after which the memtable 0 is flushed before a
lookup copies the memtables. -/
def calmRun : List Action :=
  [.call (.insert [1] [2]), .call .rotate, .startLookup, .flushPop, .flushFinish, .endLookup 0,
    .call (.insert [3] [4]), .call .rotate, .flushPop, .flushFinish, .call (.manualCompact 2 0 false),
    .call (.lookup [3] 2), .close smallConfig, .call (.insert [3] [5]), .call .rotate, .flushPop, .flushFinish,
    .call (.insert [6] [7]), .call .rotate, .startLookup, .flushPop, .flushFinish]

/-- A table is recovered with the id 0, and the new memtable 0 is frozen. -/
def reopenedRun : List Action :=
  [.call (.insert [1] [2]), .call .rotate, .flushPop, .flushFinish, .close smallConfig, .call (.insert [3] [4]),
    .call .rotate, .startLookup]

end Kvdb.SkippedTables
