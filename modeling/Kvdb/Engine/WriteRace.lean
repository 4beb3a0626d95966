import Kvdb.Engine.Serving
import Kvdb.Engine.Snapshots

/-! # A write against a concurrent `Flush`

One writer in `Insert` or `Delete`, another thread in `Flush`, and the flush worker, step by step. The
writer reads `active_memtable_` and inserts into that memtable without `memtable_mutex_`; a memtable that
has been frozen by then drops the insertion. `Freeze` and the replacement of `active_memtable_` are two
steps of `Flush`, both under the mutex. -/
namespace Kvdb.WriteRace
set_option autoImplicit false

open Kvdb.Runs Kvdb.Engine
open Kvdb.Compaction (Newest)
open Kvdb.Snapshots (flushWrite_files flushPublish_of_file)

/-- Where the writer stands. The memtable it has read is known by its id. -/
inductive WriterStage where
  | idle
  | taken (w : KeyValuePair)
  | buffered (w : KeyValuePair)
  | loaded (w : KeyValuePair) (id : ℕ)
  | checked (w : KeyValuePair) (id : ℕ)
  | inserted (w : KeyValuePair)
  | returning (w : KeyValuePair)

/-- Where `Flush` stands: between `Freeze` and the replacement it holds the mutex. -/
inductive FlusherStage where
  | idle
  | frozen
  | waiting
  deriving DecidableEq

/-- Where the flush worker stands in its round. -/
inductive WorkerStage where
  | idle
  | popped (m : MemTable)
  | wrote (m : MemTable) (seq : ℕ)

/-- The memtable that the worker has taken out of `frozen_memtables_`. -/
def WorkerStage.table : WorkerStage → Option MemTable
  | .idle => none
  | .popped m => some m
  | .wrote m _ => some m

/-- The version that the writer has yet to insert. -/
def WriterStage.coming : WriterStage → Option KeyValuePair
  | .taken w => some w
  | .buffered w => some w
  | .loaded w _ => some w
  | .checked w _ => some w
  | _ => none

/-- The memtable that the writer has read and not yet inserted into. -/
def WriterStage.pointer : WriterStage → Option ℕ
  | .loaded _ id => some id
  | .checked _ id => some id
  | _ => none

/-- `last` is the version of the writer's last call that has returned. -/
structure State where
  engine : Engine
  writer : WriterStage
  flusher : FlusherStage
  worker : WorkerStage
  last : Option KeyValuePair

inductive Action where
  | takeTimestamp (key value : Bytes) (isTombstone : Bool)
  | bufferWrite
  | loadActive
  | checkFrozen
  | treeInsert
  | freezeIfFull
  | finish
  | flushFreeze
  | flushReplace
  | flushReturn
  | pop
  | write
  | publish

def init (cfg : EngineConfig) : State := ⟨Engine.create cfg, .idle, .idle, .idle, none⟩

/-- `tree_.Insert` on the memtable with that id, behind the test of `frozen_`. -/
def insertAt (id : ℕ) (w : KeyValuePair) (m : MemTable) : MemTable :=
  if m.id = id then { m with tree := m.tree.insert w } else m

def WorkerStage.insertAt (id : ℕ) (w : KeyValuePair) : WorkerStage → WorkerStage
  | .idle => .idle
  | .popped m => .popped (WriteRace.insertAt id w m)
  | .wrote m seq => .wrote (WriteRace.insertAt id w m) seq

/-- `frozen_` of the memtable with that id: only the active one may be unfrozen. -/
def isFrozen (e : Engine) (id : ℕ) : Bool :=
  if e.activeMemtable.id = id then e.activeMemtable.frozen else true

def step (s : State) : Action → Option State
  | .takeTimestamp key value isTombstone =>
    match s.writer, s.engine.takeTimestamp with
    | .idle, some (ts, e) => some { s with engine := e, writer := .taken ⟨key, value, ts, isTombstone⟩ }
    | _, _ => none
  | .bufferWrite =>
    match s.writer with
    | .taken w => some { s with engine := s.engine.bufferWrite w.key w.value w.timestamp, writer := .buffered w }
    | _ => none
  | .loadActive =>
    match s.writer with
    | .buffered w => some { s with writer := .loaded w s.engine.activeMemtable.id }
    | _ => none
  | .checkFrozen =>
    match s.writer with
    | .loaded w id => some { s with writer := if isFrozen s.engine id then .inserted w else .checked w id }
    | _ => none
  | .treeInsert =>
    match s.writer with
    | .checked w id => some { s with
        engine := { s.engine with
          activeMemtable := insertAt id w s.engine.activeMemtable
          frozenMemtables := s.engine.frozenMemtables.map (insertAt id w) }
        worker := s.worker.insertAt id w
        writer := .inserted w }
    | _ => none
  | .freezeIfFull =>
    match s.writer with
    | .inserted w =>
      if s.flusher = .frozen then none
      else some { s with engine := s.engine.freezeIfFull, writer := .returning w }
    | _ => none
  | .finish =>
    match s.writer with
    | .returning w => some { s with writer := .idle, last := some w }
    | _ => none
  | .flushFreeze =>
    if s.flusher = .idle ∧ s.engine.activeMemtable.entryCount ≠ 0 then
      some { s with
        engine := { s.engine with activeMemtable := s.engine.activeMemtable.freeze }
        flusher := .frozen }
    else none
  | .flushReplace =>
    if s.flusher = .frozen then some { s with engine := s.engine.rotate, flusher := .waiting } else none
  | .flushReturn =>
    if s.flusher = .waiting ∧ s.engine.frozenMemtables.isEmpty = true ∧ s.worker.table.isNone = true then
      some { s with flusher := .idle }
    else none
  | .pop =>
    match s.worker, s.engine.frozenMemtables with
    | .idle, m :: rest =>
      if s.flusher = .frozen then none
      else some { s with
        engine := { s.engine with frozenMemtables := rest }
        worker := if m.entryCount = 0 then .idle else .popped m }
    | _, _ => none
  | .write =>
    match s.worker with
    | .popped m => some { s with
        engine := (s.engine.reserveSeq 1).flushWrite m s.engine.sstableSeq
        worker := .wrote m s.engine.sstableSeq }
    | _ => none
  | .publish =>
    match s.worker with
    | .wrote m seq => some { s with
        engine := (s.engine.flushPublish m seq).writeCheckpoint
        worker := .idle }
    | _ => none

/-! ## The property and its condition -/

/-- The memtables that are no longer the active one. -/
def others (s : State) : List MemTable := s.engine.frozenMemtables ++ s.worker.table.toList

/-- A memtable or a table of the engine holds the version. -/
def Held (s : State) (w : KeyValuePair) : Prop :=
  w ∈ s.engine.activeMemtable.entries ∨ (∃ m ∈ others s, w ∈ m.entries) ∨
    ∃ md ∈ s.engine.sstableMetadata, w ∈ s.engine.tableEntries md

/-- Once both calls have returned, the version that was written is held. -/
def WriteHeld (s : State) : Prop :=
  s.writer = .idle → s.flusher = .idle → ∀ w, s.last = some w → Held s w

/-- The condition on a step: the writer does not read `active_memtable_` between `Freeze` and the
replacement, the memtable it has read is not frozen before its insertion is done, and the insertion
finds room at the place of its key, which a flush keeps. -/
def Allowed (s : State) : Action → Prop
  | .loadActive => s.engine.activeMemtable.frozen = false
  | .flushFreeze => s.writer.pointer = none
  | .treeInsert => ∀ w ∈ s.writer.coming, Fits s.engine w
  | _ => True

instance decidableAllowed (s : State) (a : Action) : Decidable (Allowed s a) := by
  cases a <;> unfold Allowed <;> infer_instance

/-! ## The invariant -/

/-- All memtables: a version may be in any of them. -/
def tables (s : State) : List MemTable := others s ++ [s.engine.activeMemtable]

/-- The version that has to be held: that of the call in progress once it is inserted, else that of the
last call. -/
def current (s : State) : Option KeyValuePair :=
  match s.writer with
  | .inserted w => some w
  | .returning w => some w
  | _ => s.last

structure Inv (s : State) : Prop where
  tidy : ∀ m ∈ tables s, Tidy m ∧ m.Clean
  ids : ∀ m ∈ others s, m.id < s.engine.activeMemtable.id
  nextId : s.engine.activeMemtable.id < s.engine.nextTableId
  pointer : ∀ id, s.writer.pointer = some id → id = s.engine.activeMemtable.id ∧
    s.engine.activeMemtable.frozen = false
  visible : ∀ m ∈ tables s, ∀ x ∈ m.entries, x.timestamp ≤ s.engine.globalTs
  coming : ∀ w, s.writer.coming = some w → w.timestamp ≤ s.engine.globalTs ∧
    ∀ m ∈ tables s, ∀ x ∈ m.entries, x.timestamp < w.timestamp
  held : ∀ w, current s = some w → Held s w ∧ ∀ m ∈ tables s, ∀ x ∈ m.entries, x.timestamp ≤ w.timestamp
  below : ∀ md ∈ s.engine.sstableMetadata, md.filepath < s.engine.sstableSeq
  wrote : ∀ m seq, s.worker = .wrote m seq → seq < s.engine.sstableSeq ∧
    ∃ f, s.engine.files seq = some f ∧ ∀ x, Newest m.entries x → x ∈ f.entries
  locked : s.flusher = .frozen → s.engine.activeMemtable.frozen = true

theorem Inv.writeHeld {s : State} (h : Inv s) : WriteHeld s := by
  intro hidle _ w hw
  refine (h.held w ?_).1
  rw [current, hidle]
  exact hw

/-- The same memtables and tables. -/
structure SameTables (s t : State) : Prop where
  active : t.engine.activeMemtable = s.engine.activeMemtable
  others : others t = others s
  nextId : t.engine.nextTableId = s.engine.nextTableId
  worker : t.worker = s.worker
  flusher : t.flusher = s.flusher
  files : t.engine.files = s.engine.files
  seq : t.engine.sstableSeq = s.engine.sstableSeq
  catalogue : t.engine.sstableMetadata = s.engine.sstableMetadata

theorem SameTables.tables {s t : State} (h : SameTables s t) : tables t = tables s := by
  rw [WriteRace.tables, WriteRace.tables, h.others, h.active]

theorem SameTables.held {s t : State} (h : SameTables s t) {w : KeyValuePair} (hw : Held s w) : Held t w := by
  unfold Held
  rw [h.active, h.others, h.catalogue]
  rcases hw with hw | hw | ⟨md, hmd, hw⟩
  · exact .inl hw
  · exact .inr (.inl hw)
  · refine .inr (.inr ⟨md, hmd, ?_⟩)
    rw [tableEntries_congr (congrFun h.files _)]
    exact hw

/-- A step of the writer that moves no version. -/
theorem Inv.frame {s t : State} (hs : Inv s) (h : SameTables s t)
    (hpointer : ∀ id, t.writer.pointer = some id → id = s.engine.activeMemtable.id ∧
      s.engine.activeMemtable.frozen = false)
    (hts : s.engine.globalTs ≤ t.engine.globalTs)
    (hcoming : ∀ w, t.writer.coming = some w → w.timestamp ≤ t.engine.globalTs ∧
      ∀ m ∈ tables s, ∀ x ∈ m.entries, x.timestamp < w.timestamp)
    (hcurrent : ∀ w, current t = some w → current s = some w) : Inv t := by
  refine ⟨?_, ?_, ?_, ?_, ?_, ?_, ?_, ?_, ?_, ?_⟩
  · rw [h.tables]
    exact hs.tidy
  · rw [h.others, h.active]
    exact hs.ids
  · rw [h.active, h.nextId]
    exact hs.nextId
  · rw [h.active]
    exact hpointer
  · rw [h.tables]
    exact fun m hm x hx => (hs.visible m hm x hx).trans hts
  · rw [h.tables]
    exact hcoming
  · rw [h.tables]
    intro w hw
    obtain ⟨hheld, hle⟩ := hs.held w (hcurrent w hw)
    exact ⟨h.held hheld, hle⟩
  · rw [h.catalogue, h.seq]
    exact hs.below
  · rw [h.worker, h.files, h.seq]
    exact hs.wrote
  · rw [h.flusher, h.active]
    exact hs.locked

/-! ## The steps of the writer -/

theorem Inv.takeTimestamp {s t : State} {key value : Bytes} {isTombstone : Bool} (hs : Inv s)
    (h : step s (.takeTimestamp key value isTombstone) = some t) : Inv t := by
  simp only [step] at h
  split at h
  · next ts e hidle htake =>
    obtain ⟨-, hr⟩ := takeTimestamp_eq_some htake
    cases hr
    cases h
    refine hs.frame ⟨rfl, rfl, rfl, rfl, rfl, rfl, rfl, rfl⟩ (fun id hid => (by cases hid)) (Nat.le_succ _) ?_ ?_
    · intro w hw
      cases hw
      exact ⟨Nat.le_refl _, fun m hm x hx => Nat.lt_succ_of_le (hs.visible m hm x hx)⟩
    · intro w hw
      rw [current, hidle]
      exact hw
  · cases h

theorem Inv.bufferWrite {s t : State} (hs : Inv s) (h : step s .bufferWrite = some t) : Inv t := by
  simp only [step] at h
  split at h
  · next w htaken =>
    cases h
    refine hs.frame ⟨rfl, rfl, rfl, rfl, rfl, rfl, rfl, rfl⟩ (fun id hid => (by cases hid)) (Nat.le_refl _) ?_ ?_
    · intro w' hw'
      exact hs.coming w' (by rw [htaken]; exact hw')
    · intro w' hw'
      rw [current, htaken]
      exact hw'
  · cases h

theorem Inv.loadActive {s t : State} (hs : Inv s) (hok : Allowed s .loadActive)
    (h : step s .loadActive = some t) : Inv t := by
  simp only [step] at h
  split at h
  · next w hbuffered =>
    cases h
    refine hs.frame ⟨rfl, rfl, rfl, rfl, rfl, rfl, rfl, rfl⟩ ?_ (Nat.le_refl _) ?_ ?_
    · intro id hid
      cases hid
      exact ⟨rfl, hok⟩
    · intro w' hw'
      exact hs.coming w' (by rw [hbuffered]; exact hw')
    · intro w' hw'
      rw [current, hbuffered]
      exact hw'
  · cases h

/-- The memtable that the writer has read passes the test of `MemTable::Insert`. -/
theorem Inv.checkFrozen {s t : State} (hs : Inv s) (h : step s .checkFrozen = some t) : Inv t := by
  simp only [step] at h
  split at h
  · next w id hloaded =>
    obtain ⟨hid, hunfrozen⟩ := hs.pointer id (by rw [hloaded]; rfl)
    have hfrozen : isFrozen s.engine id = false := by
      rw [isFrozen, if_pos hid.symm]
      exact hunfrozen
    rw [hfrozen] at h
    cases h
    refine hs.frame ⟨rfl, rfl, rfl, rfl, rfl, rfl, rfl, rfl⟩ ?_ (Nat.le_refl _) ?_ ?_
    · intro id' hid'
      exact hs.pointer id' (by rw [hloaded]; exact hid')
    · intro w' hw'
      exact hs.coming w' (by rw [hloaded]; exact hw')
    · intro w' hw'
      rw [current, hloaded]
      exact hw'
  · cases h

theorem insertAt_of_ne {id : ℕ} {w : KeyValuePair} {m : MemTable} (h : m.id ≠ id) : insertAt id w m = m := if_neg h

theorem WorkerStage.insertAt_of_ne {id : ℕ} {w : KeyValuePair} {stage : WorkerStage}
    (h : ∀ m ∈ stage.table.toList, m.id ≠ id) : stage.insertAt id w = stage := by
  cases stage with
  | idle => rfl
  | popped m => rw [WorkerStage.insertAt, WriteRace.insertAt_of_ne (h m List.mem_cons_self)]
  | wrote m seq => rw [WorkerStage.insertAt, WriteRace.insertAt_of_ne (h m List.mem_cons_self)]

/-- The insertion into the active memtable. -/
theorem insertAt_active {m : MemTable} (hfrozen : m.frozen = false) (w : KeyValuePair) :
    insertAt m.id w m = m.insert w.key w.value w.timestamp w.isTombstone := by
  rw [insertAt, if_pos rfl, MemTable.insert, hfrozen]
  rfl

theorem Inv.treeInsert {s t : State} (hs : Inv s) (hok : Allowed s .treeInsert)
    (h : step s .treeInsert = some t) : Inv t := by
  simp only [step] at h
  split at h
  · next w id hchecked =>
    obtain ⟨hid, hunfrozen⟩ := hs.pointer id (by rw [hchecked]; rfl)
    obtain ⟨hwts, hnew⟩ := hs.coming w (by rw [hchecked]; rfl)
    have hfits : Fits s.engine w := hok w (by rw [hchecked]; rfl)
    have hactive : s.engine.activeMemtable ∈ tables s := List.mem_append_right _ List.mem_cons_self
    have hne : ∀ m ∈ others s, m.id ≠ id := by
      intro m hm
      rw [hid]
      exact Nat.ne_of_lt (hs.ids m hm)
    have hfrozen : s.engine.frozenMemtables.map (insertAt id w) = s.engine.frozenMemtables := by
      have hsame : ∀ m ∈ s.engine.frozenMemtables, insertAt id w m = m :=
        fun m hm => insertAt_of_ne (hne m (List.mem_append_left _ hm))
      rw [List.map_congr_left hsame, List.map_id']
    have hworker : s.worker.insertAt id w = s.worker :=
      WorkerStage.insertAt_of_ne fun m hm => hne m (List.mem_append_right _ hm)
    rw [hfrozen, hworker, hid, insertAt_active hunfrozen] at h
    cases h
    have hperm := MemTable.insert_perm hunfrozen hfits.placed.kept
    have hmem : ∀ m ∈ others s ++ [s.engine.activeMemtable.insert w.key w.value w.timestamp w.isTombstone],
        ∀ x ∈ m.entries, x = w ∨ ∃ m' ∈ tables s, x ∈ m'.entries := by
      intro m hm x hx
      rcases List.mem_append.mp hm with hm | hm
      · exact .inr ⟨m, List.mem_append_left _ hm, hx⟩
      · rw [List.mem_singleton.mp hm] at hx
        rcases MemTable.mem_insert hx with hxw | hx
        · exact .inl hxw
        · exact .inr ⟨_, hactive, hx⟩
    have hwithin : ∀ m ∈ others s ++ [s.engine.activeMemtable.insert w.key w.value w.timestamp w.isTombstone],
        ∀ x ∈ m.entries, x.timestamp ≤ w.timestamp := by
      intro m hm x hx
      rcases hmem m hm x hx with rfl | ⟨m', hm', hx'⟩
      · exact Nat.le_refl _
      · exact Nat.le_of_lt (hnew m' hm' x hx')
    refine ⟨?_, ?_, ?_, fun id hid => (by cases hid), ?_, fun w hw => (by cases hw), ?_, hs.below, hs.wrote, ?_⟩
    · intro m hm
      rcases List.mem_append.mp hm with hm | hm
      · exact hs.tidy m (List.mem_append_left _ hm)
      · rw [List.mem_singleton.mp hm]
        obtain ⟨htidy, hclean⟩ := hs.tidy _ hactive
        exact ⟨htidy.insert hfits.placed hfits.key (hnew _ hactive), hclean.insert _ _ _ _⟩
    · intro m hm
      show m.id < (s.engine.activeMemtable.insert w.key w.value w.timestamp w.isTombstone).id
      rw [MemTable.insert_id]
      exact hs.ids m hm
    · show (s.engine.activeMemtable.insert w.key w.value w.timestamp w.isTombstone).id < s.engine.nextTableId
      rw [MemTable.insert_id]
      exact hs.nextId
    · exact fun m hm x hx => (hwithin m hm x hx).trans hwts
    · intro w' hw'
      cases hw'
      exact ⟨.inl (hperm.symm.subset List.mem_cons_self), hwithin⟩
    · intro hflusher
      exact (MemTable.insert_frozen _ _ _ _ _).trans (hs.locked hflusher)
  · cases h

/-- The memtable is frozen and a fresh one installed, by a writer whose insertion is done or by `Flush`. -/
theorem Inv.rotate {s t : State} (hs : Inv s) (hengine : t.engine = s.engine.rotate) (hworker : t.worker = s.worker)
    (hflusher : t.flusher ≠ .frozen) (hpointer : t.writer.pointer = none)
    (hcoming : ∀ w, t.writer.coming = some w → s.writer.coming = some w)
    (hcurrent : ∀ w, current t = some w → current s = some w) : Inv t := by
  have hothers : others t = s.engine.frozenMemtables ++ [s.engine.activeMemtable.freeze] ++ s.worker.table.toList := by
    rw [others, hengine, hworker]
    rfl
  have hold : ∀ m ∈ others t, ∃ m' ∈ tables s, m'.entries = m.entries ∧ m'.id = m.id ∧ (m = m' ∨ m = m'.freeze) := by
    intro m hm
    rw [hothers, List.mem_append, List.mem_append, List.mem_singleton] at hm
    rcases hm with (hm | rfl) | hm
    · exact ⟨m, List.mem_append_left _ (List.mem_append_left _ hm), rfl, rfl, .inl rfl⟩
    · exact ⟨s.engine.activeMemtable, List.mem_append_right _ List.mem_cons_self, rfl, rfl, .inr rfl⟩
    · exact ⟨m, List.mem_append_left _ (List.mem_append_right _ hm), rfl, rfl, .inl rfl⟩
  have htables : ∀ m ∈ tables t, (∃ m' ∈ tables s, m'.entries = m.entries) ∨ m.entries = [] := by
    intro m hm
    rcases List.mem_append.mp hm with hm | hm
    · obtain ⟨m', hm', heq, -⟩ := hold m hm
      exact .inl ⟨m', hm', heq⟩
    · rw [List.mem_singleton.mp hm, hengine]
      exact .inr rfl
  have hbounded : ∀ n, (∀ m ∈ tables s, ∀ x ∈ m.entries, x.timestamp ≤ n) →
      ∀ m ∈ tables t, ∀ x ∈ m.entries, x.timestamp ≤ n := by
    intro n hn m hm x hx
    rcases htables m hm with ⟨m', hm', heq⟩ | hempty
    · exact hn m' hm' x (heq ▸ hx)
    · rw [hempty] at hx
      cases hx
  refine ⟨?_, ?_, ?_, ?_, ?_, ?_, ?_, ?_, ?_, fun hfrozen => absurd hfrozen hflusher⟩
  · intro m hm
    rcases List.mem_append.mp hm with hm | hm
    · obtain ⟨m', hm', -, -, heq⟩ := hold m hm
      obtain ⟨htidy, hclean⟩ := hs.tidy m' hm'
      rcases heq with rfl | rfl
      · exact ⟨htidy, hclean⟩
      · exact ⟨htidy.freeze, hclean.freeze⟩
    · rw [List.mem_singleton.mp hm, hengine]
      exact ⟨tidy_new _ _, MemTable.clean_new _ _⟩
  · intro m hm
    obtain ⟨m', hm', -, hid, -⟩ := hold m hm
    rw [hengine, ← hid]
    show m'.id < s.engine.nextTableId
    rcases List.mem_append.mp hm' with hm' | hm'
    · exact Nat.lt_trans (hs.ids m' hm') hs.nextId
    · rw [List.mem_singleton.mp hm']
      exact hs.nextId
  · rw [hengine]
    exact Nat.lt_succ_self _
  · intro id hid
    rw [hpointer] at hid
    cases hid
  · rw [hengine]
    exact hbounded _ hs.visible
  · intro w hw
    obtain ⟨hts, hlt⟩ := hs.coming w (hcoming w hw)
    refine ⟨by rw [hengine]; exact hts, ?_⟩
    intro m hm x hx
    rcases htables m hm with ⟨m', hm', heq⟩ | hempty
    · exact hlt m' hm' x (heq ▸ hx)
    · rw [hempty] at hx
      cases hx
  · intro w hw
    obtain ⟨hheld, hle⟩ := hs.held w (hcurrent w hw)
    refine ⟨?_, hbounded _ hle⟩
    unfold Held
    rw [hothers, hengine]
    rcases hheld with hw | ⟨m, hm, hw⟩ | hw
    · refine .inr (.inl ⟨s.engine.activeMemtable.freeze, ?_, hw⟩)
      exact List.mem_append_left _ (List.mem_append_right _ List.mem_cons_self)
    · refine .inr (.inl ⟨m, ?_, hw⟩)
      rcases List.mem_append.mp hm with hm | hm
      · exact List.mem_append_left _ (List.mem_append_left _ hm)
      · exact List.mem_append_right _ hm
    · exact .inr (.inr hw)
  · rw [hengine]
    exact hs.below
  · rw [hengine, hworker]
    exact hs.wrote

theorem Inv.freezeIfFull {s t : State} (hs : Inv s) (h : step s .freezeIfFull = some t) : Inv t := by
  simp only [step] at h
  split at h
  · next w hinserted =>
    split at h
    · cases h
    · next hfree =>
      cases h
      have hcurrent : ∀ w', some w = some w' → current s = some w' := by
        intro w' hw'
        rw [current, hinserted]
        exact hw'
      by_cases hfull : s.engine.activeMemtable.isFull = true
      · rw [Engine.freezeIfFull, if_pos hfull]
        exact hs.rotate rfl rfl hfree rfl (fun w hw => (by cases hw)) hcurrent
      · rw [Engine.freezeIfFull, if_neg hfull]
        exact hs.frame ⟨rfl, rfl, rfl, rfl, rfl, rfl, rfl, rfl⟩ (fun id hid => (by cases hid)) (Nat.le_refl _)
          (fun w hw => (by cases hw)) hcurrent
  · cases h

theorem Inv.finish {s t : State} (hs : Inv s) (h : step s .finish = some t) : Inv t := by
  simp only [step] at h
  split at h
  · next w hreturning =>
    cases h
    refine hs.frame ⟨rfl, rfl, rfl, rfl, rfl, rfl, rfl, rfl⟩ (fun id hid => (by cases hid)) (Nat.le_refl _)
      (fun w hw => (by cases hw)) ?_
    intro w' hw'
    rw [current, hreturning]
    exact hw'
  · cases h

/-! ## The steps of `Flush` and of the worker -/

theorem Inv.flushFreeze {s t : State} (hs : Inv s) (hok : Allowed s .flushFreeze)
    (h : step s .flushFreeze = some t) : Inv t := by
  simp only [step] at h
  split at h
  · cases h
    have htables : ∀ m ∈ others s ++ [s.engine.activeMemtable.freeze],
        ∃ m' ∈ tables s, m'.entries = m.entries ∧ (m = m' ∨ m = m'.freeze) := by
      intro m hm
      rcases List.mem_append.mp hm with hm | hm
      · exact ⟨m, List.mem_append_left _ hm, rfl, .inl rfl⟩
      · rw [List.mem_singleton.mp hm]
        exact ⟨s.engine.activeMemtable, List.mem_append_right _ List.mem_cons_self, rfl, .inr rfl⟩
    refine ⟨?_, hs.ids, hs.nextId, ?_, ?_, ?_, ?_, hs.below, hs.wrote, fun _ => rfl⟩
    · intro m hm
      obtain ⟨m', hm', -, heq⟩ := htables m hm
      obtain ⟨htidy, hclean⟩ := hs.tidy m' hm'
      rcases heq with rfl | rfl
      · exact ⟨htidy, hclean⟩
      · exact ⟨htidy.freeze, hclean.freeze⟩
    · intro id hid
      have hnone : s.writer.pointer = none := hok
      rw [show s.writer.pointer = some id from hid] at hnone
      cases hnone
    · intro m hm x hx
      obtain ⟨m', hm', heq, -⟩ := htables m hm
      exact hs.visible m' hm' x (heq ▸ hx)
    · intro w hw
      obtain ⟨hts, hlt⟩ := hs.coming w hw
      refine ⟨hts, ?_⟩
      intro m hm x hx
      obtain ⟨m', hm', heq, -⟩ := htables m hm
      exact hlt m' hm' x (heq ▸ hx)
    · intro w hw
      obtain ⟨hheld, hle⟩ := hs.held w hw
      refine ⟨hheld, ?_⟩
      intro m hm x hx
      obtain ⟨m', hm', heq, -⟩ := htables m hm
      exact hle m' hm' x (heq ▸ hx)
  · cases h

theorem Inv.flushReplace {s t : State} (hs : Inv s) (h : step s .flushReplace = some t) : Inv t := by
  simp only [step] at h
  split at h
  · next hfrozen =>
    cases h
    refine hs.rotate rfl rfl (fun hw => by cases hw) ?_ (fun w hw => hw) (fun w hw => hw)
    cases hpointer : s.writer.pointer with
    | none => rfl
    | some id =>
      have hunfrozen := (hs.pointer id hpointer).2
      rw [hs.locked hfrozen] at hunfrozen
      cases hunfrozen
  · cases h

theorem Inv.flushReturn {s t : State} (hs : Inv s) (h : step s .flushReturn = some t) : Inv t := by
  simp only [step] at h
  split at h
  · cases h
    exact ⟨hs.tidy, hs.ids, hs.nextId, hs.pointer, hs.visible, hs.coming, hs.held, hs.below, hs.wrote,
      fun hfrozen => (by cases hfrozen)⟩
  · cases h

/-- The worker takes the first frozen memtable; one without entries is dropped. -/
theorem Inv.pop {s t : State} (hs : Inv s) (h : step s .pop = some t) : Inv t := by
  simp only [step] at h
  split at h
  · next m rest hidle hfrozen =>
    split at h
    · cases h
    · next hfree =>
      cases h
      have hothers : others s = m :: rest := by
        rw [others, hfrozen, hidle]
        exact List.append_nil _
      have hm : m ∈ tables s := by
        rw [tables, hothers]
        exact List.mem_cons_self
      have hempty : m.entryCount = 0 → m.entries = [] := (hs.tidy m hm).2.counted
      have hkept : ∀ m' ∈ rest ++ (if m.entryCount = 0 then WorkerStage.idle else .popped m).table.toList,
          m' ∈ others s := by
        intro m' hm'
        rw [hothers]
        rcases List.mem_append.mp hm' with hm' | hm'
        · exact List.mem_cons_of_mem _ hm'
        · split at hm'
          · cases hm'
          · rw [List.mem_singleton.mp hm']
            exact List.mem_cons_self
      have htables : ∀ m' ∈ rest ++ (if m.entryCount = 0 then WorkerStage.idle else .popped m).table.toList ++
          [s.engine.activeMemtable], m' ∈ tables s := by
        intro m' hm'
        rcases List.mem_append.mp hm' with hm' | hm'
        · exact List.mem_append_left _ (hkept m' hm')
        · exact List.mem_append_right _ hm'
      refine ⟨fun m' hm' => hs.tidy m' (htables m' hm'), fun m' hm' => hs.ids m' (hkept m' hm'), hs.nextId,
        hs.pointer, fun m' hm' => hs.visible m' (htables m' hm'), ?_, ?_, hs.below, ?_, hs.locked⟩
      · intro w hw
        obtain ⟨hts, hlt⟩ := hs.coming w hw
        exact ⟨hts, fun m' hm' => hlt m' (htables m' hm')⟩
      · intro w hw
        obtain ⟨hheld, hle⟩ := hs.held w hw
        refine ⟨?_, fun m' hm' => hle m' (htables m' hm')⟩
        rcases hheld with hin | ⟨m', hm', hin⟩ | hin
        · exact .inl hin
        · refine .inr (.inl ⟨m', ?_, hin⟩)
          rw [hothers] at hm'
          rcases List.mem_cons.mp hm' with rfl | hm'
          · refine List.mem_append_right _ ?_
            split
            · next hzero =>
              rw [hempty hzero] at hin
              cases hin
            · exact List.mem_cons_self
          · exact List.mem_append_left _ hm'
        · exact .inr (.inr hin)
      · intro m' seq hwrote
        split at hwrote <;> cases hwrote
  · cases h

/-- The file that a flush writes holds the newest version of each key. -/
theorem Inv.write {s t : State} (hs : Inv s) (h : step s .write = some t) : Inv t := by
  simp only [step] at h
  split at h
  · next m hpopped =>
    cases h
    have hm : m ∈ tables s := by
      refine List.mem_append_left _ (List.mem_append_right _ ?_)
      rw [hpopped]
      exact List.mem_cons_self
    have hothers : s.engine.frozenMemtables ++ [m] = others s := by
      rw [others, hpopped]
      rfl
    have htables : s.engine.frozenMemtables ++ [m] ++ [s.engine.activeMemtable] = tables s := by
      rw [hothers]
      rfl
    obtain ⟨htidy, hclean⟩ := hs.tidy m hm
    refine ⟨?_, ?_, hs.nextId, hs.pointer, ?_, ?_, ?_, ?_, ?_, hs.locked⟩
    · show ∀ m' ∈ s.engine.frozenMemtables ++ [m] ++ [s.engine.activeMemtable], _
      rw [htables]
      exact hs.tidy
    · show ∀ m' ∈ s.engine.frozenMemtables ++ [m], m'.id < s.engine.activeMemtable.id
      rw [hothers]
      exact hs.ids
    · show ∀ m' ∈ s.engine.frozenMemtables ++ [m] ++ [s.engine.activeMemtable],
        ∀ x ∈ m'.entries, x.timestamp ≤ s.engine.globalTs
      rw [htables]
      exact hs.visible
    · show ∀ w, s.writer.coming = some w → w.timestamp ≤ s.engine.globalTs ∧
        ∀ m' ∈ s.engine.frozenMemtables ++ [m] ++ [s.engine.activeMemtable], _
      rw [htables]
      exact hs.coming
    · intro w hw
      obtain ⟨hheld, hle⟩ := hs.held w hw
      refine ⟨?_, by rw [← htables] at hle; exact hle⟩
      rcases hheld with hw | ⟨m', hm', hw⟩ | ⟨md, hmd, hw⟩
      · exact .inl hw
      · rw [← hothers] at hm'
        exact .inr (.inl ⟨m', hm', hw⟩)
      · refine .inr (.inr ⟨md, hmd, ?_⟩)
        rw [tableEntries_congr (flushWrite_files m (hs.below md hmd))]
        exact hw
    · exact fun md hmd => Nat.lt_succ_of_lt (hs.below md hmd)
    · intro m' seq hwrote
      cases hwrote
      refine ⟨Nat.lt_succ_self _, s.engine.flushFile m, if_pos rfl, ?_⟩
      exact fun x hx => (flushFile_newest s.engine htidy hclean x).mpr hx
  · cases h

theorem flushPublish_counters (e : Engine) (m : MemTable) (seq : ℕ) :
    (e.flushPublish m seq).nextTableId = e.nextTableId ∧ (e.flushPublish m seq).globalTs = e.globalTs := by
  unfold flushPublish
  split <;> exact ⟨rfl, rfl⟩

/-- The worker lets go of a memtable whose newest versions are in a table. -/
theorem Inv.publish {s t : State} (hs : Inv s) (h : step s .publish = some t) : Inv t := by
  simp only [step] at h
  split at h
  · next m seq hwrote =>
    cases h
    obtain ⟨hseq, f, hf, hnewest⟩ := hs.wrote m seq hwrote
    obtain ⟨hfiles, md, hpath, hcat⟩ := flushPublish_of_file m hf
    obtain ⟨hactive, hfrozen⟩ := flushPublish_memtables s.engine m seq
    obtain ⟨hnext, hts⟩ := flushPublish_counters s.engine m seq
    have hnum := flushPublish_sstableSeq s.engine m seq
    have hothers : others s = s.engine.frozenMemtables ++ [m] := by
      rw [others, hwrote]
      rfl
    have hkept : ∀ m' ∈ (s.engine.flushPublish m seq).frozenMemtables ++ [], m' ∈ others s := by
      rw [hfrozen, hothers, List.append_nil]
      exact fun m' hm' => List.mem_append_left _ hm'
    have htables : ∀ m' ∈ (s.engine.flushPublish m seq).frozenMemtables ++ [] ++
        [(s.engine.flushPublish m seq).activeMemtable], m' ∈ tables s := by
      intro m' hm'
      rcases List.mem_append.mp hm' with hm' | hm'
      · exact List.mem_append_left _ (hkept m' hm')
      · rw [hactive] at hm'
        exact List.mem_append_right _ hm'
    refine ⟨fun m' hm' => hs.tidy m' (htables m' hm'), ?_, ?_, ?_, ?_, ?_, ?_, ?_, fun _ _ hw => (by cases hw), ?_⟩
    · intro m' hm'
      show m'.id < (s.engine.flushPublish m seq).activeMemtable.id
      rw [hactive]
      exact hs.ids m' (hkept m' hm')
    · show (s.engine.flushPublish m seq).activeMemtable.id < (s.engine.flushPublish m seq).nextTableId
      rw [hactive, hnext]
      exact hs.nextId
    · intro id hid
      show id = (s.engine.flushPublish m seq).activeMemtable.id ∧
        (s.engine.flushPublish m seq).activeMemtable.frozen = false
      rw [hactive]
      exact hs.pointer id hid
    · intro m' hm' x hx
      show x.timestamp ≤ (s.engine.flushPublish m seq).globalTs
      rw [hts]
      exact hs.visible m' (htables m' hm') x hx
    · intro w hw
      obtain ⟨hle, hlt⟩ := hs.coming w hw
      refine ⟨?_, fun m' hm' => hlt m' (htables m' hm')⟩
      show w.timestamp ≤ (s.engine.flushPublish m seq).globalTs
      rw [hts]
      exact hle
    · intro w hw
      obtain ⟨hheld, hle⟩ := hs.held w hw
      refine ⟨?_, fun m' hm' => hle m' (htables m' hm')⟩
      show w ∈ (s.engine.flushPublish m seq).activeMemtable.entries ∨
        (∃ m' ∈ (s.engine.flushPublish m seq).frozenMemtables ++ [], w ∈ m'.entries) ∨
        ∃ md' ∈ (s.engine.flushPublish m seq).sstableMetadata, w ∈ (s.engine.flushPublish m seq).tableEntries md'
      have hsame : ∀ md', (s.engine.flushPublish m seq).tableEntries md' = s.engine.tableEntries md' :=
        fun md' => tableEntries_congr (congrFun hfiles _)
      rw [hactive, hfrozen, hcat, List.append_nil]
      rcases hheld with hin | ⟨m', hm', hin⟩ | ⟨md', hmd', hin⟩
      · exact .inl hin
      · rw [hothers] at hm'
        rcases List.mem_append.mp hm' with hm' | hm'
        · exact .inr (.inl ⟨m', hm', hin⟩)
        · rw [List.mem_singleton.mp hm'] at hin
          have hmtables : m ∈ tables s := by
            rw [tables, hothers]
            exact List.mem_append_left _ (List.mem_append_right _ List.mem_cons_self)
          refine .inr (.inr ⟨md, List.mem_append_right _ List.mem_cons_self, ?_⟩)
          rw [hsame, tableEntries, hpath, hf]
          exact hnewest w ⟨hin, fun y hy _ => hle m hmtables y hy⟩
      · exact .inr (.inr ⟨md', List.mem_append_left _ hmd', by rw [hsame]; exact hin⟩)
    · show ∀ md' ∈ (s.engine.flushPublish m seq).sstableMetadata,
        md'.filepath < (s.engine.flushPublish m seq).sstableSeq
      rw [hcat, hnum]
      intro md' hmd'
      rcases List.mem_append.mp hmd' with hmd' | hmd'
      · exact hs.below md' hmd'
      · rw [List.mem_singleton.mp hmd', hpath]
        exact hseq
    · intro hflusher
      show (s.engine.flushPublish m seq).activeMemtable.frozen = true
      rw [hactive]
      exact hs.locked hflusher
  · cases h

theorem Inv.step {s t : State} {a : Action} (hs : Inv s) (hok : Allowed s a) (h : WriteRace.step s a = some t) :
    Inv t := by
  cases a with
  | takeTimestamp key value isTombstone => exact hs.takeTimestamp h
  | bufferWrite => exact hs.bufferWrite h
  | loadActive => exact hs.loadActive hok h
  | checkFrozen => exact hs.checkFrozen h
  | treeInsert => exact hs.treeInsert hok h
  | freezeIfFull => exact hs.freezeIfFull h
  | finish => exact hs.finish h
  | flushFreeze => exact hs.flushFreeze hok h
  | flushReplace => exact hs.flushReplace h
  | flushReturn => exact hs.flushReturn h
  | pop => exact hs.pop h
  | write => exact hs.write h
  | publish => exact hs.publish h

theorem init_inv (cfg : EngineConfig) : Inv (init cfg) := by
  have htables : ∀ m ∈ tables (init cfg), m = MemTable.new 0 cfg.memtableMaxBytes :=
    fun m hm => List.mem_singleton.mp hm
  refine ⟨?_, fun m hm => (by cases hm), Nat.zero_lt_one, fun id hid => (by cases hid), ?_, fun w hw => (by cases hw),
    fun w hw => (by cases hw), fun md hmd => (by cases hmd), fun _ _ hw => (by cases hw), fun hf => (by cases hf)⟩
  · intro m hm
    rw [htables m hm]
    exact ⟨tidy_new _ _, MemTable.clean_new _ _⟩
  · intro m hm x hx
    rw [htables m hm] at hx
    cases hx

/-- A `Flush` freezes and replaces the memtable before the writer reads `active_memtable_`. -/
def orderedRun : List Action :=
  [.takeTimestamp [1] [2] false, .bufferWrite, .loadActive, .checkFrozen, .treeInsert, .freezeIfFull, .finish,
    .takeTimestamp [1] [3] false, .bufferWrite, .flushFreeze, .flushReplace, .loadActive, .pop, .checkFrozen, .write,
    .treeInsert, .publish, .flushReturn, .freezeIfFull, .finish]

/-- The memtable is frozen after the writer has read `active_memtable_` and before it inserts. -/
def losingRun : List Action :=
  [.takeTimestamp [1] [2] false, .bufferWrite, .loadActive, .checkFrozen, .treeInsert, .freezeIfFull, .finish,
    .takeTimestamp [3] [4] false, .bufferWrite, .loadActive, .flushFreeze, .checkFrozen, .flushReplace,
    .freezeIfFull, .finish, .pop, .write, .publish, .flushReturn]

theorem losingRun_enabled : (checked step anyStep (init smallConfig) losingRun).isSome = true := by
  decide

def lostState : State := (checked step anyStep (init smallConfig) losingRun).get losingRun_enabled

theorem lostState_facts : lostState.engine.activeMemtable.entries = [] ∧ (others lostState).isEmpty = true ∧
    lostState.engine.sstableMetadata.flatMap lostState.engine.tableEntries = [⟨[1], [2], 1, false⟩] ∧
    lostState.last = some ⟨[3], [4], 2, false⟩ ∧ lostState.flusher = .idle := by
  decide

end Kvdb.WriteRace
