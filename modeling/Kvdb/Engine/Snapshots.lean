import Kvdb.Engine.Steps
import Kvdb.SSTable.Contents
import Kvdb.Lib.Runs

/-! # Reader snapshots during the hand-off of a memtable

One reader, one writer and the flush worker, step by step. The worker takes a memtable out of
`frozen_memtables_` before its SSTable is in the catalogue; in between the memtable is in neither. A
`Lookup` snapshots the memtables and then the catalogue, a `RangeScan` the other way round. The state
remembers the memtables that the worker has taken, in order, and how many of them it has published,
so that a snapshot can be compared with the hand-off. -/
namespace Kvdb.Snapshots
set_option autoImplicit false

open Kvdb.Runs Kvdb.Engine

/-- Where the writer stands in `Insert` or `Delete`. -/
inductive WriterStage where
  | idle
  | taken (w : KeyValuePair)
  | inserted (w : KeyValuePair)
  | returning (w : KeyValuePair)

/-- Where the flush worker stands in its round. -/
inductive FlushStage where
  | idle
  | popped (m : MemTable)
  | wrote (m : MemTable) (seq : ℕ)

inductive ReaderKind where
  | lookup
  | scan
  deriving DecidableEq

/-- A reader: the versions whose write had returned when it began, its snapshot of the memtables with
the number of memtables popped by then, and its snapshot of the catalogue with the number published
by then. -/
structure Reader where
  kind : ReaderKind
  readTs : ℕ
  required : List KeyValuePair
  mems : Option (List MemTable × ℕ)
  tables : Option (List Metadata × ℕ)

structure State where
  engine : Engine
  writer : WriterStage
  flush : FlushStage
  popped : List MemTable
  published : ℕ
  returned : List KeyValuePair
  reader : Option Reader

inductive Action where
  | takeTimestamp (key value : Bytes) (isTombstone : Bool)
  | memInsert
  | freezeIfFull
  | finish
  | rotate
  | pop
  | write
  | publish
  | begin (kind : ReaderKind)
  | snapMemtables
  | snapCatalogue

def init (cfg : EngineConfig) : State := ⟨Engine.create cfg, .idle, .idle, [], 0, [], none⟩

/-- The reader may take this snapshot next. -/
def Reader.mayMems (r : Reader) : Bool := r.mems.isNone && (r.kind == .lookup || r.tables.isSome)

def Reader.mayTables (r : Reader) : Bool := r.tables.isNone && (r.kind == .scan || r.mems.isSome)

def Reader.takeMems (r : Reader) (s : State) : Reader :=
  { r with mems := some (s.engine.activeMemtable :: s.engine.frozenMemtables, s.popped.length) }

def Reader.takeTables (r : Reader) (s : State) : Reader :=
  { r with tables := some (s.engine.sstableMetadata, s.published) }

def step (s : State) : Action → Option State
  | .takeTimestamp key value isTombstone =>
    match s.writer, s.engine.takeTimestamp with
    | .idle, some (ts, e) =>
      some { s with
        engine := e.bufferWrite key value ts
        writer := .taken ⟨key, value, ts, isTombstone⟩ }
    | _, _ => none
  | .memInsert =>
    match s.writer with
    | .taken w => some { s with
        engine := s.engine.memInsert w.key w.value w.timestamp w.isTombstone
        writer := .inserted w }
    | _ => none
  | .freezeIfFull =>
    match s.writer with
    | .inserted w => some { s with engine := s.engine.freezeIfFull, writer := .returning w }
    | _ => none
  | .finish =>
    match s.writer with
    | .returning w => some { s with writer := .idle, returned := s.returned ++ [w] }
    | _ => none
  | .rotate => if s.engine.activeMemtable.entryCount = 0 then none else
      some { s with engine := s.engine.rotate }
  | .pop =>
    match s.flush, s.engine.frozenMemtables with
    | .idle, m :: rest =>
      if m.entryCount = 0 then
        some { s with
          engine := { s.engine with frozenMemtables := rest }
          popped := s.popped ++ [m]
          published := s.published + 1 }
      else
        some { s with
          engine := { s.engine with frozenMemtables := rest }
          flush := .popped m
          popped := s.popped ++ [m] }
    | _, _ => none
  | .write =>
    match s.flush with
    | .popped m => some { s with
        engine := (s.engine.reserveSeq 1).flushWrite m s.engine.sstableSeq
        flush := .wrote m s.engine.sstableSeq }
    | _ => none
  | .publish =>
    match s.flush with
    | .wrote m seq => some { s with
        engine := (s.engine.flushPublish m seq).writeCheckpoint
        flush := .idle
        published := s.published + 1 }
    | _ => none
  | .begin kind => some { s with reader := some ⟨kind, s.engine.globalTs, s.returned, none, none⟩ }
  | .snapMemtables =>
    match s.reader with
    | some r => if r.mayMems then some { s with reader := some (r.takeMems s) } else none
    | none => none
  | .snapCatalogue =>
    match s.reader with
    | some r => if r.mayTables then some { s with reader := some (r.takeTables s) } else none
    | none => none

/-! ## The property and its condition -/

/-- Once the reader has both snapshots, every version it requires is in one of them. -/
def Reader.Covered (e : Engine) (r : Reader) : Prop :=
  match r.mems, r.tables with
  | some (ms, _), some (mds, _) =>
    ∀ w ∈ r.required, (∃ m ∈ ms, w ∈ m.entries) ∨ ∃ md ∈ mds, w ∈ tableEntries e md
  | _, _ => True

def Covered (s : State) : Prop := ∀ r ∈ s.reader, r.Covered s.engine

/-- The memtables that were popped before the snapshot of the memtables and not yet published at the
snapshot of the catalogue. -/
def inTransit (popped : List MemTable) (poppedAtMems publishedAtTables : ℕ) : List MemTable :=
  (popped.take poppedAtMems).drop publishedAtTables

/-- With this reader no memtable in transit holds a required version. -/
def NoneInTransit (popped : List MemTable) (r : Reader) : Prop :=
  match r.mems, r.tables with
  | some (_, n), some (_, k) => ∀ m ∈ inTransit popped n k, ∀ w ∈ r.required, w ∉ m.entries
  | _, _ => True

/-- The condition on a step: a version that is inserted finds room in a page, the flush drops no
version of the memtable it writes, and no memtable is in transit between the two snapshots of the
reader with a version that the reader requires. -/
def Allowed (s : State) : Action → Prop
  | .memInsert => match s.writer with
    | .taken w => s.engine.activeMemtable.tree.Kept w
    | _ => True
  | .write => match s.flush with
    | .popped m => ∀ x ∈ m.entries, x ∈ SSTableFile.flushEntries m.tree.memTableWalk
    | _ => True
  | .snapMemtables => match s.reader with
    | some r => NoneInTransit s.popped (r.takeMems s)
    | none => True
  | .snapCatalogue => match s.reader with
    | some r => NoneInTransit s.popped (r.takeTables s)
    | none => True
  | _ => True

instance decidableReaderCovered (e : Engine) (r : Reader) : Decidable (r.Covered e) := by
  unfold Reader.Covered
  split <;> infer_instance

instance decidableNoneInTransit (popped : List MemTable) (r : Reader) :
    Decidable (NoneInTransit popped r) := by
  unfold NoneInTransit
  split <;> infer_instance

instance decidableAllowed (s : State) (a : Action) : Decidable (Allowed s a) := by
  cases a with
  | memInsert => cases h : s.writer <;> (simp only [Allowed, h]; infer_instance)
  | write => cases h : s.flush <;> (simp only [Allowed, h]; infer_instance)
  | snapMemtables => cases h : s.reader <;> (simp only [Allowed, h]; infer_instance)
  | snapCatalogue => cases h : s.reader <;> (simp only [Allowed, h]; infer_instance)
  | _ => exact isTrue trivial

/-! ## The invariant -/

/-- The version is in a memtable that the engine still has or that the worker has taken. -/
def InMemory (s : State) (w : KeyValuePair) : Prop :=
  w ∈ s.engine.activeMemtable.entries ∨ (∃ m ∈ s.engine.frozenMemtables, w ∈ m.entries) ∨
    ∃ m ∈ s.popped, w ∈ m.entries

/-- What the stage of the flush worker says about the memtable it holds. -/
def HandOff (s : State) : Prop :=
  match s.flush with
  | .idle => s.popped.length = s.published
  | .popped m => ∃ front, s.popped = front ++ [m] ∧ front.length = s.published
  | .wrote m seq => (∃ front, s.popped = front ++ [m] ∧ front.length = s.published) ∧
      seq < s.engine.sstableSeq ∧ ∃ f, s.engine.files seq = some f ∧ ∀ x ∈ m.entries, x ∈ f.entries

/-- The writer's version, once it is in the memtable. -/
def WriterStage.pending : WriterStage → List KeyValuePair
  | .inserted w => [w]
  | .returning w => [w]
  | _ => []

structure ReaderOk (s : State) (r : Reader) : Prop where
  required : ∀ w ∈ r.required, w ∈ s.returned
  mems : ∀ ms n, r.mems = some (ms, n) → n ≤ s.popped.length ∧
    ∀ w ∈ r.required, (∃ m ∈ ms, w ∈ m.entries) ∨ ∃ m ∈ s.popped.take n, w ∈ m.entries
  tables : ∀ mds k, r.tables = some (mds, k) → k ≤ s.popped.length ∧
    (∀ md ∈ mds, md.filepath < s.engine.sstableSeq) ∧
    ∀ m ∈ s.popped.take k, ∀ w ∈ m.entries, ∃ md ∈ mds, w ∈ tableEntries s.engine md
  transit : NoneInTransit s.popped r

structure Inv (s : State) : Prop where
  unfrozen : s.engine.activeMemtable.frozen = false
  activeCount : s.engine.activeMemtable.Counted
  frozenCount : ∀ m ∈ s.engine.frozenMemtables, m.Counted
  inMemory : ∀ w ∈ s.returned ++ s.writer.pending, InMemory s w
  handOff : HandOff s
  below : ∀ md ∈ s.engine.sstableMetadata, md.filepath < s.engine.sstableSeq
  published : ∀ m ∈ s.popped.take s.published, ∀ w ∈ m.entries,
    ∃ md ∈ s.engine.sstableMetadata, w ∈ tableEntries s.engine md
  reader : ∀ r, s.reader = some r → ReaderOk s r

theorem ReaderOk.covered {s : State} {r : Reader} (h : ReaderOk s r) : r.Covered s.engine := by
  unfold Reader.Covered
  split
  · next ms n mds k hm ht =>
    intro w hw
    rcases (h.mems ms n hm).2 w hw with hin | ⟨m, hpop, hwm⟩
    · exact .inl hin
    · rw [← List.take_append_drop k (s.popped.take n), List.mem_append] at hpop
      rcases hpop with hpop | hpop
      · refine .inr ((h.tables mds k ht).2.2 m ?_ w hwm)
        rw [List.take_take] at hpop
        exact List.take_subset_take_left _ (Nat.min_le_left k n) hpop
      · have htransit := h.transit
        simp only [NoneInTransit, hm, ht] at htransit
        exact absurd hwm (htransit m hpop w hw)
  · trivial

theorem Inv.covered {s : State} (h : Inv s) : Covered s := by
  intro r hr
  exact (h.reader r hr).covered

/-! ## Frames -/

theorem take_append_left {α : Type} {xs ys : List α} {n : ℕ} (h : n ≤ xs.length) :
    (xs ++ ys).take n = xs.take n := List.take_append_of_le_length h

/-- What a step that leaves the reader alone may do. -/
theorem ReaderOk.frame {s t : State} {r : Reader} (h : ReaderOk s r)
    (hpop : ∃ ms, t.popped = s.popped ++ ms) (hret : ∀ w ∈ s.returned, w ∈ t.returned)
    (hfiles : ∀ n < s.engine.sstableSeq, t.engine.files n = s.engine.files n)
    (hseq : s.engine.sstableSeq ≤ t.engine.sstableSeq) : ReaderOk t r := by
  obtain ⟨more, hmore⟩ := hpop
  have hlen : s.popped.length ≤ t.popped.length := by
    rw [hmore, List.length_append]
    omega
  have htake : ∀ n, n ≤ s.popped.length → t.popped.take n = s.popped.take n := by
    intro n hn
    rw [hmore, take_append_left hn]
  refine ⟨fun w hw => hret w (h.required w hw), ?_, ?_, ?_⟩
  · intro ms n hm
    obtain ⟨hn, hcov⟩ := h.mems ms n hm
    rw [htake n hn]
    exact ⟨Nat.le_trans hn hlen, hcov⟩
  · intro mds k ht
    obtain ⟨hk, hbelow, hcov⟩ := h.tables mds k ht
    rw [htake k hk]
    refine ⟨Nat.le_trans hk hlen, fun md hmd => Nat.lt_of_lt_of_le (hbelow md hmd) hseq, ?_⟩
    intro m hm w hw
    obtain ⟨md, hmd, hwmd⟩ := hcov m hm w hw
    refine ⟨md, hmd, ?_⟩
    rw [tableEntries_congr (hfiles _ (hbelow md hmd))]
    exact hwmd
  · have htransit := h.transit
    unfold NoneInTransit at htransit ⊢
    split
    · next ms n mds k hm ht =>
      simp only [hm, ht] at htransit
      unfold inTransit at htransit ⊢
      rw [htake n (h.mems ms n hm).1]
      exact htransit
    · trivial

theorem HandOff.frame {s t : State} (h : HandOff s) (hflush : t.flush = s.flush) (hpop : t.popped = s.popped)
    (hpub : t.published = s.published) (hfiles : t.engine.files = s.engine.files)
    (hseq : t.engine.sstableSeq = s.engine.sstableSeq) : HandOff t := by
  unfold HandOff at h ⊢
  rw [hflush, hpop, hpub, hfiles, hseq]
  exact h

/-- What the steps of the writer leave alone. -/
structure SameTables (s t : State) : Prop where
  flush : t.flush = s.flush
  popped : t.popped = s.popped
  published : t.published = s.published
  reader : t.reader = s.reader
  files : t.engine.files = s.engine.files
  sstableSeq : t.engine.sstableSeq = s.engine.sstableSeq
  catalogue : t.engine.sstableMetadata = s.engine.sstableMetadata

theorem Inv.writerStep {s t : State} (hs : Inv s) (h : SameTables s t)
    (hret : ∀ w ∈ s.returned, w ∈ t.returned) (hunfrozen : t.engine.activeMemtable.frozen = false)
    (hactive : t.engine.activeMemtable.Counted) (hfrozen : ∀ m ∈ t.engine.frozenMemtables, m.Counted)
    (hmem : ∀ w ∈ t.returned ++ t.writer.pending, InMemory t w) : Inv t := by
  refine ⟨hunfrozen, hactive, hfrozen, hmem,
    hs.handOff.frame h.flush h.popped h.published h.files h.sstableSeq, ?_, ?_, ?_⟩
  · rw [h.catalogue, h.sstableSeq]
    exact hs.below
  · rw [h.popped, h.published, h.catalogue]
    intro m hm w hw
    obtain ⟨md, hmd, hwmd⟩ := hs.published m hm w hw
    refine ⟨md, hmd, ?_⟩
    rw [tableEntries_congr (congrFun h.files _)]
    exact hwmd
  · intro r hr
    rw [h.reader] at hr
    refine (hs.reader r hr).frame ⟨[], by simp [h.popped]⟩ hret (fun n _ => congrFun h.files n) ?_
    exact Nat.le_of_eq h.sstableSeq.symm

/-! ## The steps of the writer -/

theorem rotate_inMemory {s t : State} {w : KeyValuePair} (h : InMemory s w)
    (hengine : t.engine = s.engine.rotate) (hpop : t.popped = s.popped) : InMemory t w := by
  unfold InMemory
  rw [hengine, hpop]
  rcases h with h | ⟨m, hm, hw⟩ | h
  · exact .inr (.inl ⟨_, List.mem_append_right _ List.mem_cons_self, h⟩)
  · exact .inr (.inl ⟨m, List.mem_append_left _ hm, hw⟩)
  · exact .inr (.inr h)

theorem rotate_counted {e : Engine} (hactive : e.activeMemtable.Counted)
    (hfrozen : ∀ m ∈ e.frozenMemtables, m.Counted) : ∀ m ∈ e.rotate.frozenMemtables, m.Counted := by
  intro m hm
  rcases List.mem_append.mp hm with hm | hm
  · exact hfrozen m hm
  · rw [List.mem_singleton] at hm
    subst hm
    exact hactive

/-- A rotation of the memtables, by `Flush` or by a full table. -/
theorem Inv.rotate {s t : State} (hs : Inv s) (h : SameTables s t) (hret : t.returned = s.returned)
    (hengine : t.engine = s.engine.rotate) (hpending : t.writer.pending = s.writer.pending) : Inv t := by
  refine hs.writerStep h (fun w hw => hret ▸ hw) ?_ ?_ ?_ ?_
  · rw [hengine]
    rfl
  · rw [hengine]
    exact MemTable.counted_new _ _
  · rw [hengine]
    exact rotate_counted hs.activeCount hs.frozenCount
  · intro w hw
    rw [hret, hpending] at hw
    exact rotate_inMemory (hs.inMemory w hw) hengine h.popped

theorem Inv.takeTimestamp {s t : State} {key value : Bytes} {isTombstone : Bool} (hs : Inv s)
    (h : step s (.takeTimestamp key value isTombstone) = some t) : Inv t := by
  simp only [step] at h
  split at h
  · next ts e hidle htake =>
    obtain ⟨-, hr⟩ := takeTimestamp_eq_some htake
    cases hr
    cases h
    refine hs.writerStep ⟨rfl, rfl, rfl, rfl, rfl, rfl, rfl⟩ (fun _ hw => hw) hs.unfrozen hs.activeCount
      hs.frozenCount ?_
    intro w hw
    have hpending : s.writer.pending = [] := by rw [hidle]; rfl
    exact hs.inMemory w (by rw [hpending]; exact hw)
  · cases h

theorem Inv.memInsert {s t : State} (hs : Inv s) (hok : Allowed s .memInsert)
    (h : step s .memInsert = some t) : Inv t := by
  simp only [step] at h
  split at h
  · next w htaken =>
    cases h
    simp only [Allowed, htaken] at hok
    have hperm := MemTable.insert_perm hs.unfrozen hok
    refine hs.writerStep ⟨rfl, rfl, rfl, rfl, rfl, rfl, rfl⟩ (fun _ hw => hw) ?_
      (hs.activeCount.insert _ _ _ _) hs.frozenCount ?_
    · exact (MemTable.insert_frozen _ _ _ _ _).trans hs.unfrozen
    · intro x hx
      rcases List.mem_append.mp hx with hx | hx
      · rcases hs.inMemory x (List.mem_append_left _ hx) with hin | hin
        · exact .inl (hperm.symm.subset (List.mem_cons_of_mem _ hin))
        · exact .inr hin
      · have hxw : x = w := List.mem_singleton.mp hx
        subst hxw
        exact .inl (hperm.symm.subset List.mem_cons_self)
  · cases h

theorem Inv.freezeIfFull {s t : State} (hs : Inv s) (h : step s .freezeIfFull = some t) : Inv t := by
  simp only [step] at h
  split at h
  · next w hinserted =>
    cases h
    have hpending : s.writer.pending = [w] := by rw [hinserted]; rfl
    by_cases hfull : s.engine.activeMemtable.isFull = true
    · rw [Engine.freezeIfFull, if_pos hfull]
      exact hs.rotate ⟨rfl, rfl, rfl, rfl, rfl, rfl, rfl⟩ rfl rfl hpending.symm
    · rw [Engine.freezeIfFull, if_neg hfull]
      refine hs.writerStep ⟨rfl, rfl, rfl, rfl, rfl, rfl, rfl⟩ (fun _ hw => hw) hs.unfrozen hs.activeCount
        hs.frozenCount ?_
      intro x hx
      exact hs.inMemory x (by rw [hpending]; exact hx)
  · cases h

theorem Inv.finish {s t : State} (hs : Inv s) (h : step s .finish = some t) : Inv t := by
  simp only [step] at h
  split at h
  · next w hreturning =>
    cases h
    refine hs.writerStep ⟨rfl, rfl, rfl, rfl, rfl, rfl, rfl⟩ (fun _ hw => List.mem_append_left _ hw)
      hs.unfrozen hs.activeCount hs.frozenCount ?_
    intro x hx
    have hpending : s.writer.pending = [w] := by rw [hreturning]; rfl
    exact hs.inMemory x (by rw [hpending]; simpa [WriterStage.pending] using hx)
  · cases h

theorem Inv.rotateStep {s t : State} (hs : Inv s) (h : step s .rotate = some t) : Inv t := by
  simp only [step] at h
  split at h
  · cases h
  · cases h
    exact hs.rotate ⟨rfl, rfl, rfl, rfl, rfl, rfl, rfl⟩ rfl rfl rfl

/-! ## The steps of the flush worker -/

theorem Inv.published_all {s : State} (hs : Inv s) (hlen : s.popped.length = s.published) :
    ∀ m ∈ s.popped, ∀ w ∈ m.entries,
      ∃ md ∈ s.engine.sstableMetadata, w ∈ tableEntries s.engine md := by
  intro m hm
  refine hs.published m ?_
  rw [← hlen, List.take_length]
  exact hm

/-- The memtable at the front moves from `frozen_memtables_` to the worker. -/
theorem pop_inMemory {s t : State} {m : MemTable} {rest : List MemTable} {w : KeyValuePair}
    (hfrozen : s.engine.frozenMemtables = m :: rest) (h : InMemory s w)
    (hengine : t.engine = { s.engine with frozenMemtables := rest }) (hpop : t.popped = s.popped ++ [m]) :
    InMemory t w := by
  unfold InMemory
  rw [hengine, hpop]
  rcases h with h | ⟨m', hm', hw⟩ | ⟨m', hm', hw⟩
  · exact .inl h
  · rw [hfrozen] at hm'
    rcases List.mem_cons.mp hm' with rfl | hm'
    · exact .inr (.inr ⟨m', List.mem_append_right _ List.mem_cons_self, hw⟩)
    · exact .inr (.inl ⟨m', hm', hw⟩)
  · exact .inr (.inr ⟨m', List.mem_append_left _ hm', hw⟩)

theorem Inv.pop {s t : State} (hs : Inv s) (h : step s .pop = some t) : Inv t := by
  simp only [step] at h
  split at h
  · next m rest hidle hfrozen =>
    have hlen : s.popped.length = s.published := by
      have hhand := hs.handOff
      rw [HandOff, hidle] at hhand
      exact hhand
    have hcounted : m.Counted := hs.frozenCount m (by rw [hfrozen]; exact List.mem_cons_self)
    have hrest : ∀ m' ∈ rest, m'.Counted := by
      intro m' hm'
      exact hs.frozenCount m' (by rw [hfrozen]; exact List.mem_cons_of_mem m hm')
    split at h
    · next hzero =>
      cases h
      refine ⟨hs.unfrozen, hs.activeCount, hrest, ?_, ?_, hs.below, ?_, ?_⟩
      · intro w hw
        exact pop_inMemory hfrozen (hs.inMemory w hw) rfl rfl
      · show HandOff _
        simp only [HandOff, hidle, List.length_append, List.length_singleton, hlen]
      · intro m' hm' w hw
        rcases List.mem_append.mp (List.mem_of_mem_take hm') with hm' | hm'
        · exact hs.published_all hlen m' hm' w hw
        · rw [List.mem_singleton] at hm'
          subst hm'
          rw [hcounted hzero] at hw
          cases hw
      · intro r hr
        exact (hs.reader r hr).frame ⟨[m], rfl⟩ (fun _ hw => hw) (fun _ _ => rfl) (Nat.le_refl _)
    · cases h
      refine ⟨hs.unfrozen, hs.activeCount, hrest, ?_, ⟨s.popped, rfl, hlen⟩, hs.below, ?_, ?_⟩
      · intro w hw
        exact pop_inMemory hfrozen (hs.inMemory w hw) rfl rfl
      · intro m' hm' w hw
        have hm'' : m' ∈ (s.popped ++ [m]).take s.published := hm'
        rw [← hlen, List.take_left' rfl] at hm''
        exact hs.published_all hlen m' hm'' w hw
      · intro r hr
        exact (hs.reader r hr).frame ⟨[m], rfl⟩ (fun _ hw => hw) (fun _ _ => rfl) (Nat.le_refl _)
  · cases h

/-- The file of a flush has a number above every catalogued table. -/
theorem flushWrite_files {e : Engine} (m : MemTable) {n : ℕ} (hn : n < e.sstableSeq) :
    ((e.reserveSeq 1).flushWrite m e.sstableSeq).files n = e.files n :=
  if_neg (Nat.ne_of_lt hn)

theorem Inv.write {s t : State} (hs : Inv s) (hok : Allowed s .write) (h : step s .write = some t) :
    Inv t := by
  simp only [step] at h
  split at h
  · next m hpopped =>
    cases h
    simp only [Allowed, hpopped] at hok
    have hhand := hs.handOff
    simp only [HandOff, hpopped] at hhand
    refine ⟨hs.unfrozen, hs.activeCount, hs.frozenCount, hs.inMemory,
      ⟨hhand, Nat.lt_succ_self _, s.engine.flushFile m, if_pos rfl, ?_⟩, ?_, ?_, ?_⟩
    · intro x hx
      rw [Engine.flushFile, SSTableFile.entries_writeFromWalk]
      exact hok x hx
    · intro md hmd
      exact Nat.lt_succ_of_lt (hs.below md hmd)
    · intro m' hm' w hw
      obtain ⟨md, hmd, hwmd⟩ := hs.published m' hm' w hw
      refine ⟨md, hmd, ?_⟩
      rw [tableEntries_congr (flushWrite_files m (hs.below md hmd))]
      exact hwmd
    · intro r hr
      exact (hs.reader r hr).frame ⟨[], by simp⟩ (fun _ hw => hw) (fun n hn => flushWrite_files m hn)
        (Nat.le_succ _)
  · cases h

/-- Publishing a written file appends its record and changes no file. -/
theorem flushPublish_of_file {e : Engine} (m : MemTable) {seq : ℕ} {f : SSTableFile}
    (h : e.files seq = some f) :
    (e.flushPublish m seq).files = e.files ∧
      ∃ md : Metadata, md.filepath = seq ∧
        (e.flushPublish m seq).sstableMetadata = e.sstableMetadata ++ [md] := by
  obtain ⟨⟨md, cache⟩, hread⟩ := readMetadata_isSome f seq e.sstCache seq
  rw [Engine.flushPublish, h, hread]
  exact ⟨rfl, _, rfl, rfl⟩

theorem Inv.publish {s t : State} (hs : Inv s) (h : step s .publish = some t) : Inv t := by
  simp only [step] at h
  split at h
  · next m seq hwrote =>
    cases h
    have hhand := hs.handOff
    simp only [HandOff, hwrote] at hhand
    obtain ⟨⟨front, hpop, hlen⟩, hseq, f, hf, hentries⟩ := hhand
    obtain ⟨hfiles, md, hpath, hcat⟩ := flushPublish_of_file m hf
    have hmem := flushPublish_memtables s.engine m seq
    have hnum := flushPublish_sstableSeq s.engine m seq
    have hall : s.popped.length = s.published + 1 := by
      rw [hpop, List.length_append, hlen, List.length_singleton]
    refine ⟨?_, ?_, ?_, ?_, ?_, ?_, ?_, ?_⟩
    · show (s.engine.flushPublish m seq).activeMemtable.frozen = false
      rw [hmem.1]
      exact hs.unfrozen
    · show (s.engine.flushPublish m seq).activeMemtable.Counted
      rw [hmem.1]
      exact hs.activeCount
    · show ∀ m' ∈ (s.engine.flushPublish m seq).frozenMemtables, m'.Counted
      rw [hmem.2]
      exact hs.frozenCount
    · intro w hw
      have hin := hs.inMemory w hw
      unfold InMemory at hin ⊢
      show w ∈ (s.engine.flushPublish m seq).activeMemtable.entries ∨
        (∃ m' ∈ (s.engine.flushPublish m seq).frozenMemtables, w ∈ m'.entries) ∨ _
      rw [hmem.1, hmem.2]
      exact hin
    · exact hall
    · show ∀ md' ∈ (s.engine.flushPublish m seq).sstableMetadata,
        md'.filepath < (s.engine.flushPublish m seq).sstableSeq
      rw [hcat, hnum]
      intro md' hmd'
      rcases List.mem_append.mp hmd' with hmd' | hmd'
      · exact hs.below md' hmd'
      · rw [List.mem_singleton] at hmd'
        subst hmd'
        rw [hpath]
        exact hseq
    · intro m' hm' w hw
      show ∃ md' ∈ (s.engine.flushPublish m seq).sstableMetadata,
        w ∈ tableEntries (s.engine.flushPublish m seq) md'
      have hsame : ∀ md', tableEntries (s.engine.flushPublish m seq) md' = tableEntries s.engine md' :=
        fun md' => tableEntries_congr (congrFun hfiles _)
      have hm'' := List.mem_of_mem_take hm'
      rw [hcat]
      rcases List.mem_append.mp (hpop ▸ hm'' : m' ∈ front ++ [m]) with hfront | hlast
      · have htake : m' ∈ s.popped.take s.published := by
          rw [hpop, ← hlen, List.take_left' rfl]
          exact hfront
        obtain ⟨md', hmd', hwmd⟩ := hs.published m' htake w hw
        exact ⟨md', List.mem_append_left _ hmd', by rw [hsame]; exact hwmd⟩
      · rw [List.mem_singleton] at hlast
        subst hlast
        refine ⟨md, List.mem_append_right _ List.mem_cons_self, ?_⟩
        rw [hsame, tableEntries, hpath, hf]
        exact hentries w hw
    · intro r hr
      exact (hs.reader r hr).frame ⟨[], by simp⟩ (fun _ hw => hw) (fun n _ => congrFun hfiles n)
        (Nat.le_of_eq hnum.symm)
  · cases h

/-! ## The steps of the reader -/

theorem Inv.begin {s t : State} {kind : ReaderKind} (hs : Inv s) (h : step s (.begin kind) = some t) :
    Inv t := by
  simp only [step] at h
  cases h
  refine ⟨hs.unfrozen, hs.activeCount, hs.frozenCount, hs.inMemory, hs.handOff, hs.below, hs.published, ?_⟩
  intro r hr
  cases hr
  refine ⟨fun _ hw => hw, ?_, ?_, trivial⟩
  · intro ms n hm
    cases hm
  · intro mds k ht
    cases ht

theorem Inv.snapMemtables {s t : State} (hs : Inv s) (hok : Allowed s .snapMemtables)
    (h : step s .snapMemtables = some t) : Inv t := by
  simp only [step] at h
  split at h
  · next r hreader =>
    split at h
    · cases h
      simp only [Allowed, hreader] at hok
      have hr := hs.reader r hreader
      refine ⟨hs.unfrozen, hs.activeCount, hs.frozenCount, hs.inMemory, hs.handOff, hs.below,
        hs.published, ?_⟩
      intro r' hr'
      cases hr'
      refine ⟨hr.required, ?_, hr.tables, hok⟩
      intro ms n hm
      cases hm
      refine ⟨Nat.le_refl _, ?_⟩
      intro w hw
      rw [List.take_length]
      rcases hs.inMemory w (List.mem_append_left _ (hr.required w hw)) with hin | ⟨m, hm, hin⟩ | hin
      · exact .inl ⟨_, List.mem_cons_self, hin⟩
      · exact .inl ⟨m, List.mem_cons_of_mem _ hm, hin⟩
      · exact .inr hin
    · cases h
  · cases h

theorem HandOff.published_le {s : State} (h : HandOff s) : s.published ≤ s.popped.length := by
  unfold HandOff at h
  split at h
  · omega
  · obtain ⟨front, hpop, hlen⟩ := h
    rw [hpop, List.length_append]
    omega
  · obtain ⟨⟨front, hpop, hlen⟩, -⟩ := h
    rw [hpop, List.length_append]
    omega

theorem Inv.snapCatalogue {s t : State} (hs : Inv s) (hok : Allowed s .snapCatalogue)
    (h : step s .snapCatalogue = some t) : Inv t := by
  simp only [step] at h
  split at h
  · next r hreader =>
    split at h
    · cases h
      simp only [Allowed, hreader] at hok
      have hr := hs.reader r hreader
      refine ⟨hs.unfrozen, hs.activeCount, hs.frozenCount, hs.inMemory, hs.handOff, hs.below,
        hs.published, ?_⟩
      intro r' hr'
      cases hr'
      refine ⟨hr.required, hr.mems, ?_, hok⟩
      intro mds k ht
      cases ht
      exact ⟨hs.handOff.published_le, hs.below, hs.published⟩
    · cases h
  · cases h

/-! ## Runs -/

theorem inv_init (cfg : EngineConfig) : Inv (init cfg) where
  unfrozen := rfl
  activeCount := MemTable.counted_new _ _
  frozenCount _ hm := by cases hm
  inMemory _ hw := by cases hw
  handOff := rfl
  below _ hmd := by cases hmd
  published _ hm := by cases hm
  reader _ hr := by cases hr

theorem Inv.step {s t : State} {a : Action} (hok : Allowed s a) (h : step s a = some t) (hs : Inv s) :
    Inv t := by
  cases a with
  | takeTimestamp key value isTombstone => exact hs.takeTimestamp h
  | memInsert => exact hs.memInsert hok h
  | freezeIfFull => exact hs.freezeIfFull h
  | finish => exact hs.finish h
  | rotate => exact hs.rotateStep h
  | pop => exact hs.pop h
  | write => exact hs.write hok h
  | publish => exact hs.publish h
  | begin kind => exact hs.begin h
  | snapMemtables => exact hs.snapMemtables hok h
  | snapCatalogue => exact hs.snapCatalogue hok h

/-- `Insert` of one version, from the timestamp to the return. -/
def insertSteps (key value : Bytes) : List Action :=
  [.takeTimestamp key value false, .memInsert, .freezeIfFull, .finish]

/-- The whole hand-off of one memtable lies between the two snapshots of a `Lookup`; a second version
stays in the active table. -/
def handOffRun : List Action :=
  insertSteps [1] [2] ++ ([.rotate] : List Action) ++ insertSteps [3] [4] ++
    ([.begin .lookup, .snapMemtables, .pop, .write, .publish, .snapCatalogue] : List Action)

/-- The worker has taken the memtable and not yet published its table when the `Lookup` takes both
snapshots. -/
def lostRun : List Action :=
  insertSteps [1] [2] ++ ([.rotate, .pop, .begin .lookup, .snapMemtables, .snapCatalogue] : List Action)

theorem lostRun_enabled : (checked step anyStep (init smallConfig) lostRun).isSome = true := by
  decide

end Kvdb.Snapshots
