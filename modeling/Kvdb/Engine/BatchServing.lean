import Kvdb.Engine.Columns
import Kvdb.Engine.BatchIsolation

/-! # Reading through batches

Runs of writes, batches, flushes and lookups. A flush takes two steps: the worker takes a memtable off
the queue, where no lookup and no abort reaches it any more, and later publishes its table. Next to the
engine a state keeps what the calls were asked to do: the effects that are committed, those of the
running batch, and the timestamps of the batches that wrote something and were aborted. -/
namespace Kvdb.BatchServing
set_option autoImplicit false

open Kvdb.Runs Kvdb.Engine
open Kvdb.Calls (returnedEngine)
open Kvdb.ReadOrder (Source Reads top keepSource)

/-- The answer that a write leaves for a key. -/
structure Effect where
  key : Bytes
  answer : Option Bytes

/-- The answer of the newest effect on a key; the newest effect comes first. -/
def last (effects : List Effect) (key : Bytes) : Option Bytes :=
  (effects.find? fun x => decide (x.key = key)).bind Effect.answer

structure State where
  engine : Engine
  flight : Option MemTable
  committed : List Effect
  pending : List Effect
  aborted : List ℕ

inductive Action where
  | insert (key value : Bytes)
  | delete (key : Bytes)
  | startBatch
  | batchInsert (key value : Bytes)
  | batchDelete (key : Bytes)
  | commitBatchAsync
  | commitBatchFinalize
  | abortBatch
  | sync (force : Bool)
  | rotate
  | flushPop
  | flushFinish
  | compactionWorker
  | lookup (key : Bytes)
  | evict (keepHeavy : ℕ → Bool) (keepBlock : ℕ → ℕ → Bool)

def init (cfg : EngineConfig) : State := ⟨Engine.create cfg, none, [], [], []⟩

/-- What `FlushWorkerLoop` does with a memtable that it has taken off the queue. -/
def finishFlush (e : Engine) (m : MemTable) : Engine :=
  if 0 < m.entryCount then (e.doFlush m).writeCheckpoint else e

/-- The two steps of a flush are a round of the flush worker. -/
theorem flushWorker_eq (e : Engine) {m : MemTable} {rest : List MemTable} (h : e.frozenMemtables = m :: rest) :
    e.flushWorker = finishFlush { e with frozenMemtables := rest } m := by
  rw [flushWorker, h]
  rfl

namespace State

def column (s : State) (key : Bytes) : List (Source KeyValuePair) := s.engine.column s.flight key

def memtables (s : State) : List MemTable := s.engine.memtableOrder s.flight

def written (s : State) (x : Effect) (e : Engine) : State := { s with engine := e, committed := x :: s.committed }

def batchWritten (s : State) (x : Effect) (e : Engine) : State := { s with engine := e, pending := x :: s.pending }

def committedBatch (s : State) : State :=
  { s with
    engine := s.engine.commitBatchFinalize.2
    committed := s.pending ++ s.committed
    pending := [] }

def abortedBatch (s : State) : State :=
  { s with
    engine := s.engine.abortBatch.2
    pending := []
    aborted := if s.engine.batchTouched then s.engine.batchTs :: s.aborted else s.aborted }

end State

def step (s : State) : Action → Option State
  | .insert key value => (returnedEngine (s.engine.insert key value)).map (s.written ⟨key, shownValue value⟩)
  | .delete key => (returnedEngine (s.engine.delete key)).map (s.written ⟨key, none⟩)
  | .startBatch => some { s with engine := s.engine.startBatch.2 }
  | .batchInsert key value =>
    (returnedEngine (s.engine.batchInsert key value)).map (s.batchWritten ⟨key, shownValue value⟩)
  | .batchDelete key => (returnedEngine (s.engine.batchDelete key)).map (s.batchWritten ⟨key, none⟩)
  | .commitBatchAsync => some { s with engine := s.engine.commitBatchAsync.2 }
  | .commitBatchFinalize => some (if s.engine.commitBatchFinalize.1 then s.committedBatch else s)
  | .abortBatch => some (if s.engine.abortBatch.1 then s.abortedBatch else s)
  | .sync force => some { s with engine := s.engine.syncWorker force }
  | .rotate => some { s with engine := s.engine.rotate }
  | .flushPop =>
    match s.flight, s.engine.frozenMemtables with
    | none, m :: rest => some { s with engine := { s.engine with frozenMemtables := rest }, flight := some m }
    | _, _ => none
  | .flushFinish => s.flight.map fun m => { s with engine := finishFlush s.engine m, flight := none }
  | .compactionWorker => some { s with engine := s.engine.compactionWorker }
  | .lookup key => some { s with engine := (s.engine.lookup key).2 }
  | .evict keepHeavy keepBlock =>
    some { s with engine := { s.engine with
      sstCache := s.engine.sstCache.map fun c => c.evict keepHeavy keepBlock } }

/-! ## The condition on a step -/

/-- A normal write stays below the running batch and off its keys. -/
def Apart (s : State) (key : Bytes) : Prop :=
  s.engine.batchInProgress = true →
    s.engine.globalTs + 1 < s.engine.batchTs ∧ key ∉ s.pending.map Effect.key

/-- A tombstone in the active memtable hides nothing: the sources behind have no value for the key. -/
def NothingBehind (s : State) (key : Bytes) (readTs : ℕ) : Prop :=
  top shown (visAt readTs) (s.engine.columnTail s.flight key) = none

/-- The timestamp that `StartBatch` takes. -/
def nextBatchTs (e : Engine) : ℕ := (e.globalTs + e.cfg.batchIncrementGap) % 2 ^ 64

/-- The cached values of the keys of the batch are those that the batch leaves. -/
def Refreshed (s : State) : Prop :=
  s.engine.kvCache.Fresh fun x => x.key ∈ s.pending.map Effect.key → shownValue x.value = last s.pending x.key

/-- Every version of the batch is in the active memtable or in the queue. -/
def Reached (s : State) : Prop :=
  (∀ md ∈ s.engine.sstableMetadata, ∀ x ∈ s.engine.tableEntries md, x.timestamp ≠ s.engine.batchTs) ∧
    ∀ m ∈ s.flight, ∀ x ∈ m.entries, x.timestamp ≠ s.engine.batchTs

/-- A flush walks over exactly the versions that are not aborted, and no key has both versions that
readers see and versions that they do not. -/
def Flushable (readTs : ℕ) (m : MemTable) : Prop :=
  m.tree.memTableWalk = liveEntries m ∧
    ∀ x ∈ liveEntries m, ∀ y ∈ liveEntries m, x.key = y.key → x.timestamp ≤ readTs → y.timestamp ≤ readTs

def Allowed (s : State) : Action → Prop
  | .insert key value => Fits s.engine ⟨key, value, s.engine.globalTs + 1, false⟩ ∧
      s.engine.globalTs + 1 ∉ s.aborted ∧ Apart s key ∧ s.engine.kvCache.Found key ∧
      (Config.pageSize / 2 < value.length → s.engine.kvCache.NotCached key)
  | .delete key => Fits s.engine ⟨key, [], s.engine.globalTs + 1, true⟩ ∧
      s.engine.globalTs + 1 ∉ s.aborted ∧ Apart s key ∧ s.engine.kvCache.Found key ∧
      NothingBehind s key s.engine.globalTs
  | .startBatch => s.engine.batchInProgress = false →
      s.engine.globalTs < nextBatchTs s.engine ∧ nextBatchTs s.engine ∉ s.aborted
  | .batchInsert key value => s.engine.batchInProgress = true ∧
      Fits s.engine ⟨key, value, s.engine.batchTs, false⟩
  | .batchDelete key => s.engine.batchInProgress = true ∧ Fits s.engine ⟨key, [], s.engine.batchTs, true⟩ ∧
      NothingBehind s key s.engine.batchTs
  | .commitBatchFinalize => s.engine.commitBatchFinalize.1 = true →
      s.engine.batchTs + 1 < 2 ^ 64 ∧ Refreshed s
  | .abortBatch => s.engine.batchInProgress = true → Reached s
  | .flushFinish => ∀ m ∈ s.flight, Flushable s.engine.globalTs m
  | .compactionWorker => s.engine.workerRange = none
  | .lookup key => ∀ m ∈ s.flight, ∀ x ∈ m.entries, x.key ≠ key
  | _ => True

instance decidableNothingBehind (s : State) (key : Bytes) (readTs : ℕ) : Decidable (NothingBehind s key readTs) :=
  inferInstanceAs (Decidable (top shown (visAt readTs) (s.engine.columnTail s.flight key) = none))

instance decidableApart (s : State) (key : Bytes) : Decidable (Apart s key) :=
  inferInstanceAs (Decidable (s.engine.batchInProgress = true →
    s.engine.globalTs + 1 < s.engine.batchTs ∧ key ∉ s.pending.map Effect.key))

instance decidableRefreshed (s : State) : Decidable (Refreshed s) :=
  KVCache.decidableFresh _ _

instance decidableReached (s : State) : Decidable (Reached s) :=
  inferInstanceAs (Decidable ((∀ md ∈ s.engine.sstableMetadata, ∀ x ∈ s.engine.tableEntries md,
    x.timestamp ≠ s.engine.batchTs) ∧ ∀ m ∈ s.flight, ∀ x ∈ m.entries, x.timestamp ≠ s.engine.batchTs))

instance decidableFlushable (readTs : ℕ) (m : MemTable) : Decidable (Flushable readTs m) :=
  inferInstanceAs (Decidable (m.tree.memTableWalk = liveEntries m ∧
    ∀ x ∈ liveEntries m, ∀ y ∈ liveEntries m, x.key = y.key → x.timestamp ≤ readTs → y.timestamp ≤ readTs))

instance decidableAllowed (s : State) (a : Action) : Decidable (Allowed s a) := by
  cases a <;> unfold Allowed <;> infer_instance

/-! ## The bookkeeping -/

/-- A memtable in key order, without the empty key, whose stacks go from newer to older versions. -/
structure Neat (m : MemTable) : Prop where
  keyOrdered : m.tree.KeyOrdered
  keys : ∀ x ∈ m.entries, x.key ≠ []
  counted : m.Counted
  descending : ∀ key, (memtableStack key m).versions.Pairwise fun a b => b.timestamp ≤ a.timestamp

/-- The aborted set of a memtable covers its aborted versions, and nothing else is aborted. -/
structure Marked (aborted : List ℕ) (m : MemTable) : Prop where
  within : ∀ ts ∈ m.tree.abortedBatchTs, ts ∈ aborted
  covers : ∀ x ∈ m.entries, x.timestamp ∈ aborted → x.timestamp ∈ m.tree.abortedBatchTs

/-- The ids of the memtables and of those that the tables came from. -/
def sourceIds (e : Engine) (flight : Option MemTable) : List ℕ :=
  (e.memtableOrder flight).map MemTable.id ++ e.sstableMetadata.map Metadata.sourceTableId

/-- The catalogue describes its files, and no file holds an aborted version. -/
structure Tabled (e : Engine) (aborted : List ℕ) : Prop where
  filed : Filed e
  keyed : Keyed (fun _ => True) e
  labelled : EachTable Labelled e
  clean : EachTable (fun _ f => ∀ x ∈ f.entries, x.timestamp ∉ aborted) e

structure Shelved (e : Engine) (flight : Option MemTable) (aborted : List ℕ) : Prop where
  tabled : Tabled e aborted
  neat : ∀ m ∈ e.memtableOrder flight, Neat m
  marked : ∀ m ∈ e.memtableOrder flight, Marked aborted m
  unfrozen : e.activeMemtable.frozen = false
  ids : (sourceIds e flight).Nodup
  below : ∀ id ∈ sourceIds e flight, id < e.nextTableId

theorem neat_new (id maxBytes : ℕ) : Neat (MemTable.new id maxBytes) :=
  ⟨BPlusTree.empty_keyOrdered, fun _ hx => (by cases hx), MemTable.counted_new id maxBytes, fun _ => List.Pairwise.nil⟩

theorem Neat.freeze {m : MemTable} (h : Neat m) : Neat m.freeze := ⟨h.keyOrdered, h.keys, h.counted, h.descending⟩

theorem Neat.insert {m : MemTable} (h : Neat m) (hfrozen : m.frozen = false) {w : KeyValuePair} (hkey : w.key ≠ [])
    (hplaced : m.tree.Placed w) (hlive : w.timestamp ∉ m.tree.abortedBatchTs)
    (hnewest : ∀ x ∈ (memtableStack w.key m).versions, x.timestamp ≤ w.timestamp) :
    Neat (m.insert w.key w.value w.timestamp w.isTombstone) := by
  refine ⟨?_, ?_, h.counted.insert _ _ _ _, ?_⟩
  · rw [MemTable.insert, hfrozen]
    exact h.keyOrdered.insert hplaced
  · intro x hx
    rcases MemTable.mem_insert hx with rfl | hx
    · exact hkey
    · exact h.keys x hx
  · intro key
    rw [memtableStack_insert h.keyOrdered hfrozen hplaced hlive]
    by_cases heq : w.key = key
    · rw [if_pos heq]
      rw [heq] at hnewest
      exact List.pairwise_cons.mpr ⟨hnewest, h.descending key⟩
    · rw [if_neg heq]
      exact h.descending key

theorem Marked.insert {aborted : List ℕ} {m : MemTable} (h : Marked aborted m) {w : KeyValuePair}
    (hlive : w.timestamp ∉ aborted) : Marked aborted (m.insert w.key w.value w.timestamp w.isTombstone) := by
  have hset : (m.insert w.key w.value w.timestamp w.isTombstone).tree.abortedBatchTs = m.tree.abortedBatchTs := by
    unfold MemTable.insert
    split
    · rfl
    · rfl
  refine ⟨?_, ?_⟩
  · rw [hset]
    exact h.within
  · intro x hx hts
    rw [hset]
    rcases MemTable.mem_insert hx with rfl | hx
    · exact absurd hts hlive
    · exact h.covers x hx hts

section Shelved

variable {e e' : Engine} {flight : Option MemTable} {aborted : List ℕ}

theorem Tabled.congr (h : Tabled e aborted) (htables : e'.tables = e.tables) : Tabled e' aborted := by
  have hcat : e'.sstableMetadata = e.sstableMetadata := congrArg Prod.fst htables
  have hfiles : e'.files = e.files := congrArg (fun t => t.2.1) htables
  refine ⟨h.filed.congr htables, h.keyed.congr htables, h.labelled.congr hcat ?_, h.clean.congr hcat ?_⟩
  · exact fun md _ => congrFun hfiles md.filepath
  · exact fun md _ => congrFun hfiles md.filepath

theorem mem_memtableOrder {m : MemTable} :
    m ∈ e.memtableOrder flight ↔ m = e.activeMemtable ∨ m ∈ e.frozenMemtables ∨ m ∈ flight := by
  simp [memtableOrder]

theorem Shelved.searched (h : Shelved e flight aborted) : Searched e := by
  refine ⟨h.tabled.filed, h.tabled.keyed, h.tabled.labelled, ?_, ?_⟩
  · intro m hm
    refine (h.neat m (mem_memtableOrder.mpr ?_)).keyOrdered
    rcases List.mem_append.mp hm with hm | hm
    · exact .inr (.inl hm)
    · exact .inl (List.mem_singleton.mp hm)
  · intro md hmd m hm heq
    have hid : m.id ∈ (e.memtableOrder flight).map MemTable.id :=
      List.mem_map_of_mem (mem_memtableOrder.mpr (.inr (.inl hm)))
    exact (List.nodup_append.mp h.ids).2.2 m.id hid md.sourceTableId (List.mem_map_of_mem hmd) heq.symm

/-- A step that leaves the memtables and the names of the tables alone. -/
theorem Shelved.congr (h : Shelved e flight aborted) (htabled : Tabled e' aborted)
    (hactive : e'.activeMemtable = e.activeMemtable) (hfrozen : e'.frozenMemtables = e.frozenMemtables)
    (hcat : e'.sstableMetadata = e.sstableMetadata) (hnext : e'.nextTableId = e.nextTableId) :
    Shelved e' flight aborted := by
  have horder : e'.memtableOrder flight = e.memtableOrder flight := by
    rw [memtableOrder, memtableOrder, hactive, hfrozen]
  have hsource : sourceIds e' flight = sourceIds e flight := by
    rw [sourceIds, sourceIds, horder, hcat]
  refine ⟨htabled, ?_, ?_, ?_, ?_, ?_⟩
  · rw [horder]
    exact h.neat
  · rw [horder]
    exact h.marked
  · rw [hactive]
    exact h.unfrozen
  · rw [hsource]
    exact h.ids
  · rw [hsource, hnext]
    exact h.below

/-- A version enters the active memtable. -/
theorem Shelved.push (h : Shelved e flight aborted) {w : KeyValuePair} (hfits : Fits e w)
    (hlive : w.timestamp ∉ aborted)
    (hnewest : ∀ x ∈ (memtableStack w.key e.activeMemtable).versions, x.timestamp ≤ w.timestamp)
    (htables : e'.tables = e.tables)
    (hactive : e'.activeMemtable = e.activeMemtable.insert w.key w.value w.timestamp w.isTombstone)
    (hfrozen : e'.frozenMemtables = e.frozenMemtables) (hnext : e'.nextTableId = e.nextTableId) :
    Shelved e' flight aborted := by
  have hneat := h.neat e.activeMemtable List.mem_cons_self
  have hmarked := h.marked e.activeMemtable List.mem_cons_self
  have hcat : e'.sstableMetadata = e.sstableMetadata := congrArg Prod.fst htables
  have hsource : sourceIds e' flight = sourceIds e flight := by
    simp only [sourceIds, memtableOrder, hactive, hfrozen, hcat, List.cons_append, List.map_cons, MemTable.insert_id]
  refine ⟨h.tabled.congr htables, ?_, ?_, ?_, ?_, ?_⟩
  · intro m hm
    rcases mem_memtableOrder.mp hm with rfl | hm
    · rw [hactive]
      exact hneat.insert h.unfrozen hfits.key hfits.placed (fun hts => hlive (hmarked.within _ hts)) hnewest
    · rw [hfrozen] at hm
      exact h.neat m (mem_memtableOrder.mpr (.inr hm))
  · intro m hm
    rcases mem_memtableOrder.mp hm with rfl | hm
    · rw [hactive]
      exact hmarked.insert hlive
    · rw [hfrozen] at hm
      exact h.marked m (mem_memtableOrder.mpr (.inr hm))
  · rw [hactive, MemTable.insert_frozen]
    exact h.unfrozen
  · rw [hsource]
    exact h.ids
  · rw [hsource, hnext]
    exact h.below

theorem Shelved.rotate (h : Shelved e flight aborted) : Shelved e.rotate flight aborted := by
  have hsource : sourceIds e.rotate flight = e.nextTableId :: sourceIds e flight := by
    simp [sourceIds, memtableOrder, Engine.rotate, MemTable.new, MemTable.freeze]
  have hold : ∀ m ∈ e.rotate.memtableOrder flight, m = MemTable.new e.nextTableId e.cfg.memtableMaxBytes ∨
      m = e.activeMemtable.freeze ∨ m ∈ e.memtableOrder flight := by
    intro m hm
    simp only [mem_memtableOrder, Engine.rotate, List.mem_append, List.mem_singleton] at hm ⊢
    tauto
  refine ⟨h.tabled.congr rfl, ?_, ?_, rfl, ?_, ?_⟩
  · intro m hm
    rcases hold m hm with rfl | rfl | hm
    · exact neat_new _ _
    · exact (h.neat e.activeMemtable List.mem_cons_self).freeze
    · exact h.neat m hm
  · intro m hm
    rcases hold m hm with rfl | rfl | hm
    · exact ⟨fun _ hts => (by cases hts), fun _ hx => (by cases hx)⟩
    · have hmarked := h.marked e.activeMemtable List.mem_cons_self
      exact ⟨hmarked.within, hmarked.covers⟩
    · exact h.marked m hm
  · rw [hsource]
    refine List.nodup_cons.mpr ⟨?_, h.ids⟩
    exact fun hid => Nat.lt_irrefl _ (h.below _ hid)
  · rw [hsource]
    intro id hid
    show id < e.nextTableId + 1
    rcases List.mem_cons.mp hid with rfl | hid
    · omega
    · have hlt := h.below id hid
      omega

theorem memtableOrder_pop {m : MemTable} {rest : List MemTable} (hfrozen : e.frozenMemtables = m :: rest) :
    { e with frozenMemtables := rest }.memtableOrder (some m) = e.memtableOrder none := by
  simp [memtableOrder, hfrozen]

theorem Shelved.pop (h : Shelved e none aborted) {m : MemTable} {rest : List MemTable}
    (hfrozen : e.frozenMemtables = m :: rest) : Shelved { e with frozenMemtables := rest } (some m) aborted := by
  have horder := memtableOrder_pop hfrozen
  have hsource : sourceIds { e with frozenMemtables := rest } (some m) = sourceIds e none := by
    rw [sourceIds, sourceIds, horder]
  refine ⟨h.tabled.congr rfl, ?_, ?_, h.unfrozen, ?_, ?_⟩
  · rw [horder]
    exact h.neat
  · rw [horder]
    exact h.marked
  · rw [hsource]
    exact h.ids
  · rw [hsource]
    exact h.below

theorem memtableOrder_none {m : MemTable} (hm : m ∈ e.memtableOrder none) : m ∈ e.memtableOrder flight := by
  rcases mem_memtableOrder.mp hm with hm | hm | hm
  · exact mem_memtableOrder.mpr (.inl hm)
  · exact mem_memtableOrder.mpr (.inr (.inl hm))
  · cases hm

theorem Shelved.doFlush {m : MemTable} (h : Shelved e (some m) aborted)
    (hwalk : m.tree.memTableWalk = liveEntries m) (hcount : m.entryCount ≠ 0) : Shelved (e.doFlush m) none aborted := by
  have hm : m ∈ e.memtableOrder (some m) := mem_memtableOrder.mpr (.inr (.inr rfl))
  have hneat := h.neat m hm
  have hdesc := walk_descending hneat.keyOrdered hneat.descending hwalk
  have htabled : Tabled (e.doFlush m) aborted := by
    refine ⟨h.tabled.filed.doFlush m, h.tabled.keyed.doFlush h.tabled.filed m, ?_, ?_⟩
    · refine h.tabled.labelled.doFlush h.tabled.filed ?_
      intro md cache hmd
      have hmeta := flushed_metadata hmd fun c hc hcaches => Nat.lt_irrefl _ (h.tabled.keyed.cached c hc _ hcaches)
      refine ⟨SSTableFile.writeFromWalk_arranged _ _ _ hdesc, ?_, ?_, ?_⟩
      · rw [hmeta]
        rfl
      · rw [hmeta]
        rfl
      · rw [hmeta]
        rfl
    · refine h.tabled.clean.doFlush h.tabled.filed ?_
      intro md cache hmd x hx hts
      have hentries : (e.flushFile m).entries = SSTableFile.flushEntries m.tree.memTableWalk :=
        SSTableFile.entries_writeFromWalk _ _ _ _
      rw [hentries] at hx
      have hwalked := SSTableFile.flushEntries_subset _ x hx
      rw [hwalk] at hwalked
      obtain ⟨hxm, hlive⟩ := List.mem_filter.mp hwalked
      have habort := (h.marked m hm).covers x hxm hts
      simp [habort] at hlive
  obtain ⟨md, cache, hmd, heq⟩ := ((e.doFlush_cases m).resolve_left fun hz => hcount hz.1).2
  have hperm : (sourceIds (e.doFlush m) none).Perm (sourceIds e (some m)) := by
    rw [heq]
    simp only [sourceIds, memtableOrder, afterFlush, Option.toList_none, Option.toList_some, List.append_nil,
      List.map_append, List.map_cons, List.map_nil, hmd.sourceTableId, List.append_assoc, List.cons_append]
    refine List.Perm.cons _ (List.Perm.append_left _ ?_)
    exact List.perm_append_comm
  have hactive : (e.doFlush m).activeMemtable = e.activeMemtable := doFlush_activeMemtable e m
  have hsub : ∀ m' ∈ (e.doFlush m).memtableOrder none, m' ∈ e.memtableOrder (some m) := by
    intro m' hm'
    refine memtableOrder_none ?_
    rw [memtableOrder, hactive, doFlush_frozenMemtables] at hm'
    exact hm'
  refine ⟨htabled, fun m' hm' => h.neat m' (hsub m' hm'), fun m' hm' => h.marked m' (hsub m' hm'), ?_, ?_, ?_⟩
  · rw [hactive]
    exact h.unfrozen
  · exact hperm.nodup_iff.mpr h.ids
  · intro id hid
    rw [heq]
    exact h.below id (hperm.mem_iff.mp hid)

theorem Shelved.finishFlush {m : MemTable} (h : Shelved e (some m) aborted)
    (hwalk : m.tree.memTableWalk = liveEntries m) : Shelved (finishFlush e m) none aborted := by
  unfold BatchServing.finishFlush
  split
  · next hcount =>
    have hflush := h.doFlush hwalk (Nat.ne_of_gt hcount)
    exact hflush.congr (hflush.tabled.congr rfl) rfl rfl rfl rfl
  · have hsub : (sourceIds e none).Sublist (sourceIds e (some m)) := by
      refine List.Sublist.append_right (List.Sublist.map _ ?_) _
      simp [memtableOrder]
    exact ⟨h.tabled, fun m' hm' => h.neat m' (memtableOrder_none hm'), fun m' hm' => h.marked m' (memtableOrder_none hm'),
      h.unfrozen, h.ids.sublist hsub, fun id hid => h.below id (hsub.subset hid)⟩

/-! ### Aborting a batch -/

theorem memtableStack_addAborted (key : Bytes) (m : MemTable) (ts : ℕ) :
    memtableStack key (m.addAbortedBatch ts) = keepSource (fun x => !decide (x.timestamp = ts)) (memtableStack key m) := by
  simp only [memtableStack, stackOf, keepSource, MemTable.addAbortedBatch, List.filter_filter]
  congr 2
  funext x
  simp

theorem Neat.addAborted {m : MemTable} (h : Neat m) (ts : ℕ) : Neat (m.addAbortedBatch ts) := by
  refine ⟨h.keyOrdered, h.keys, h.counted, ?_⟩
  intro key
  rw [memtableStack_addAborted]
  exact (h.descending key).filter _

theorem Marked.addAborted {m : MemTable} (h : Marked aborted m) (ts : ℕ) : Marked (ts :: aborted) (m.addAbortedBatch ts) := by
  refine ⟨?_, ?_⟩
  · intro t ht
    rcases List.mem_cons.mp ht with rfl | ht
    · exact List.mem_cons_self
    · exact List.mem_cons_of_mem _ (h.within t ht)
  · intro x hx hts
    rcases List.mem_cons.mp hts with heq | hts
    · rw [heq]
      exact List.mem_cons_self
    · exact List.mem_cons_of_mem _ (h.covers x hx hts)

theorem Marked.of_absent {m : MemTable} (h : Marked aborted m) {ts : ℕ} (habsent : ∀ x ∈ m.entries, x.timestamp ≠ ts) :
    Marked (ts :: aborted) m := by
  refine ⟨fun t ht => List.mem_cons_of_mem _ (h.within t ht), ?_⟩
  intro x hx hts
  exact h.covers x hx ((List.mem_cons.mp hts).resolve_left (habsent x hx))

/-- The catalogue record of a table after an abort. -/
def markRecord (ts : ℕ) (md : Metadata) : Metadata := { md with abortedBatchTs := ts :: md.abortedBatchTs }

/-- What `AbortBatch` does to the memtables and the catalogue. -/
structure Aborted (e e' : Engine) : Prop where
  active : e'.activeMemtable = e.activeMemtable.addAbortedBatch e.batchTs
  frozen : e'.frozenMemtables = e.frozenMemtables.map fun m => m.addAbortedBatch e.batchTs
  catalogue : e'.sstableMetadata = e.sstableMetadata.map (markRecord e.batchTs)
  rest : (e'.files, e'.sstableSeq, e'.sstCache, e'.pendingGc, e'.nextTableId) =
    (e.files, e.sstableSeq, e.sstCache, e.pendingGc, e.nextTableId)

theorem Aborted.labels (ha : Aborted e e') (P : Metadata → SSTableFile → Prop)
    (hP : ∀ md ts f, P md f → P (markRecord ts md) f) (h : EachTable P e) :
    EachTable P e' := by
  intro md' hmd' f hfile
  rw [ha.catalogue] at hmd'
  obtain ⟨md, hmd, rfl⟩ := List.mem_map.mp hmd'
  have hfiles : e'.files = e.files := congrArg Prod.fst ha.rest
  rw [hfiles] at hfile
  exact hP md _ f (h md hmd f hfile)

theorem Shelved.abort (h : Shelved e flight aborted) (ha : Aborted e e')
    (htables : ∀ md ∈ e.sstableMetadata, ∀ x ∈ e.tableEntries md, x.timestamp ≠ e.batchTs)
    (hflight : ∀ m ∈ flight, ∀ x ∈ m.entries, x.timestamp ≠ e.batchTs) :
    Shelved e' flight (e.batchTs :: aborted) := by
  obtain ⟨hfiles, hseq, hcache, hgc, hnext⟩ : e'.files = e.files ∧ e'.sstableSeq = e.sstableSeq ∧
      e'.sstCache = e.sstCache ∧ e'.pendingGc = e.pendingGc ∧ e'.nextTableId = e.nextTableId := by
    simpa only [Prod.mk.injEq] using ha.rest
  have hold : ∀ m' ∈ e'.memtableOrder flight, (∃ m ∈ e.memtableOrder flight, m' = m.addAbortedBatch e.batchTs) ∨
      m' ∈ flight := by
    intro m' hm'
    rcases mem_memtableOrder.mp hm' with rfl | hm' | hm'
    · exact .inl ⟨_, List.mem_cons_self, ha.active⟩
    · rw [ha.frozen] at hm'
      obtain ⟨m, hm, rfl⟩ := List.mem_map.mp hm'
      exact .inl ⟨m, mem_memtableOrder.mpr (.inr (.inl hm)), rfl⟩
    · exact .inr hm'
  have hsource : sourceIds e' flight = sourceIds e flight := by
    simp only [sourceIds, memtableOrder, ha.active, ha.frozen, ha.catalogue, MemTable.addAbortedBatch, List.map_cons,
      List.map_append, List.map_map, List.cons_append, ← List.map_reverse]
    rfl
  refine ⟨⟨?_, ?_, ?_, ?_⟩, ?_, ?_, ?_, ?_, ?_⟩
  · exact h.tabled.filed.relabel (g := markRecord e.batchTs) (fun _ => rfl) ha.catalogue hfiles hseq hgc
  · exact h.tabled.keyed.relabel (g := markRecord e.batchTs) (fun _ => rfl) (fun _ => rfl) ha.catalogue hfiles hseq hcache
  · refine ha.labels Labelled ?_ h.tabled.labelled
    exact fun md ts f hl => ⟨hl.arranged, hl.minKey, hl.maxKey, hl.bloom⟩
  · refine ha.labels _ (fun _ _ _ hl => hl) ?_
    intro md hmd f hfile x hx hts
    have hentries : e.tableEntries md = f.entries := by
      rw [tableEntries, hfile]
      rfl
    rw [← hentries] at hx
    have hold' := (List.mem_cons.mp hts).resolve_left (htables md hmd x hx)
    rw [hentries] at hx
    exact h.tabled.clean md hmd f hfile x hx hold'
  · intro m' hm'
    rcases hold m' hm' with ⟨m, hm, rfl⟩ | hm'
    · exact (h.neat m hm).addAborted _
    · exact h.neat m' (mem_memtableOrder.mpr (.inr (.inr hm')))
  · intro m' hm'
    rcases hold m' hm' with ⟨m, hm, rfl⟩ | hm'
    · exact (h.marked m hm).addAborted _
    · exact (h.marked m' (mem_memtableOrder.mpr (.inr (.inr hm')))).of_absent (hflight m' hm')
  · rw [ha.active]
    exact h.unfrozen
  · rw [hsource]
    exact h.ids
  · rw [hsource, hnext]
    exact h.below

theorem keepSource_absent {p : KeyValuePair → Bool} {src : Source KeyValuePair} (h : ∀ x ∈ src.versions, p x = true) :
    keepSource p src = src := by
  rw [keepSource, List.filter_eq_self.mpr h]

/-- The versions of the batch leave the column. -/
theorem column_abort (ha : Aborted e e')
    (htables : ∀ md ∈ e.sstableMetadata, ∀ x ∈ e.tableEntries md, x.timestamp ≠ e.batchTs)
    (hflight : ∀ m ∈ flight, ∀ x ∈ m.entries, x.timestamp ≠ e.batchTs) (key : Bytes) :
    e'.column flight key = (e.column flight key).map (keepSource fun x => !decide (x.timestamp = e.batchTs)) := by
  have hfiles : e'.files = e.files := congrArg Prod.fst ha.rest
  have hflightKept : flight.toList.map (memtableStack key) =
      flight.toList.map fun m => keepSource (fun x => !decide (x.timestamp = e.batchTs)) (memtableStack key m) := by
    refine List.map_congr_left ?_
    intro m hm
    refine (keepSource_absent ?_).symm
    intro x hx
    simp [hflight m (Option.mem_toList.mp hm) x (mem_stackOf.mp hx).1]
  have htablesKept : e'.tableColumn key =
      (e.tableColumn key).map (keepSource fun x => !decide (x.timestamp = e.batchTs)) := by
    rw [tableColumn, tableColumn, ha.catalogue, lookupOrder_map (g := markRecord e.batchTs) (fun _ => rfl), List.map_map,
      List.map_map]
    refine List.map_congr_left ?_
    intro md hmd
    have hstack : e'.tableStack key (markRecord e.batchTs md) = e.tableStack key md := by
      rw [tableStack, tableStack, hfiles]
      rfl
    refine hstack.trans (keepSource_absent ?_).symm
    intro x hx
    have hx : x ∈ e.tableEntries md := by
      rw [tableEntries]
      rw [tableStack] at hx
      cases hfile : e.files md.filepath with
      | none =>
        rw [hfile] at hx
        cases hx
      | some f =>
        rw [hfile] at hx
        exact (mem_stackOf.mp hx).1
    simp [htables md (mem_lookupOrder.mp hmd) x hx]
  have hfrozen : (e'.frozenMemtables.reverse).map (memtableStack key) =
      e.frozenMemtables.reverse.map fun m => keepSource (fun x => !decide (x.timestamp = e.batchTs)) (memtableStack key m) := by
    rw [ha.frozen, ← List.map_reverse, List.map_map]
    exact List.map_congr_left fun m _ => memtableStack_addAborted key m _
  simp only [column, memtableOrder, ha.active, List.map_append, List.map_cons, List.cons_append, List.map_map,
    memtableStack_addAborted, htablesKept, hfrozen]
  rw [hflightKept]
  rfl

end Shelved

end Kvdb.BatchServing
