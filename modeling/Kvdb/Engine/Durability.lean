import Kvdb.Engine.Coverage
import Kvdb.Lib.Runs

/-! # Synced writes across a crash

One writer, the flush worker and the WAL sync worker, step by step, with a crash at any point. The
crash keeps the SSTable files, the MANIFEST and what has been written to the WAL file, and an engine
is constructed on them again. The flush worker appends its checkpoint at the current end of the log,
after records of writes that are still in memory only; recovery then skips those records. -/
namespace Kvdb.Durability
set_option autoImplicit false

open Kvdb.Runs Kvdb.Engine

/-- Where the writer stands in `Insert` or `Delete`; `seq` is the sequence number it will return. -/
inductive WriterStage where
  | idle
  | taken (w : KeyValuePair)
  | buffered (w : KeyValuePair)
  | sequenced (w : KeyValuePair) (seq : ℕ)
  | inserted (w : KeyValuePair) (seq : ℕ)
  | returning (w : KeyValuePair) (seq : ℕ)

inductive FlushStage where
  | idle
  | popped (m : MemTable)
  | flushed

/-- Where the sync worker stands in `Sync`: with the buffer swapped out, and with it in the file. -/
inductive SyncStage where
  | idle
  | swapped (records : List WalRecord) (seq : ℕ)
  | persisted (seq : ℕ)

/-- `returned` are the writes of this process that have returned, with their sequence numbers, and
`acked` the writes that were synced when a process before it crashed. -/
structure State where
  engine : Engine
  writer : WriterStage
  flush : FlushStage
  sync : SyncStage
  returned : List (KeyValuePair × ℕ)
  acked : List KeyValuePair

inductive Action where
  | takeTimestamp (key value : Bytes) (isTombstone : Bool)
  | buffer
  | readSeq
  | memInsert
  | freezeIfFull
  | finish
  | pop
  | doFlush
  | checkpoint
  | syncStart (force : Bool)
  | syncWrite
  | syncPublish
  | crash (cfg : EngineConfig)

def init (cfg : EngineConfig) : State := ⟨Engine.create cfg, .idle, .idle, .idle, [], []⟩

/-- The writes that returned a sequence number up to `SyncedSequence()`. -/
def syncedWrites (s : State) : List KeyValuePair :=
  (s.returned.filter fun p => decide (p.2 ≤ s.engine.syncedSeq)).map Prod.fst

def step (s : State) : Action → Option State
  | .takeTimestamp key value isTombstone =>
    match s.writer, s.engine.takeTimestamp with
    | .idle, some (ts, e) => some { s with engine := e, writer := .taken ⟨key, value, ts, isTombstone⟩ }
    | _, _ => none
  | .buffer =>
    match s.writer with
    | .taken w => some { s with
        engine := s.engine.bufferWrite w.key w.value w.timestamp
        writer := .buffered w }
    | _ => none
  | .readSeq =>
    match s.writer with
    | .buffered w => some { s with writer := .sequenced w s.engine.wal.batchSeq }
    | _ => none
  | .memInsert =>
    match s.writer with
    | .sequenced w seq => some { s with
        engine := s.engine.memInsert w.key w.value w.timestamp w.isTombstone
        writer := .inserted w seq }
    | _ => none
  | .freezeIfFull =>
    match s.writer with
    | .inserted w seq => some { s with engine := s.engine.freezeIfFull, writer := .returning w seq }
    | _ => none
  | .finish =>
    match s.writer with
    | .returning w seq => some { s with writer := .idle, returned := s.returned ++ [(w, seq)] }
    | _ => none
  | .pop =>
    match s.flush, s.engine.frozenMemtables with
    | .idle, m :: rest => some { s with
        engine := { s.engine with frozenMemtables := rest }
        flush := if m.entryCount = 0 then .idle else .popped m }
    | _, _ => none
  | .doFlush =>
    match s.flush with
    | .popped m => some { s with engine := s.engine.doFlush m, flush := .flushed }
    | _ => none
  | .checkpoint =>
    match s.flush with
    | .flushed => some { s with engine := s.engine.writeCheckpoint, flush := .idle }
    | _ => none
  | .syncStart force =>
    match s.sync with
    | .idle =>
      if s.engine.wal.writeBuf.isEmpty then some s
      else if s.engine.wal.tooSmall force then
        some { s with engine := { s.engine with wal := s.engine.wal.markSynced s.engine.wal.batchSeq } }
      else some { s with
        engine := { s.engine with wal := s.engine.wal.swapBuf }
        sync := .swapped s.engine.wal.writeBuf s.engine.wal.batchSeq }
    | _ => none
  | .syncWrite =>
    match s.sync with
    | .swapped records seq => some { s with
        engine := { s.engine with wal := s.engine.wal.appendFile records }
        sync := .persisted seq }
    | _ => none
  | .syncPublish =>
    match s.sync with
    | .persisted seq => some { s with
        engine := { s.engine with wal := s.engine.wal.markSynced seq, syncedSeq := seq }
        sync := .idle }
    | _ => none
  | .crash cfg => some
      ⟨construct cfg s.engine.directory, .idle, .idle, .idle, [], s.acked ++ syncedWrites s⟩

/-! ## The property and its condition -/

/-- The version is in a table of the catalogue or in a memtable, or a newer one of the key is. -/
def Present (e : Engine) (w : KeyValuePair) : Prop :=
  e.Covers w.key w.timestamp ∨
    ∃ m ∈ e.activeMemtable :: e.frozenMemtables, ∃ x ∈ m.entries, x.key = w.key ∧ w.timestamp ≤ x.timestamp

/-- Every write that was synced before a crash has been recovered. -/
def Durable (s : State) : Prop := ∀ w ∈ s.acked, Present s.engine w

/-- The write whose record is in the log and whose version is not yet in the memtable. -/
def WriterStage.pending : WriterStage → Option KeyValuePair
  | .buffered w => some w
  | .sequenced w _ => some w
  | _ => none

/-- The condition on a step: keys are not empty, insertions find room in a page (also those of the
replay), and at a checkpoint no logged write is in memory only. -/
def Allowed (s : State) : Action → Prop
  | .takeTimestamp key _ _ => key ≠ []
  | .memInsert => ∀ w ∈ s.writer.pending, s.engine.activeMemtable.tree.Kept w
  | .checkpoint => s.writer.pending = none ∧
      ∀ m ∈ s.engine.activeMemtable :: s.engine.frozenMemtables, m.entryCount = 0
  | .crash cfg =>
    ReplayKept (replayStart cfg s.engine.directory) (WAL.recover s.engine.wal.file).entries
  | _ => True

instance decidableCovers (e : Engine) (key : Bytes) (ts : ℕ) : Decidable (e.Covers key ts) :=
  inferInstanceAs (Decidable (∃ md ∈ e.sstableMetadata, ∃ x ∈ e.tableEntries md, x.key = key ∧ ts ≤ x.timestamp))

instance decidablePresent (e : Engine) (w : KeyValuePair) : Decidable (Present e w) :=
  inferInstanceAs (Decidable (_ ∨ _))

instance decidableAllowed (s : State) (a : Action) : Decidable (Allowed s a) := by
  cases a <;> simp only [Allowed] <;> infer_instance

/-! ## The invariant -/

def FlushStage.held : FlushStage → List MemTable
  | .popped m => [m]
  | _ => []

/-- The memtables of the process, with the one the flush worker holds. -/
def memory (s : State) : List MemTable :=
  s.engine.activeMemtable :: (s.engine.frozenMemtables ++ s.flush.held)

def SyncStage.records : SyncStage → List WalRecord
  | .swapped records _ => records
  | _ => []

/-- All records in log order: the file, the buffer that is being written and the one being filled. -/
def log (s : State) : List WalRecord := s.engine.wal.file ++ s.sync.records ++ s.engine.wal.writeBuf

/-- The record is an entry of a non-empty key or a checkpoint without a batch. -/
def Logged : WalRecord → Prop
  | .entry key _ _ => key ≠ []
  | .checkpoint _ batchTs => batchTs = 0
  | _ => False

theorem Logged.plain {r : WalRecord} (h : Logged r) : WAL.Plain r := by
  cases r <;> trivial

/-- A logged write is covered by a table, or in a memtable, or about to be inserted. -/
def Held (s : State) (key : Bytes) (ts : ℕ) : Prop :=
  s.engine.Covers key ts ∨
    (∃ m ∈ memory s, ∃ x ∈ m.entries, x.key = key ∧ ts ≤ x.timestamp) ∨
    ∃ w ∈ s.writer.pending, w.key = key ∧ ts ≤ w.timestamp

/-- The entry, if the record is one, is covered by a table. -/
def RecordCovered (e : Engine) : WalRecord → Prop
  | .entry key _ ts => e.Covers key ts
  | _ => True

def entryOf (w : KeyValuePair) : WalRecord := .entry w.key w.value w.timestamp

/-- The memory and the tables. -/
structure MemoryOk (s : State) : Prop where
  quiet : s.engine.batchInProgress = false
  unfrozen : s.engine.activeMemtable.frozen = false
  clean : ∀ m ∈ memory s, MemTable.Clean m
  tables : Sequential s.engine
  held : ∀ key value ts, .entry key value ts ∈ log s → Held s key ts
  acked : ∀ w ∈ s.acked, w.key ≠ [] ∧ s.engine.Covers w.key w.timestamp

/-- What the stage of the sync worker says about the lengths; `base` is the length of the log when
the process started counting. -/
def SyncOk (base : ℕ) (s : State) : Prop :=
  match s.sync with
  | .idle => True
  | .swapped records seq => s.engine.wal.file.length + records.length = base + seq
  | .persisted seq => base + seq ≤ s.engine.wal.file.length

def WriterOk (base : ℕ) (s : State) : Prop :=
  match s.writer with
  | .idle => True
  | .taken w => w.key ≠ []
  | .buffered w => entryOf w ∈ log s
  | .sequenced w seq => entryOf w ∈ (log s).take (base + seq)
  | .inserted w seq => entryOf w ∈ (log s).take (base + seq)
  | .returning w seq => entryOf w ∈ (log s).take (base + seq)

/-- The log and its sequence numbers. -/
structure LogOk (base : ℕ) (s : State) : Prop where
  logged : ∀ r ∈ log s, Logged r
  length : (log s).length = base + s.engine.wal.batchSeq
  sync : SyncOk base s
  synced : base + s.engine.syncedSeq ≤ s.engine.wal.file.length
  safe : (log s).Pairwise fun a b => b.isCheckpoint = true → RecordCovered s.engine a
  returned : ∀ p ∈ s.returned, entryOf p.1 ∈ (log s).take (base + p.2)
  writer : WriterOk base s

def Inv (s : State) : Prop := MemoryOk s ∧ ∃ base, LogOk base s

/-! ## Frames -/

theorem RecordCovered.mono {e e' : Engine} (hcov : ∀ key ts, e.Covers key ts → e'.Covers key ts)
    {r : WalRecord} (h : RecordCovered e r) : RecordCovered e' r := by
  cases r with
  | entry key value ts => exact hcov key ts h
  | _ => trivial

theorem log_congr {s t : State} (hwal : t.engine.wal = s.engine.wal) (hsync : t.sync = s.sync) :
    log t = log s := by
  rw [log, log, hwal, hsync]

theorem WriterOk.frame {base : ℕ} {s t : State} (h : WriterOk base s) (hwriter : t.writer = s.writer)
    (hlog : log t = log s) : WriterOk base t := by
  unfold WriterOk at h ⊢
  rw [hwriter, hlog]
  exact h

theorem safe_mono {e e' : Engine} (hcov : ∀ key ts, e.Covers key ts → e'.Covers key ts)
    {rs : List WalRecord} (h : rs.Pairwise fun a b => b.isCheckpoint = true → RecordCovered e a) :
    rs.Pairwise fun a b => b.isCheckpoint = true → RecordCovered e' a :=
  h.imp fun hab hb => (hab hb).mono hcov

/-- A step that leaves the log alone. -/
theorem LogOk.frame {base : ℕ} {s t : State} (h : LogOk base s) (hwal : t.engine.wal = s.engine.wal)
    (hsync : t.sync = s.sync) (hsynced : t.engine.syncedSeq = s.engine.syncedSeq)
    (hret : t.returned = s.returned) (hcov : ∀ key ts, s.engine.Covers key ts → t.engine.Covers key ts)
    (hwriter : WriterOk base t) : LogOk base t := by
  have hlog := log_congr hwal hsync
  refine ⟨?_, ?_, ?_, ?_, ?_, ?_, hwriter⟩
  · rw [hlog]
    exact h.logged
  · rw [hlog, hwal]
    exact h.length
  · have hok := h.sync
    unfold SyncOk at hok ⊢
    rw [hsync, hwal]
    exact hok
  · rw [hsynced, hwal]
    exact h.synced
  · rw [hlog]
    exact safe_mono hcov h.safe
  · rw [hret, hlog]
    exact h.returned

theorem mem_take_append {α : Type} {x : α} {xs ys : List α} {n : ℕ} (h : x ∈ xs.take n) :
    x ∈ (xs ++ ys).take n := by
  rw [List.take_append]
  exact List.mem_append_left _ h

theorem WriterOk.append {base : ℕ} {s t : State} {r : WalRecord} (h : WriterOk base s)
    (hwriter : t.writer = s.writer) (hlog : log t = log s ++ [r]) : WriterOk base t := by
  unfold WriterOk at h ⊢
  rw [hwriter, hlog]
  split
  · trivial
  · next w hw => simpa only [hw] using h
  · next w hw =>
    simp only [hw] at h
    exact List.mem_append_left _ h
  · next w seq hw =>
    simp only [hw] at h
    exact mem_take_append h
  · next w seq hw =>
    simp only [hw] at h
    exact mem_take_append h
  · next w seq hw =>
    simp only [hw] at h
    exact mem_take_append h

/-- A record appended to the buffer. -/
theorem LogOk.append {base : ℕ} {s t : State} {r : WalRecord} (h : LogOk base s) (hr : Logged r)
    (hfile : t.engine.wal.file = s.engine.wal.file)
    (hbuf : t.engine.wal.writeBuf = s.engine.wal.writeBuf ++ [r])
    (hbatch : t.engine.wal.batchSeq = s.engine.wal.batchSeq + 1) (hsync : t.sync = s.sync)
    (hsynced : t.engine.syncedSeq = s.engine.syncedSeq) (hret : t.returned = s.returned)
    (hcov : ∀ key ts, s.engine.Covers key ts → t.engine.Covers key ts)
    (hsafe : r.isCheckpoint = true → ∀ a ∈ log s, RecordCovered s.engine a)
    (hwriter : log t = log s ++ [r] → WriterOk base t) : LogOk base t := by
  have hlog : log t = log s ++ [r] := by
    rw [log, log, hfile, hbuf, hsync, List.append_assoc _ s.engine.wal.writeBuf]
  refine ⟨?_, ?_, ?_, ?_, ?_, ?_, hwriter hlog⟩
  · intro x hx
    rw [hlog] at hx
    rcases List.mem_append.mp hx with hx | hx
    · exact h.logged x hx
    · rw [List.mem_singleton.mp hx]
      exact hr
  · rw [hlog, hbatch, List.length_append, h.length, List.length_singleton]
    omega
  · have hok := h.sync
    unfold SyncOk at hok ⊢
    rw [hsync, hfile]
    exact hok
  · rw [hsynced, hfile]
    exact h.synced
  · rw [hlog, List.pairwise_append]
    refine ⟨safe_mono hcov h.safe, List.pairwise_singleton _ _, ?_⟩
    intro a ha b hb hcheck
    rw [List.mem_singleton.mp hb] at hcheck
    exact (hsafe hcheck a ha).mono hcov
  · intro p hp
    rw [hret] at hp
    rw [hlog]
    exact mem_take_append (h.returned p hp)

theorem Held.frame {s t : State} {key : Bytes} {ts : ℕ} (h : Held s key ts)
    (hcov : s.engine.Covers key ts → t.engine.Covers key ts)
    (hmem : ∀ m ∈ memory s, ∀ x ∈ m.entries, x.key = key → t.engine.Covers key x.timestamp ∨
      ∃ m' ∈ memory t, x ∈ m'.entries)
    (hpending : ∀ w ∈ s.writer.pending, w ∈ t.writer.pending ∨ ∃ m' ∈ memory t, w ∈ m'.entries) :
    Held t key ts := by
  rcases h with hc | ⟨m, hm, x, hx, hkey, hts⟩ | ⟨w, hw, hkey, hts⟩
  · exact .inl (hcov hc)
  · rcases hmem m hm x hx hkey with ⟨md, hmd, y, hy, hykey, hyts⟩ | ⟨m', hm', hx'⟩
    · exact .inl ⟨md, hmd, y, hy, hykey, Nat.le_trans hts hyts⟩
    · exact .inr (.inl ⟨m', hm', x, hx', hkey, hts⟩)
  · rcases hpending w hw with hw | ⟨m', hm', hw'⟩
    · exact .inr (.inr ⟨w, hw, hkey, hts⟩)
    · exact .inr (.inl ⟨m', hm', w, hw', hkey, hts⟩)

/-- A step that leaves the memtables and the tables alone. -/
theorem MemoryOk.frame {s t : State} (h : MemoryOk s)
    (hengine : { t.engine with
      wal := s.engine.wal
      syncedSeq := s.engine.syncedSeq
      globalTs := s.engine.globalTs } = s.engine)
    (hflush : t.flush.held = s.flush.held) (hacked : t.acked = s.acked)
    (hheld : ∀ key value ts, .entry key value ts ∈ log t → .entry key value ts ∈ log s ∨
      ∃ w ∈ t.writer.pending, w.key = key ∧ ts ≤ w.timestamp)
    (hpending : ∀ w ∈ s.writer.pending, w ∈ t.writer.pending) : MemoryOk t := by
  have hactive : t.engine.activeMemtable = s.engine.activeMemtable := by rw [← hengine]
  have hfrozen : t.engine.frozenMemtables = s.engine.frozenMemtables := by rw [← hengine]
  have hcat : t.engine.sstableMetadata = s.engine.sstableMetadata := by rw [← hengine]
  have hfiles : t.engine.files = s.engine.files := by rw [← hengine]
  have hmem : memory t = memory s := by rw [memory, memory, hactive, hfrozen, hflush]
  refine ⟨?_, ?_, ?_, ?_, ?_, ?_⟩
  · rw [← h.quiet, ← hengine]
  · rw [hactive]
    exact h.unfrozen
  · rw [hmem]
    exact h.clean
  · exact h.tables.congr (by rw [← hengine]) hcat (by rw [← hengine])
  · intro key value ts hin
    rcases hheld key value ts hin with hin | hw
    · refine (h.held key value ts hin).frame (fun hc => hc.congr hcat hfiles) ?_ (fun w hw => .inl (hpending w hw))
      intro m hm x hx _
      exact .inr ⟨m, by rw [hmem]; exact hm, hx⟩
    · exact .inr (.inr hw)
  · rw [hacked]
    intro w hw
    exact ⟨(h.acked w hw).1, (h.acked w hw).2.congr hcat hfiles⟩

/-! ## The steps of the writer -/

theorem covers_id {e e' : Engine} (hcat : e'.sstableMetadata = e.sstableMetadata)
    (hfiles : e'.files = e.files) : ∀ key ts, e.Covers key ts → e'.Covers key ts :=
  fun _ _ h => h.congr hcat hfiles

theorem Inv.takeTimestamp {s t : State} {key value : Bytes} {isTombstone : Bool} (hs : Inv s)
    (hok : key ≠ []) (h : step s (.takeTimestamp key value isTombstone) = some t) : Inv t := by
  obtain ⟨hmem, base, hlog⟩ := hs
  simp only [step] at h
  split at h
  · next ts e hidle htake =>
    obtain ⟨-, hr⟩ := takeTimestamp_eq_some htake
    cases hr
    cases h
    refine ⟨hmem.frame rfl rfl rfl (fun _ _ _ hin => .inl hin) ?_, base,
      hlog.frame rfl rfl rfl rfl (covers_id rfl rfl) hok⟩
    intro w hw
    rw [hidle] at hw
    cases hw
  · cases h

theorem Inv.buffer {s t : State} (hs : Inv s) (h : step s .buffer = some t) : Inv t := by
  obtain ⟨hmem, base, hlog⟩ := hs
  simp only [step] at h
  split at h
  · next w htaken =>
    cases h
    have hkey : w.key ≠ [] := by
      have hwriter := hlog.writer
      simp only [WriterOk, htaken] at hwriter
      exact hwriter
    have hpending : s.writer.pending = none := by rw [htaken]; rfl
    refine ⟨hmem.frame rfl rfl rfl ?_ ?_, base, ?_⟩
    · intro key value ts hin
      have hin' : WalRecord.entry key value ts ∈
          s.engine.wal.file ++ s.sync.records ++ (s.engine.wal.writeBuf ++ [entryOf w]) := hin
      rw [← List.append_assoc, List.mem_append] at hin'
      rcases hin' with hin' | hin'
      · exact .inl hin'
      · cases List.mem_singleton.mp hin'
        exact .inr ⟨w, rfl, rfl, Nat.le_refl _⟩
    · rw [hpending]
      intro w' hw'
      cases hw'
    · refine hlog.append (r := entryOf w) hkey rfl rfl rfl rfl rfl rfl (covers_id rfl rfl) ?_ ?_
      · intro hcheck
        cases hcheck
      · intro heq
        show entryOf w ∈ log _
        rw [heq]
        exact List.mem_append_right _ List.mem_cons_self
  · cases h

theorem Inv.readSeq {s t : State} (hs : Inv s) (h : step s .readSeq = some t) : Inv t := by
  obtain ⟨hmem, base, hlog⟩ := hs
  simp only [step] at h
  split at h
  · next w hbuffered =>
    cases h
    have hin : entryOf w ∈ log s := by
      have hwriter := hlog.writer
      simp only [WriterOk, hbuffered] at hwriter
      exact hwriter
    refine ⟨hmem.frame rfl rfl rfl (fun _ _ _ hin => .inl hin) ?_, base,
      hlog.frame rfl rfl rfl rfl (covers_id rfl rfl) ?_⟩
    · rw [hbuffered]
      exact fun _ hw => hw
    · show entryOf w ∈ (log s).take (base + s.engine.wal.batchSeq)
      rw [← hlog.length, List.take_length]
      exact hin
  · cases h

/-- The memtables change, the tables and the log do not. -/
theorem MemoryOk.memtables {s t : State} (h : MemoryOk s)
    (hquiet : t.engine.batchInProgress = s.engine.batchInProgress)
    (hmanifest : t.engine.manifest = s.engine.manifest)
    (hcat : t.engine.sstableMetadata = s.engine.sstableMetadata)
    (hseq : t.engine.sstableSeq = s.engine.sstableSeq) (hfiles : t.engine.files = s.engine.files)
    (hlog : log t = log s) (hacked : t.acked = s.acked)
    (hunfrozen : t.engine.activeMemtable.frozen = false) (hclean : ∀ m ∈ memory t, MemTable.Clean m)
    (hmem : ∀ m ∈ memory s, ∀ x ∈ m.entries, ∃ m' ∈ memory t, x ∈ m'.entries)
    (hpending : ∀ w ∈ s.writer.pending, w ∈ t.writer.pending ∨ ∃ m' ∈ memory t, w ∈ m'.entries) :
    MemoryOk t := by
  refine ⟨hquiet.trans h.quiet, hunfrozen, hclean, h.tables.congr hmanifest hcat hseq, ?_, ?_⟩
  · intro key value ts hin
    rw [hlog] at hin
    refine (h.held key value ts hin).frame (fun hc => hc.congr hcat hfiles) ?_ hpending
    intro m hm x hx _
    exact .inr (hmem m hm x hx)
  · rw [hacked]
    intro w hw
    exact ⟨(h.acked w hw).1, (h.acked w hw).2.congr hcat hfiles⟩

theorem Inv.memInsert {s t : State} (hs : Inv s) (hok : Allowed s .memInsert)
    (h : step s .memInsert = some t) : Inv t := by
  obtain ⟨hmem, base, hlog⟩ := hs
  simp only [step] at h
  split at h
  · next w seq hsequenced =>
    cases h
    simp only [Allowed, hsequenced, WriterStage.pending, Option.mem_some_iff, forall_eq'] at hok
    have hperm := MemTable.insert_perm hmem.unfrozen hok
    refine ⟨hmem.memtables rfl rfl rfl rfl rfl rfl rfl ?_ ?_ ?_ ?_, base,
      hlog.frame rfl rfl rfl rfl (covers_id rfl rfl) ?_⟩
    · exact (MemTable.insert_frozen _ _ _ _ _).trans hmem.unfrozen
    · intro m hm
      rcases List.mem_cons.mp hm with rfl | hm
      · exact (hmem.clean _ List.mem_cons_self).insert _ _ _ _
      · exact hmem.clean m (List.mem_cons_of_mem _ hm)
    · intro m hm x hx
      rcases List.mem_cons.mp hm with rfl | hm
      · exact ⟨_, List.mem_cons_self, hperm.symm.subset (List.mem_cons_of_mem _ hx)⟩
      · exact ⟨m, List.mem_cons_of_mem _ hm, hx⟩
    · rw [hsequenced]
      intro w' hw'
      cases hw'
      exact .inr ⟨_, List.mem_cons_self, hperm.symm.subset List.mem_cons_self⟩
    · have hwriter := hlog.writer
      simp only [WriterOk, hsequenced] at hwriter
      exact hwriter
  · cases h

theorem Inv.freezeIfFull {s t : State} (hs : Inv s) (h : step s .freezeIfFull = some t) : Inv t := by
  obtain ⟨hmem, base, hlog⟩ := hs
  simp only [step] at h
  split at h
  · next w seq hinserted =>
    cases h
    have hwriter := hlog.writer
    simp only [WriterOk, hinserted] at hwriter
    have hpending : s.writer.pending = none := by rw [hinserted]; rfl
    by_cases hfull : s.engine.activeMemtable.isFull = true
    · rw [Engine.freezeIfFull, if_pos hfull]
      refine ⟨hmem.memtables rfl rfl rfl rfl rfl rfl rfl rfl ?_ ?_ ?_, base,
        hlog.frame rfl rfl rfl rfl (covers_id rfl rfl) hwriter⟩
      · intro m hm
        rcases List.mem_cons.mp hm with rfl | hm
        · exact MemTable.clean_new _ _
        · have hm' : m ∈ (s.engine.frozenMemtables ++ [s.engine.activeMemtable.freeze]) ++ s.flush.held := hm
          simp only [List.mem_append, List.mem_singleton] at hm'
          rcases hm' with (hm' | rfl) | hm'
          · exact hmem.clean m (List.mem_cons_of_mem _ (List.mem_append_left _ hm'))
          · exact (hmem.clean _ List.mem_cons_self).freeze
          · exact hmem.clean m (List.mem_cons_of_mem _ (List.mem_append_right _ hm'))
      · intro m hm x hx
        rcases List.mem_cons.mp hm with rfl | hm
        · refine ⟨s.engine.activeMemtable.freeze, List.mem_cons_of_mem _ (List.mem_append_left _ ?_), hx⟩
          exact List.mem_append_right _ List.mem_cons_self
        · refine ⟨m, List.mem_cons_of_mem _ ?_, hx⟩
          rcases List.mem_append.mp hm with hm | hm
          · exact List.mem_append_left _ (List.mem_append_left _ hm)
          · exact List.mem_append_right _ hm
      · rw [hpending]
        intro w' hw'
        cases hw'
    · rw [Engine.freezeIfFull, if_neg hfull]
      refine ⟨hmem.frame rfl rfl rfl (fun _ _ _ hin => .inl hin) ?_, base,
        hlog.frame rfl rfl rfl rfl (covers_id rfl rfl) hwriter⟩
      rw [hpending]
      intro w' hw'
      cases hw'
  · cases h

theorem Inv.finish {s t : State} (hs : Inv s) (h : step s .finish = some t) : Inv t := by
  obtain ⟨hmem, base, hlog⟩ := hs
  simp only [step] at h
  split at h
  · next w seq hreturning =>
    cases h
    have hwriter := hlog.writer
    simp only [WriterOk, hreturning] at hwriter
    refine ⟨hmem.frame rfl rfl rfl (fun _ _ _ hin => .inl hin) ?_, base,
      ⟨hlog.logged, hlog.length, hlog.sync, hlog.synced, hlog.safe, ?_, trivial⟩⟩
    · rw [hreturning]
      intro w' hw'
      cases hw'
    · intro p hp
      rcases List.mem_append.mp hp with hp | hp
      · exact hlog.returned p hp
      · rw [List.mem_singleton.mp hp]
        exact hwriter
  · cases h

/-! ## The steps of the flush worker -/

theorem Inv.pop {s t : State} (hs : Inv s) (h : step s .pop = some t) : Inv t := by
  obtain ⟨hmem, base, hlog⟩ := hs
  simp only [step] at h
  split at h
  · next m rest hidle hfrozen =>
    cases h
    have hm : m ∈ memory s := by
      refine List.mem_cons_of_mem _ (List.mem_append_left _ ?_)
      rw [hfrozen]
      exact List.mem_cons_self
    have hrest : ∀ m' ∈ rest, m' ∈ memory s := by
      intro m' hm'
      refine List.mem_cons_of_mem _ (List.mem_append_left _ ?_)
      rw [hfrozen]
      exact List.mem_cons_of_mem _ hm'
    refine ⟨hmem.memtables rfl rfl rfl rfl rfl rfl rfl hmem.unfrozen ?_ ?_ (fun w hw => .inl hw), base,
      hlog.frame rfl rfl rfl rfl (covers_id rfl rfl) (hlog.writer.frame rfl rfl)⟩
    · intro m' hm'
      simp only [memory, List.mem_cons, List.mem_append] at hm'
      rcases hm' with rfl | hm' | hm'
      · exact hmem.clean _ List.mem_cons_self
      · exact hmem.clean m' (hrest m' hm')
      · split at hm'
        · cases hm'
        · rw [List.mem_singleton.mp hm']
          exact hmem.clean m hm
    · intro m' hm' x hx
      simp only [memory, List.mem_cons, List.mem_append, hfrozen, hidle] at hm' ⊢
      rcases hm' with rfl | (rfl | hm') | hm'
      · exact ⟨_, .inl rfl, hx⟩
      · split
        · next hzero =>
          rw [(hmem.clean m' hm).counted hzero] at hx
          cases hx
        · exact ⟨m', .inr (.inr (List.mem_singleton.mpr rfl)), hx⟩
      · exact ⟨m', .inr (.inl hm'), hx⟩
      · cases hm'
  · cases h

/-- The keys of the log are not empty, so a flush covers what the log has of a memtable. -/
theorem Inv.doFlush {s t : State} (hs : Inv s) (h : step s .doFlush = some t) : Inv t := by
  obtain ⟨hmem, base, hlog⟩ := hs
  simp only [step] at h
  split at h
  · next m hpopped =>
    cases h
    have hm : m ∈ memory s := by
      refine List.mem_cons_of_mem _ (List.mem_append_right _ ?_)
      rw [hpopped]
      exact List.mem_cons_self
    have hcov : ∀ key ts, s.engine.Covers key ts → (s.engine.doFlush m).Covers key ts :=
      fun key ts hc => hc.doFlush hmem.tables m
    have hwal := doFlush_wal s.engine m
    have hsame : log { s with engine := s.engine.doFlush m, flush := .flushed } = log s := log_congr hwal rfl
    have hmemory : ∀ m' ∈ memory s, m' = m ∨ m' ∈ s.engine.activeMemtable :: s.engine.frozenMemtables := by
      intro m' hm'
      simp only [memory, hpopped, FlushStage.held, List.mem_cons, List.mem_append, List.not_mem_nil,
        or_false] at hm' ⊢
      rcases hm' with rfl | hm' | rfl
      · exact .inr (.inl rfl)
      · exact .inr (.inr hm')
      · exact .inl rfl
    have hkeep : ∀ m', m' ∈ s.engine.activeMemtable :: s.engine.frozenMemtables ↔
        m' ∈ memory { s with engine := s.engine.doFlush m, flush := .flushed } := by
      intro m'
      simp [memory, FlushStage.held]
    refine ⟨⟨?_, ?_, ?_, hmem.tables.doFlush m, ?_, ?_⟩, base, ?_⟩
    · exact (doFlush_batchInProgress _ _).trans hmem.quiet
    · rw [doFlush_activeMemtable]
      exact hmem.unfrozen
    · intro m' hm'
      rw [← hkeep, List.mem_cons] at hm'
      rcases hm' with rfl | hm'
      · exact hmem.clean _ List.mem_cons_self
      · exact hmem.clean m' (List.mem_cons_of_mem _ (List.mem_append_left _ hm'))
    · intro key value ts hin
      have hin' : WalRecord.entry key value ts ∈ log s := hsame ▸ hin
      have hkey : key ≠ [] := hlog.logged _ hin'
      refine (hmem.held key value ts hin').frame (hcov key ts) ?_ (fun w hw => .inl hw)
      intro m' hm' x hx hxkey
      rcases hmemory m' hm' with rfl | hm'
      · have hflush := doFlush_covers s.engine (hmem.clean m' hm) hx (hxkey ▸ hkey)
        rw [hxkey] at hflush
        exact .inl hflush
      · exact .inr ⟨m', (hkeep m').mp hm', hx⟩
    · intro w hw
      exact ⟨(hmem.acked w hw).1, hcov _ _ (hmem.acked w hw).2⟩
    · exact hlog.frame hwal rfl (doFlush_syncedSeq _ _) rfl hcov (hlog.writer.frame rfl hsame)
  · cases h

/-- Where the step is allowed every logged write is covered when the checkpoint is appended. -/
theorem Inv.checkpoint {s t : State} (hs : Inv s) (hok : Allowed s .checkpoint)
    (h : step s .checkpoint = some t) : Inv t := by
  obtain ⟨hmem, base, hlog⟩ := hs
  simp only [step] at h
  split at h
  · next hflushed =>
    cases h
    obtain ⟨hnone, hempty⟩ := hok
    have hcovered : ∀ a ∈ log s, RecordCovered s.engine a := by
      intro a ha
      cases a with
      | entry key value ts =>
        rcases hmem.held key value ts ha with hc | ⟨m, hm, x, hx, -⟩ | ⟨w, hw, -⟩
        · exact hc
        · have hm' : m ∈ s.engine.activeMemtable :: s.engine.frozenMemtables := by
            simpa [memory, hflushed, FlushStage.held] using hm
          rw [(hmem.clean m hm).counted (hempty m hm')] at hx
          cases hx
        · rw [hnone] at hw
          cases hw
      | _ => trivial
    have hbatch : (if s.engine.batchInProgress = true then s.engine.batchTs else 0) = 0 := by
      rw [hmem.quiet]
      rfl
    refine ⟨hmem.frame rfl (by rw [hflushed]; rfl) rfl ?_ (fun w hw => hw), base, ?_⟩
    · intro key value ts hin
      have hin' : WalRecord.entry key value ts ∈
          s.engine.wal.file ++ s.sync.records ++ (s.engine.wal.writeBuf ++ [_]) := hin
      rw [← List.append_assoc, List.mem_append] at hin'
      rcases hin' with hin' | hin'
      · exact .inl hin'
      · cases List.mem_singleton.mp hin'
    · refine hlog.append (r := .checkpoint s.engine.globalTs _) hbatch rfl rfl rfl rfl rfl rfl
        (covers_id rfl rfl) (fun _ => hcovered) ?_
      intro heq
      exact hlog.writer.append rfl heq
  · cases h

/-! ## The steps of the sync worker -/

/-- A step of the sync worker moves records along the log. -/
theorem LogOk.moved {base : ℕ} {s t : State} (h : LogOk base s) (hlog : log t = log s)
    (hbatch : t.engine.wal.batchSeq = s.engine.wal.batchSeq) (hret : t.returned = s.returned)
    (hcat : t.engine.sstableMetadata = s.engine.sstableMetadata) (hfiles : t.engine.files = s.engine.files)
    (hwriter : t.writer = s.writer) (hsync : SyncOk base t)
    (hsynced : base + t.engine.syncedSeq ≤ t.engine.wal.file.length) : LogOk base t := by
  refine ⟨?_, ?_, hsync, hsynced, ?_, ?_, h.writer.frame hwriter hlog⟩
  · rw [hlog]
    exact h.logged
  · rw [hlog, hbatch]
    exact h.length
  · rw [hlog]
    exact safe_mono (covers_id hcat hfiles) h.safe
  · rw [hret, hlog]
    exact h.returned

theorem Inv.syncStart {s t : State} {force : Bool} (hs : Inv s) (h : step s (.syncStart force) = some t) :
    Inv t := by
  simp only [step] at h
  split at h
  · next hidle =>
    split at h
    · cases h
      exact hs
    · obtain ⟨hmem, base, hlog⟩ := hs
      split at h
      · cases h
        refine ⟨hmem.frame rfl rfl rfl (fun _ _ _ hin => .inl hin) (fun w hw => hw), base, ?_⟩
        exact hlog.moved rfl rfl rfl rfl rfl rfl hlog.sync hlog.synced
      · cases h
        have hrecords : s.sync.records = [] := by rw [hidle]; rfl
        have hsame : log { s with
            engine := { s.engine with wal := s.engine.wal.swapBuf }
            sync := .swapped s.engine.wal.writeBuf s.engine.wal.batchSeq } = log s := by
          rw [log, log, hrecords, List.append_nil]
          exact List.append_nil _
        refine ⟨hmem.frame rfl rfl rfl ?_ (fun w hw => hw), base, ?_⟩
        · intro key value ts hin
          rw [hsame] at hin
          exact .inl hin
        · refine hlog.moved hsame rfl rfl rfl rfl rfl ?_ hlog.synced
          have hlength := hlog.length
          rw [log, hrecords, List.append_nil, List.length_append] at hlength
          exact hlength
  · cases h

theorem Inv.syncWrite {s t : State} (hs : Inv s) (h : step s .syncWrite = some t) : Inv t := by
  obtain ⟨hmem, base, hlog⟩ := hs
  simp only [step] at h
  split at h
  · next records seq hswapped =>
    cases h
    have hsame : log { s with
        engine := { s.engine with wal := s.engine.wal.appendFile records }
        sync := .persisted seq } = log s := by
      simp only [log, hswapped, SyncStage.records, WAL.appendFile, List.append_nil]
    have hsync := hlog.sync
    simp only [SyncOk, hswapped] at hsync
    have hlength : (s.engine.wal.appendFile records).file.length =
        s.engine.wal.file.length + records.length := List.length_append
    have hsynced := hlog.synced
    refine ⟨hmem.frame rfl rfl rfl ?_ (fun w hw => hw), base, ?_⟩
    · intro key value ts hin
      rw [hsame] at hin
      exact .inl hin
    · refine hlog.moved hsame rfl rfl rfl rfl rfl ?_ ?_
      · show base + seq ≤ (s.engine.wal.appendFile records).file.length
        omega
      · show base + s.engine.syncedSeq ≤ (s.engine.wal.appendFile records).file.length
        omega
  · cases h

theorem Inv.syncPublish {s t : State} (hs : Inv s) (h : step s .syncPublish = some t) : Inv t := by
  obtain ⟨hmem, base, hlog⟩ := hs
  simp only [step] at h
  split at h
  · next seq hpersisted =>
    cases h
    have hsame : log { s with
        engine := { s.engine with wal := s.engine.wal.markSynced seq, syncedSeq := seq }
        sync := .idle } = log s := by
      simp only [log, hpersisted, SyncStage.records, WAL.markSynced]
    have hsync := hlog.sync
    simp only [SyncOk, hpersisted] at hsync
    refine ⟨hmem.frame rfl rfl rfl ?_ (fun w hw => hw), base, ?_⟩
    · intro key value ts hin
      rw [hsame] at hin
      exact .inl hin
    · exact hlog.moved hsame rfl rfl rfl rfl rfl trivial hsync
  · cases h

/-! ## The crash -/

/-- In the file every entry is replayed or stands before a checkpoint, where it is covered. -/
theorem LogOk.file_covered {base : ℕ} {s : State} (h : LogOk base s) {key value : Bytes} {ts : ℕ}
    (hin : .entry key value ts ∈ s.engine.wal.file) :
    s.engine.Covers key ts ∨
      ∃ kv ∈ (WAL.recover s.engine.wal.file).entries, kv.key = key ∧ ts ≤ kv.timestamp := by
  have hfile : ∀ r ∈ s.engine.wal.file, r ∈ log s := by
    intro r hr
    exact List.mem_append_left _ (List.mem_append_left _ hr)
  obtain ⟨-, -, hall⟩ := WAL.recover_plain fun r hr => (h.logged r (hfile r hr)).plain
  rcases hall key value ts hin with hreplayed | ⟨before, t, after, hsplit, hbefore⟩
  · exact .inr ⟨_, hreplayed, rfl, Nat.le_refl _⟩
  · have hsafe : (s.engine.wal.file).Pairwise fun a b => b.isCheckpoint = true → RecordCovered s.engine a := by
      have hsafe := h.safe
      rw [log, List.append_assoc, List.pairwise_append] at hsafe
      exact hsafe.1
    rw [hsplit, List.pairwise_append] at hsafe
    exact .inl (hsafe.2.2 _ hbefore _ List.mem_cons_self rfl)

/-- A write that is synced has its record in the file. -/
theorem LogOk.file_of_synced {base : ℕ} {s : State} (h : LogOk base s) {w : KeyValuePair}
    (hw : w ∈ syncedWrites s) : entryOf w ∈ s.engine.wal.file := by
  obtain ⟨p, hp, rfl⟩ := List.mem_map.mp hw
  obtain ⟨hret, hseq⟩ := List.mem_filter.mp hp
  have hle : p.2 ≤ s.engine.syncedSeq := of_decide_eq_true hseq
  have hsynced := h.synced
  have hin := List.take_subset_take_left (log s)
    (show base + p.2 ≤ s.engine.wal.file.length by omega) (h.returned p hret)
  rw [log, List.append_assoc, List.take_left' rfl] at hin
  exact hin

theorem Inv.crash {s t : State} {cfg : EngineConfig} (hs : Inv s) (hok : Allowed s (.crash cfg))
    (h : step s (.crash cfg) = some t) : Inv t := by
  obtain ⟨hmem, base, hlog⟩ := hs
  simp only [step] at h
  cases h
  have hfile : ∀ r ∈ s.engine.wal.file, Logged r := by
    intro r hr
    exact hlog.logged r (List.mem_append_left _ (List.mem_append_left _ hr))
  obtain ⟨hrestarted, hcovers⟩ := construct_covers cfg hmem.tables (fun r hr => (hfile r hr).plain) hok
  obtain ⟨cs, hcsfile, hcs, hbuf, hbatch⟩ := hrestarted.log
  have hentry : ∀ key value ts, .entry key value ts ∈ s.engine.wal.file →
      (construct cfg s.engine.directory).Covers key ts := by
    intro key value ts hin
    exact hcovers key ts (hfile _ hin) (hlog.file_covered hin)
  have hnewlog : log ⟨construct cfg s.engine.directory, .idle, .idle, .idle, [], s.acked ++ syncedWrites s⟩ =
      s.engine.wal.file ++ cs := by
    simp only [log, SyncStage.records, hcsfile, hbuf, List.append_nil]
  have hcovered : ∀ r ∈ s.engine.wal.file ++ cs,
      Logged r ∧ RecordCovered (construct cfg s.engine.directory) r := by
    intro r hr
    rcases List.mem_append.mp hr with hr | hr
    · refine ⟨hfile r hr, ?_⟩
      cases r with
      | entry key value ts => exact hentry key value ts hr
      | _ => trivial
    · obtain ⟨ts, rfl⟩ := hcs r hr
      exact ⟨rfl, trivial⟩
  refine ⟨⟨hrestarted.quiet, hrestarted.unfrozen, ?_, hrestarted.tables, ?_, ?_⟩, s.engine.wal.file.length,
    ⟨?_, ?_, trivial, ?_, ?_, (fun _ hp => by cases hp), trivial⟩⟩
  · intro m hm
    simp only [memory, FlushStage.held, hrestarted.frozen, List.append_nil, List.mem_singleton] at hm
    rw [hm]
    exact hrestarted.clean
  · intro key value ts hin
    rw [hnewlog] at hin
    exact .inl (hcovered _ hin).2
  · intro w hw
    rcases List.mem_append.mp hw with hw | hw
    · obtain ⟨hkey, hc⟩ := hmem.acked w hw
      exact ⟨hkey, hcovers _ _ hkey (.inl hc)⟩
    · have hin := hlog.file_of_synced hw
      exact ⟨hfile _ hin, hentry _ _ _ hin⟩
  · rw [hnewlog]
    exact fun r hr => (hcovered r hr).1
  · rw [hnewlog, List.length_append]
    exact congrArg _ hbatch.symm
  · show s.engine.wal.file.length + (construct cfg s.engine.directory).syncedSeq ≤
      (construct cfg s.engine.directory).wal.file.length
    rw [hrestarted.syncedSeq, hcsfile, List.length_append]
    omega
  · rw [hnewlog]
    exact List.pairwise_of_forall_mem_list fun a ha _ _ _ => (hcovered a ha).2

/-! ## Runs -/

theorem memoryOk_init (cfg : EngineConfig) : MemoryOk (init cfg) where
  quiet := rfl
  unfrozen := rfl
  clean m hm := by
    rw [List.mem_singleton.mp hm]
    exact MemTable.clean_new _ _
  tables := ⟨construct_inStep cfg Directory.empty, rfl⟩
  held _ _ _ hin := by cases hin
  acked _ hw := by cases hw

theorem logOk_init (cfg : EngineConfig) : LogOk 0 (init cfg) where
  logged _ hr := by cases hr
  length := rfl
  sync := trivial
  synced := Nat.le_refl _
  safe := List.Pairwise.nil
  returned _ hp := by cases hp
  writer := trivial

theorem inv_init (cfg : EngineConfig) : Inv (init cfg) := ⟨memoryOk_init cfg, 0, logOk_init cfg⟩

theorem Inv.step {s t : State} {a : Action} (hok : Allowed s a) (h : step s a = some t) (hs : Inv s) :
    Inv t := by
  cases a with
  | takeTimestamp key value isTombstone => exact hs.takeTimestamp hok h
  | buffer => exact hs.buffer h
  | readSeq => exact hs.readSeq h
  | memInsert => exact hs.memInsert hok h
  | freezeIfFull => exact hs.freezeIfFull h
  | finish => exact hs.finish h
  | pop => exact hs.pop h
  | doFlush => exact hs.doFlush h
  | checkpoint => exact hs.checkpoint hok h
  | syncStart force => exact hs.syncStart h
  | syncWrite => exact hs.syncWrite h
  | syncPublish => exact hs.syncPublish h
  | crash cfg => exact hs.crash hok h

/-- A configuration in which every insertion fills the memtable. -/
def fullConfig : EngineConfig := { smallConfig with memtableMaxBytes := 1 }

def insertSteps (key value : Bytes) : List Action :=
  [.takeTimestamp key value false, .buffer, .readSeq, .memInsert, .freezeIfFull, .finish]

def syncSteps : List Action := [.syncStart true, .syncWrite, .syncPublish]

/-- The first write is flushed and checkpointed before the second one is logged. -/
def survivingRun : List Action :=
  insertSteps [1] [2] ++ ([.pop, .doFlush, .checkpoint] : List Action) ++ insertSteps [3] [4] ++ syncSteps ++
    ([.crash fullConfig] : List Action)

/-- The second write is logged before the checkpoint of the first one, and its own memtable is not
flushed when the process ends. -/
def losingRun : List Action :=
  insertSteps [1] [2] ++ insertSteps [3] [4] ++ ([.pop, .doFlush, .checkpoint] : List Action) ++ syncSteps ++
    ([.crash fullConfig] : List Action)

theorem losingRun_enabled : (checked step anyStep (init fullConfig) losingRun).isSome = true := by
  decide

end Kvdb.Durability
