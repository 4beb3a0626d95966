import Kvdb.Base.Types
import Mathlib.Data.List.TakeWhile

/-! # The write-ahead log (`wal.cpp`)

The log is kept record by record: the records in the file, and those in `write_buf_` that no sync
has written yet. Batch begin, commit and abort markers carry no sequence number of their own except
the commit. -/
namespace Kvdb
set_option autoImplicit false

inductive WalRecord where
  | entry (key value : Bytes) (timestamp : ℕ)
  | checkpoint (timestamp batchTs : ℕ)
  | batchBegin (batchTs : ℕ)
  | batchCommit (batchTs : ℕ)
  | abort (batchTs : ℕ)
  deriving DecidableEq, Repr

namespace WalRecord

/-- Bytes of the serialised record: the checksum, the length or sentinel word and the body. -/
def size : WalRecord → ℕ
  | .entry key value _ => 4 + (4 + key.length + 4 + value.length + 8)
  | .checkpoint _ _ => 4 + (4 + 8 + 8)
  | .batchBegin _ => 4 + (4 + 8)
  | .batchCommit _ => 4 + (4 + 8)
  | .abort _ => 4 + (4 + 8)

def isCheckpoint : WalRecord → Bool
  | .checkpoint _ _ => true
  | _ => false

/-- The first pass of `Recover` has no case for these two sentinels: it takes them for a key
length that runs past the end of the file, and stops. -/
def stopsFirstPass : WalRecord → Bool
  | .batchBegin _ => true
  | .batchCommit _ => true
  | _ => false

end WalRecord

structure WAL where
  file : List WalRecord
  writeBuf : List WalRecord
  batchSeq : ℕ
  syncedSeq : ℕ
  deriving DecidableEq, Repr

namespace WAL

def new : WAL := ⟨[], [], 0, 0⟩

/-- `Buffer`. -/
def buffer (w : WAL) (key value : Bytes) (timestamp : ℕ) : WAL :=
  { w with writeBuf := w.writeBuf ++ [.entry key value timestamp], batchSeq := w.batchSeq + 1 }

def bufferAbort (w : WAL) (batchTs : ℕ) : WAL :=
  { w with writeBuf := w.writeBuf ++ [.abort batchTs] }

def bufferBatchBegin (w : WAL) (batchTs : ℕ) : WAL :=
  { w with writeBuf := w.writeBuf ++ [.batchBegin batchTs] }

def bufferBatchCommit (w : WAL) (batchTs : ℕ) : WAL :=
  { w with writeBuf := w.writeBuf ++ [.batchCommit batchTs], batchSeq := w.batchSeq + 1 }

/-- `WriteCheckpoint`: the record is appended at the current end of the buffer. -/
def writeCheckpoint (w : WAL) (timestamp batchTs : ℕ) : WAL :=
  { w with writeBuf := w.writeBuf ++ [.checkpoint timestamp batchTs], batchSeq := w.batchSeq + 1 }

def bufBytes (w : WAL) : ℕ := (w.writeBuf.map WalRecord.size).sum

/-- The three parts of a `Sync` that persists: the buffer is swapped out under the lock, written
and fsynced outside it, and `synced_seq_` is set under the lock. -/
def swapBuf (w : WAL) : WAL := { w with writeBuf := [] }
def appendFile (w : WAL) (rs : List WalRecord) : WAL := { w with file := w.file ++ rs }
def markSynced (w : WAL) (seq : ℕ) : WAL := { w with syncedSeq := seq }

/-- `Sync` leaves the buffer alone. -/
def tooSmall (w : WAL) (force : Bool) : Bool :=
  !force && decide (w.bufBytes < Config.walMinSyncBytes)

/-- `Sync`: the sequence number and whether the buffer was persisted. -/
def sync (w : WAL) (force : Bool) : (ℕ × Bool) × WAL :=
  if w.writeBuf.isEmpty then ((w.syncedSeq, false), w)
  else if w.tooSmall force then ((w.batchSeq, false), w.markSynced w.batchSeq)
  else ((w.batchSeq, true), (w.swapBuf.appendFile w.writeBuf).markSynced w.batchSeq)

/-! ## Recovery -/

/-- The first pass: what follows the last checkpoint it sees, with that checkpoint. -/
def lastCheckpoint : List WalRecord → (ℕ × ℕ) × List WalRecord → (ℕ × ℕ) × List WalRecord
  | [], best => best
  | r :: rs, best =>
    if r.stopsFirstPass then best
    else match r with
      | .checkpoint ts batchTs => lastCheckpoint rs ((ts, batchTs), rs)
      | _ => lastCheckpoint rs best

/-- The second pass reads up to the next checkpoint, if the first pass has missed one: that record is
not stepped over as a whole, its timestamps are read as a record whose checksum does not match. -/
def secondPass (rs : List WalRecord) : List WalRecord := rs.takeWhile fun r => !r.isCheckpoint

/-- The entries of a stretch of the log. A replayed entry carries no tombstone flag. -/
def replayEntries : List WalRecord → List KeyValuePair
  | [] => []
  | .entry key value ts :: rs => ⟨key, value, ts, false⟩ :: replayEntries rs
  | .checkpoint _ _ :: rs => replayEntries rs
  | .batchBegin _ :: rs => replayEntries rs
  | .batchCommit _ :: rs => replayEntries rs
  | .abort _ :: rs => replayEntries rs

/-- `batch_opened` after a record. -/
def batchOpened (opened : List ℕ) : WalRecord → List ℕ
  | .batchBegin ts => ts :: opened
  | .batchCommit ts => opened.filter fun t => !decide (t = ts)
  | .abort ts => opened.filter fun t => !decide (t = ts)
  | _ => opened

/-- `batch_closed` after a record. -/
def batchClosed (closed : List ℕ) : WalRecord → List ℕ
  | .batchCommit ts => ts :: closed
  | .abort ts => ts :: closed
  | _ => closed

def abortedTs : WalRecord → Option ℕ
  | .abort ts => some ts
  | _ => none

/-- The batches to treat as aborted: those with an abort record, and those still open at the end of
the log that have entries after the checkpoint. -/
def abortedBatches (checkpointBatchTs : ℕ) (rs : List WalRecord) : List ℕ :=
  let opened := rs.foldl batchOpened (if checkpointBatchTs = 0 then [] else [checkpointBatchTs])
  rs.filterMap abortedTs ++ opened.filter fun ts =>
    !decide (ts ∈ rs.foldl batchClosed []) && decide (ts ∈ (replayEntries rs).map KeyValuePair.timestamp)

/-- What `Recover` returns. -/
structure Recovered where
  checkpointTs : ℕ
  aborted : List ℕ
  entries : List KeyValuePair
  deriving DecidableEq, Repr

/-- `Recover`. -/
def recover (file : List WalRecord) : Recovered :=
  let r := lastCheckpoint file ((0, 0), file)
  ⟨r.1.1, abortedBatches r.1.2 (secondPass r.2), replayEntries (secondPass r.2)⟩

/-! ## Recovery of a log without batches -/

/-- The records of a run without batches: entries, and checkpoints with no batch open. -/
def Plain : WalRecord → Prop
  | .entry _ _ _ => True
  | .checkpoint _ batchTs => batchTs = 0
  | _ => False

/-- The first pass reads a plain log to its end: what it returns follows a checkpoint, or is the
whole log, and holds no checkpoint. -/
theorem lastCheckpoint_plain (rs : List WalRecord) (best : (ℕ × ℕ) × List WalRecord)
    (hplain : ∀ r ∈ rs, Plain r) :
    (lastCheckpoint rs best = best ∧ ∀ r ∈ rs, r.isCheckpoint = false) ∨
      ∃ before ts after, rs = before ++ .checkpoint ts 0 :: after ∧
        lastCheckpoint rs best = ((ts, 0), after) ∧ ∀ r ∈ after, r.isCheckpoint = false := by
  induction rs generalizing best with
  | nil => exact .inl ⟨rfl, fun _ hr => by cases hr⟩
  | cons r rs ih =>
    have hrs : ∀ r ∈ rs, Plain r := fun r hr => hplain r (List.mem_cons_of_mem _ hr)
    have hr : Plain r := hplain r List.mem_cons_self
    cases r with
    | entry key value ts =>
      rcases ih best hrs with ⟨heq, hnone⟩ | ⟨before, t, after, hsplit, heq, hnone⟩
      · refine .inl ⟨heq, ?_⟩
        intro r hr
        rcases List.mem_cons.mp hr with rfl | hr
        · rfl
        · exact hnone r hr
      · refine .inr ⟨.entry key value ts :: before, t, after, ?_, heq, hnone⟩
        rw [hsplit, List.cons_append]
    | checkpoint ts batchTs =>
      cases hr
      rcases ih ((ts, 0), rs) hrs with ⟨heq, hnone⟩ | ⟨before, t, after, hsplit, heq, hnone⟩
      · exact .inr ⟨[], ts, rs, rfl, heq, hnone⟩
      · refine .inr ⟨.checkpoint ts 0 :: before, t, after, ?_, heq, hnone⟩
        rw [hsplit, List.cons_append]
    | batchBegin ts => cases hr
    | batchCommit ts => cases hr
    | abort ts => cases hr

theorem secondPass_eq {rs : List WalRecord} (h : ∀ r ∈ rs, r.isCheckpoint = false) : secondPass rs = rs := by
  refine List.takeWhile_eq_self_iff.mpr ?_
  intro r hr
  rw [h r hr]
  rfl

theorem abortedBatches_plain {rs : List WalRecord} (hplain : ∀ r ∈ rs, Plain r) : abortedBatches 0 rs = [] := by
  have haborted : rs.filterMap abortedTs = [] := by
    rw [List.filterMap_eq_nil_iff]
    intro r hr
    have := hplain r hr
    cases r <;> first | rfl | cases this
  have hopened : rs.foldl batchOpened [] = [] := by
    clear haborted
    induction rs with
    | nil => rfl
    | cons r rs ih =>
      have hr := hplain r List.mem_cons_self
      rw [List.foldl_cons]
      have hstep : batchOpened [] r = [] := by cases r <;> first | rfl | cases hr
      rw [hstep]
      exact ih fun r hr => hplain r (List.mem_cons_of_mem _ hr)
  simp [abortedBatches, haborted, hopened]

theorem mem_replayEntries (rs : List WalRecord) (x : KeyValuePair) :
    x ∈ replayEntries rs ↔ x.isTombstone = false ∧ .entry x.key x.value x.timestamp ∈ rs := by
  induction rs with
  | nil => simp [replayEntries]
  | cons r rs ih =>
    cases r with
    | entry key value ts =>
      rw [replayEntries, List.mem_cons, List.mem_cons, ih]
      obtain ⟨xkey, xvalue, xts, xtomb⟩ := x
      constructor
      · rintro (hx | ⟨htomb, hx⟩)
        · cases hx
          exact ⟨rfl, .inl rfl⟩
        · exact ⟨htomb, .inr hx⟩
      · rintro ⟨htomb, hx | hx⟩
        · cases hx
          cases htomb
          exact .inl rfl
        · exact .inr ⟨htomb, hx⟩
    | _ => simp [replayEntries, ih]

theorem replayEntries_append (rs rs' : List WalRecord) :
    replayEntries (rs ++ rs') = replayEntries rs ++ replayEntries rs' := by
  induction rs with
  | nil => rfl
  | cons r rs ih => cases r <;> simp [replayEntries, ih]

/-- Recovery of a plain log: no batch is aborted, the entries replayed are entries of the log, and
every entry is replayed or stands before a checkpoint. -/
theorem recover_plain {file : List WalRecord} (hplain : ∀ r ∈ file, Plain r) :
    (recover file).aborted = [] ∧
      (∀ x ∈ (recover file).entries, x.isTombstone = false ∧ .entry x.key x.value x.timestamp ∈ file) ∧
      ∀ key value ts, .entry key value ts ∈ file →
        ⟨key, value, ts, false⟩ ∈ (recover file).entries ∨
          ∃ before t after, file = before ++ .checkpoint t 0 :: after ∧ .entry key value ts ∈ before := by
  rcases lastCheckpoint_plain file ((0, 0), file) hplain with
    ⟨heq, hnone⟩ | ⟨before, t, after, hsplit, heq, hnone⟩
  · have hrec : recover file = ⟨0, abortedBatches 0 file, replayEntries file⟩ := by
      simp only [recover, heq, secondPass_eq hnone]
    rw [hrec]
    refine ⟨abortedBatches_plain hplain, fun x hx => (mem_replayEntries file x).mp hx, ?_⟩
    intro key value ts hin
    exact .inl ((mem_replayEntries file _).mpr ⟨rfl, hin⟩)
  · have hrec : recover file = ⟨t, abortedBatches 0 after, replayEntries after⟩ := by
      simp only [recover, heq, secondPass_eq hnone]
    have hafter : ∀ r ∈ after, r ∈ file := by
      intro r hr
      rw [hsplit]
      exact List.mem_append_right _ (List.mem_cons_of_mem _ hr)
    rw [hrec]
    refine ⟨abortedBatches_plain fun r hr => hplain r (hafter r hr), ?_, ?_⟩
    · intro x hx
      obtain ⟨htomb, hin⟩ := (mem_replayEntries after x).mp hx
      exact ⟨htomb, hafter _ hin⟩
    · intro key value ts hin
      rw [hsplit, List.mem_append, List.mem_cons] at hin
      rcases hin with hin | hin | hin
      · exact .inr ⟨before, t, after, hsplit, hin⟩
      · cases hin
      · exact .inl ((mem_replayEntries after _).mpr ⟨rfl, hin⟩)

end WAL

end Kvdb
