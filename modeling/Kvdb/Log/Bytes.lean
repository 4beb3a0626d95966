import Kvdb.Log.Wal
import Kvdb.Log.Crc32
import Kvdb.Lib.LittleEndian
import Kvdb.Lib.Scan

/-! # The write-ahead log byte by byte (`wal.cpp`)

The file and `write_buf_` as bytes. `SerializeRecord`, `WriteSentinelRecord` and `WriteCheckpoint` put a
checksum and a length or sentinel word in front of a record; the two passes of `Recover` and the scan of
`TrimToLastCheckpoint` read the file from the front and do not agree on which sentinels they know. The
host is little-endian, so the length words that go into a checksum are the bytes of the file. -/
namespace Kvdb.WalBytes
set_option autoImplicit false

open LittleEndian Scan Crc32
open WAL (Recovered abortedBatches replayEntries)

def checkpointSentinel : ℕ := 0xFFFFFFFF
def abortSentinel : ℕ := 0xFFFFFFFE
def commitSentinel : ℕ := 0xFFFFFFFC
def beginSentinel : ℕ := 0xFFFFFFFA

/-! ## Writing -/

def withChecksum (body : Bytes) : Bytes := leBytes 4 (crc32 body) ++ body

/-- `SerializeRecord`. -/
def serializeRecord (key value : Bytes) (timestamp : ℕ) : Bytes :=
  withChecksum (leBytes 4 key.length ++ (key ++ (leBytes 4 value.length ++ (value ++ leBytes 8 timestamp))))

/-- `WriteSentinelRecord`. -/
def writeSentinelRecord (sentinel ts : ℕ) : Bytes := withChecksum (leBytes 4 sentinel ++ leBytes 8 ts)

/-- The record of `WriteCheckpoint`. -/
def checkpointRecord (timestamp batchTs : ℕ) : Bytes :=
  withChecksum (leBytes 4 checkpointSentinel ++ (leBytes 8 timestamp ++ leBytes 8 batchTs))

def encode : WalRecord → Bytes
  | .entry key value timestamp => serializeRecord key value timestamp
  | .checkpoint timestamp batchTs => checkpointRecord timestamp batchTs
  | .batchBegin batchTs => writeSentinelRecord beginSentinel batchTs
  | .batchCommit batchTs => writeSentinelRecord commitSentinel batchTs
  | .abort batchTs => writeSentinelRecord abortSentinel batchTs

def encodeAll (rs : List WalRecord) : Bytes := rs.flatMap encode

theorem length_encode (r : WalRecord) : (encode r).length = r.size := by
  cases r with
  | entry key value ts =>
    simp [encode, serializeRecord, withChecksum, WalRecord.size]
    omega
  | _ => simp [encode, checkpointRecord, writeSentinelRecord, withChecksum, WalRecord.size]

@[simp] theorem encodeAll_nil : encodeAll [] = [] := rfl

@[simp] theorem encodeAll_cons (r : WalRecord) (rs : List WalRecord) :
    encodeAll (r :: rs) = encode r ++ encodeAll rs := List.flatMap_cons

@[simp] theorem encodeAll_append (rs rs' : List WalRecord) :
    encodeAll (rs ++ rs') = encodeAll rs ++ encodeAll rs' := List.flatMap_append

/-! ## Reading -/

/-- The checksum, the length or sentinel word and what follows them. -/
def readHeader (bs : Bytes) : Option (ℕ × ℕ × Bytes) :=
  (readN 4 bs).bind fun c => (readN 4 c.2).map fun l => (ofLe c.1, ofLe l.1, l.2)

/-- An entry behind its length word, with its checksum compared. -/
def readEntry (checksum keyLen : ℕ) (bs : Bytes) : Option (KeyValuePair × Bytes) :=
  (readN keyLen bs).bind fun key => (readN 4 key.2).bind fun l => (readN (ofLe l.1) l.2).bind fun value =>
    (readN 8 value.2).bind fun ts =>
      if crcOf [leBytes 4 keyLen, key.1, leBytes 4 (ofLe l.1), value.1, ts.1] = checksum then
        some (⟨key.1, value.1, ofLe ts.1, false⟩, ts.2)
      else none

/-- What the first pass keeps: the timestamps of the last checkpoint and what follows it. -/
structure Found where
  ts : ℕ
  batchTs : ℕ
  rest : Bytes
  deriving DecidableEq, Repr

/-- A checkpoint in the first pass: of 16 bytes, else one of 8 bytes without a batch, else it is
stepped over as if it had 8 bytes. -/
def firstCheckpoint (checksum : ℕ) (bs : Bytes) (found : Found) : Option (Bytes × Found) :=
  (readN 8 bs).map fun ts =>
    match (readN 16 bs).filter fun b => decide (crcOf [leBytes 4 checkpointSentinel, b.1] = checksum) with
    | some b => (b.2, ⟨ofLe ts.1, ofLe (b.1.drop 8), b.2⟩)
    | none =>
      if crcOf [leBytes 4 checkpointSentinel, ts.1] = checksum then
        (ts.2, { found with ts := ofLe ts.1, rest := ts.2 })
      else (ts.2, found)

/-- One record of the first pass of `Recover`. -/
def firstStep (bs : Bytes) (found : Found) : Option (Bytes × Found) :=
  (readHeader bs).bind fun h =>
    if h.2.1 = checkpointSentinel then firstCheckpoint h.1 h.2.2 found
    else if h.2.1 = abortSentinel then (readN 8 h.2.2).map fun ts => (ts.2, found)
    else (readEntry h.1 h.2.1 h.2.2).map fun e => (e.2, found)

/-- The record behind a sentinel that carries one timestamp. -/
def readMarker (mark : ℕ → WalRecord) (bs : Bytes) (read : List WalRecord) :
    Option (Bytes × List WalRecord) :=
  (readN 8 bs).map fun ts => (ts.2, read ++ [mark (ofLe ts.1)])

/-- One record of the second pass, with the records read so far. A checkpoint is stepped over up to
its timestamp only. -/
def secondStep (bs : Bytes) (read : List WalRecord) : Option (Bytes × List WalRecord) :=
  (readHeader bs).bind fun h =>
    if h.2.1 = checkpointSentinel then some (h.2.2, read)
    else if h.2.1 = beginSentinel then readMarker .batchBegin h.2.2 read
    else if h.2.1 = commitSentinel then readMarker .batchCommit h.2.2 read
    else if h.2.1 = abortSentinel then readMarker .abort h.2.2 read
    else (readEntry h.1 h.2.1 h.2.2).map fun e =>
      (e.2, read ++ [.entry e.1.key e.1.value e.1.timestamp])

theorem readHeader_length {bs : Bytes} {h : ℕ × ℕ × Bytes} (hr : readHeader bs = some h) :
    bs.length = 8 + h.2.2.length := by
  obtain ⟨c, hc, hl⟩ := Option.bind_eq_some_iff.mp hr
  obtain ⟨l, hword, rfl⟩ := Option.map_eq_some_iff.mp hl
  obtain ⟨hbs, hclen⟩ := readN_eq_some hc
  obtain ⟨hcs, hllen⟩ := readN_eq_some hword
  rw [hbs, hcs, List.length_append, List.length_append]
  simp only []
  omega

theorem readHeader_suffix {bs : Bytes} {h : ℕ × ℕ × Bytes} (hr : readHeader bs = some h) : h.2.2 <:+ bs := by
  obtain ⟨c, hc, hl⟩ := Option.bind_eq_some_iff.mp hr
  obtain ⟨l, hword, rfl⟩ := Option.map_eq_some_iff.mp hl
  exact (readN_suffix hword).trans (readN_suffix hc)

theorem readN_length {n : ℕ} {bs : Bytes} {p : Bytes × Bytes} (h : readN n bs = some p) :
    p.2.length ≤ bs.length := by
  obtain ⟨hbs, -⟩ := readN_eq_some h
  rw [hbs, List.length_append]
  omega

theorem readEntry_length {checksum keyLen : ℕ} {bs : Bytes} {e : KeyValuePair × Bytes}
    (h : readEntry checksum keyLen bs = some e) : e.2.length ≤ bs.length := by
  obtain ⟨key, hkey, h⟩ := Option.bind_eq_some_iff.mp h
  obtain ⟨l, hl, h⟩ := Option.bind_eq_some_iff.mp h
  obtain ⟨value, hvalue, h⟩ := Option.bind_eq_some_iff.mp h
  obtain ⟨ts, hts, h⟩ := Option.bind_eq_some_iff.mp h
  have h1 := readN_length hkey
  have h2 := readN_length hl
  have h3 := readN_length hvalue
  have h4 := readN_length hts
  split at h
  · cases h
    exact h4.trans (h3.trans (h2.trans h1))
  · cases h

theorem firstCheckpoint_length {checksum : ℕ} {bs bs' : Bytes} {found found' : Found}
    (h : firstCheckpoint checksum bs found = some (bs', found')) : bs'.length ≤ bs.length := by
  obtain ⟨ts, hts, h⟩ := Option.map_eq_some_iff.mp h
  have h8 := readN_length hts
  split at h
  · next b hb =>
    have h16 := readN_length (Option.filter_eq_some_iff.mp hb).1
    cases h
    exact h16
  · split at h <;> (cases h; exact h8)

/-- The first pass of `Recover`. -/
def firstPass : Scanner UInt8 Found where
  step := firstStep
  shorter bs found bs' found' hs := by
    obtain ⟨h, hheader, hs⟩ := Option.bind_eq_some_iff.mp hs
    have hlen := readHeader_length hheader
    split at hs
    · have := firstCheckpoint_length hs
      omega
    · split at hs
      · obtain ⟨ts, hts, heq⟩ := Option.map_eq_some_iff.mp hs
        have := readN_length hts
        cases heq
        omega
      · obtain ⟨e, he, heq⟩ := Option.map_eq_some_iff.mp hs
        have := readEntry_length he
        cases heq
        omega

theorem firstPass_step : firstPass.step = firstStep := rfl

theorem readMarker_length {mark : ℕ → WalRecord} {bs bs' : Bytes} {read read' : List WalRecord}
    (h : readMarker mark bs read = some (bs', read')) : bs'.length ≤ bs.length := by
  obtain ⟨ts, hts, heq⟩ := Option.map_eq_some_iff.mp h
  have := readN_length hts
  cases heq
  exact this

/-- The second pass. -/
def secondPass : Scanner UInt8 (List WalRecord) where
  step := secondStep
  shorter bs read bs' read' hs := by
    obtain ⟨h, hheader, hs⟩ := Option.bind_eq_some_iff.mp hs
    have hlen := readHeader_length hheader
    split at hs
    · cases hs
      omega
    · split at hs
      · have := readMarker_length hs
        omega
      · split at hs
        · have := readMarker_length hs
          omega
        · split at hs
          · have := readMarker_length hs
            omega
          · obtain ⟨e, he, heq⟩ := Option.map_eq_some_iff.mp hs
            have := readEntry_length he
            cases heq
            omega

theorem secondPass_step : secondPass.step = secondStep := rfl

/-- `Recover` on the bytes of the file. The sets of opened and closed batches and of timestamps with
entries are functions of the records that the second pass reads. -/
def recover (file : Bytes) : Recovered :=
  let found := firstPass.run file ⟨0, 0, file⟩
  let read := secondPass.run found.rest []
  ⟨found.ts, abortedBatches found.batchTs read, replayEntries read⟩

/-! ## Trimming -/

/-- An entry as `TrimToLastCheckpoint` steps over it: without its checksum. -/
def skipEntry (keyLen : ℕ) (bs : Bytes) : Option Bytes :=
  (readN keyLen bs).bind fun key => (readN 4 key.2).bind fun l => (readN (ofLe l.1) l.2).bind fun value =>
    (readN 8 value.2).map Prod.snd

/-- One record of the scan of `TrimToLastCheckpoint`, which knows no sentinel but that of a checkpoint
and takes a checkpoint to have 8 bytes. The state is what follows the last checkpoint. -/
def trimStep (bs : Bytes) (found : Option Bytes) : Option (Bytes × Option Bytes) :=
  (readHeader bs).bind fun h =>
    if h.2.1 = checkpointSentinel then
      (readN 8 h.2.2).map fun ts =>
        (ts.2, if crcOf [leBytes 4 checkpointSentinel, ts.1] = h.1 then some ts.2 else found)
    else (skipEntry h.2.1 h.2.2).map fun rest => (rest, found)

theorem skipEntry_suffix {keyLen : ℕ} {bs rest : Bytes} (h : skipEntry keyLen bs = some rest) : rest <:+ bs := by
  obtain ⟨key, hkey, h⟩ := Option.bind_eq_some_iff.mp h
  obtain ⟨l, hl, h⟩ := Option.bind_eq_some_iff.mp h
  obtain ⟨value, hvalue, h⟩ := Option.bind_eq_some_iff.mp h
  obtain ⟨ts, hts, rfl⟩ := Option.map_eq_some_iff.mp h
  exact (readN_suffix hts).trans ((readN_suffix hvalue).trans ((readN_suffix hl).trans (readN_suffix hkey)))

/-- The scan of `TrimToLastCheckpoint`. -/
def trimPass : Scanner UInt8 (Option Bytes) where
  step := trimStep
  shorter bs found bs' found' hs := by
    obtain ⟨h, hheader, hs⟩ := Option.bind_eq_some_iff.mp hs
    have hlen := readHeader_length hheader
    split at hs
    · obtain ⟨ts, hts, heq⟩ := Option.map_eq_some_iff.mp hs
      have := readN_length hts
      cases heq
      omega
    · obtain ⟨rest, hrest, heq⟩ := Option.map_eq_some_iff.mp hs
      have := (skipEntry_suffix hrest).length_le
      cases heq
      omega

theorem trimPass_step : trimPass.step = trimStep := rfl

/-- The file that `TrimToLastCheckpoint` leaves: what follows the last checkpoint it finds, if any. -/
def trimToLastCheckpoint (file : Bytes) : Bytes := (trimPass.run file none).getD file

theorem trimToLastCheckpoint_suffix (file : Bytes) : trimToLastCheckpoint file <:+ file := by
  have hkept : ∃ rest : Bytes, rest <:+ file ∧ ∀ bs, trimPass.run file none = some bs → bs <:+ file := by
    refine trimPass.run_invariant (I := fun bs found => bs <:+ file ∧ ∀ kept, found = some kept → kept <:+ file) ?_
      ⟨List.suffix_refl file, fun _ hnone => by cases hnone⟩
    intro bs found bs' found' hinv hs
    obtain ⟨h, hheader, hs⟩ := Option.bind_eq_some_iff.mp hs
    have hbehind := (readHeader_suffix hheader).trans hinv.1
    split at hs
    · obtain ⟨ts, hts, heq⟩ := Option.map_eq_some_iff.mp hs
      have hrest := (readN_suffix hts).trans hbehind
      cases heq
      refine ⟨hrest, fun kept hfound => ?_⟩
      split at hfound
      · cases hfound
        exact hrest
      · exact hinv.2 kept hfound
    · obtain ⟨rest, hrest, heq⟩ := Option.map_eq_some_iff.mp hs
      cases heq
      exact ⟨(skipEntry_suffix hrest).trans hbehind, hinv.2⟩
  obtain ⟨_, _, hkept⟩ := hkept
  unfold trimToLastCheckpoint
  cases hrun : trimPass.run file none with
  | none => exact List.suffix_refl file
  | some bs => exact hkept bs hrun

/-! ## The log -/

/-- `WAL`: the file, `write_buf_` and the two sequence numbers. -/
structure LogFile where
  file : Bytes
  writeBuf : Bytes
  batchSeq : ℕ
  syncedSeq : ℕ
  deriving DecidableEq, Repr

/-- A call that buffers a record. -/
inductive LogCall where
  | buffer (key value : Bytes) (timestamp : UInt64)
  | bufferBatchBegin (batchTs : UInt64)
  | bufferBatchCommit (batchTs : UInt64)
  | bufferAbort (batchTs : UInt64)
  | writeCheckpoint (timestamp batchTs : UInt64)

/-- The record that a call buffers. -/
def LogCall.record : LogCall → WalRecord
  | .buffer key value timestamp => .entry key value timestamp.toNat
  | .bufferBatchBegin batchTs => .batchBegin batchTs.toNat
  | .bufferBatchCommit batchTs => .batchCommit batchTs.toNat
  | .bufferAbort batchTs => .abort batchTs.toNat
  | .writeCheckpoint timestamp batchTs => .checkpoint timestamp.toNat batchTs.toNat

/-- The key and the value that a call carries; a marker or a checkpoint has none. -/
def LogCall.pair : LogCall → Bytes × Bytes
  | .buffer key value _ => (key, value)
  | _ => ([], [])

/-- A call that takes a sequence number. -/
def LogCall.numbered : LogCall → Bool
  | .bufferBatchBegin _ => false
  | .bufferAbort _ => false
  | _ => true

namespace LogFile

def new : LogFile := ⟨[], [], 0, 0⟩

def call (l : LogFile) (c : LogCall) : LogFile :=
  { l with
    writeBuf := l.writeBuf ++ encode c.record
    batchSeq := if c.numbered then l.batchSeq + 1 else l.batchSeq }

/-- `Sync`: the sequence number and whether the buffer was persisted. -/
def sync (l : LogFile) (force : Bool) : (ℕ × Bool) × LogFile :=
  if l.writeBuf.isEmpty then ((l.syncedSeq, false), l)
  else if !force && decide (l.writeBuf.length < Config.walMinSyncBytes) then
    ((l.batchSeq, false), { l with syncedSeq := l.batchSeq })
  else ((l.batchSeq, true), { l with file := l.file ++ l.writeBuf, writeBuf := [], syncedSeq := l.batchSeq })

/-- `Recover`: the log is synced, read and reopened for appending, whatever the end of it looks like. -/
def recover (l : LogFile) : Recovered × LogFile :=
  (WalBytes.recover (l.sync true).2.file, ⟨(l.sync true).2.file, [], 0, 0⟩)

theorem sync_true_file (l : LogFile) : (l.sync true).2.file = l.file ++ l.writeBuf := by
  unfold sync
  split
  · next hempty =>
    rw [List.isEmpty_iff.mp hempty, List.append_nil]
  · rfl

theorem sync_true_writeBuf (l : LogFile) : (l.sync true).2.writeBuf = [] := by
  unfold sync
  split
  · next hempty => exact List.isEmpty_iff.mp hempty
  · rfl

theorem foldl_call (l : LogFile) (calls : List LogCall) :
    (calls.foldl call l).file = l.file ∧
      (calls.foldl call l).writeBuf = l.writeBuf ++ encodeAll (calls.map LogCall.record) := by
  induction calls generalizing l with
  | nil => exact ⟨rfl, (List.append_nil _).symm⟩
  | cons c calls ih =>
    obtain ⟨hfile, hbuf⟩ := ih (l.call c)
    rw [List.foldl_cons, List.map_cons, encodeAll_cons]
    refine ⟨hfile, ?_⟩
    rw [hbuf, call, List.append_assoc]

end LogFile

end Kvdb.WalBytes
