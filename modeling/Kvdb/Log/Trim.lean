import Kvdb.Log.TornTail

/-! # What `TrimToLastCheckpoint` cuts off

The scan of `TrimToLastCheckpoint` knows checkpoints with a body of twelve bytes, and the checksum of one that
`WriteCheckpoint` writes is over twenty. It goes on in the middle of the checkpoint, and it takes the sentinel of a marker
for the length of a key. A log with a checkpoint is left as it is, unless a checksum fits by accident. -/
namespace Kvdb.WalBytes
set_option autoImplicit false

open LittleEndian Scan Crc32
open WAL (Recovered)

/-- `TrimToLastCheckpoint`: an empty log is only synced and opened again. -/
def LogFile.trim (l : LogFile) : LogFile :=
  if (l.sync true).2.file.isEmpty then (l.sync true).2
  else ⟨trimToLastCheckpoint (l.sync true).2.file, [], 0, 0⟩

theorem LogFile.trim_file (l : LogFile) : l.trim.file = trimToLastCheckpoint (l.file ++ l.writeBuf) := by
  rw [trim, sync_true_file]
  split
  · next hempty =>
    rw [sync_true_file, List.isEmpty_iff.mp hempty]
    rfl
  · rfl

theorem LogFile.trim_writeBuf (l : LogFile) : l.trim.writeBuf = [] := by
  rw [trim]
  split
  · exact sync_true_writeBuf l
  · rfl

/-- The log that the calls leave. -/
def logOf (calls : List LogCall) : LogFile := calls.foldl LogFile.call LogFile.new

/-- The file after a trim holds what follows the last checkpoint, and the trim does not change what is recovered. -/
structure Trims (calls : List LogCall) : Prop where
  unchanged : (∀ r ∈ recordsOf calls, r.isCheckpoint = false) → (logOf calls).trim.file = encodeAll (recordsOf calls)
  behind : ∀ before ts batchTs after, recordsOf calls = before ++ .checkpoint ts batchTs :: after →
    (∀ r ∈ after, r.isCheckpoint = false) → (logOf calls).trim.file = encodeAll after
  entries : (logOf calls).trim.recover.1.entries = (logOf calls).recover.1.entries
  aborted : ∀ t, t ∈ (logOf calls).trim.recover.1.aborted ↔ t ∈ (logOf calls).recover.1.aborted

theorem logOf_bytes (calls : List LogCall) : (logOf calls).file ++ (logOf calls).writeBuf = encodeAll (recordsOf calls) := by
  obtain ⟨hfile, hbuf⟩ := LogFile.foldl_call LogFile.new calls
  rw [logOf, hfile, hbuf]
  rfl

theorem logOf_trim (calls : List LogCall) : (logOf calls).trim.file = trimToLastCheckpoint (encodeAll (recordsOf calls)) := by
  rw [LogFile.trim_file, logOf_bytes]

/-! ## Logs that are left as they are -/

/-- Nowhere in the file does the checksum of twelve bytes fit that begin with the sentinel of a checkpoint. -/
def NoShort (file : Bytes) : Prop :=
  ∀ i, i + 16 ≤ file.length → ofLe ((file.drop (i + 4)).take 4) = checkpointSentinel →
    crc32 (leBytes 4 checkpointSentinel ++ (file.drop (i + 8)).take 8) ≠ ofLe ((file.drop i).take 4)

theorem readN_eq {n : ℕ} {bs : Bytes} {p : Bytes × Bytes} (h : readN n bs = some p) :
    n ≤ bs.length ∧ p = (bs.take n, bs.drop n) := by
  unfold readN at h
  split at h
  · next hle =>
    cases h
    exact ⟨hle, rfl⟩
  · cases h

theorem readHeader_eq {bs : Bytes} {h : ℕ × ℕ × Bytes} (hr : readHeader bs = some h) :
    h = (ofLe (bs.take 4), ofLe ((bs.drop 4).take 4), bs.drop 8) := by
  obtain ⟨c, hc, hl⟩ := Option.bind_eq_some_iff.mp hr
  obtain ⟨l, hword, rfl⟩ := Option.map_eq_some_iff.mp hl
  obtain ⟨-, rfl⟩ := readN_eq hc
  obtain ⟨-, rfl⟩ := readN_eq hword
  rw [List.drop_drop]

/-- Without such a place the scan finds nothing. -/
theorem trim_none {file : Bytes} (h : NoShort file) : trimPass.run file none = none := by
  have hkept : ∃ rest : Bytes, rest <:+ file ∧ trimPass.run file none = none := by
    refine trimPass.run_invariant (I := fun bs found => bs <:+ file ∧ found = none) ?_ ⟨List.suffix_refl file, rfl⟩
    rintro bs found bs' found' ⟨hsuffix, rfl⟩ hs
    obtain ⟨p, hheader, hs⟩ := Option.bind_eq_some_iff.mp hs
    have hbehind := (readHeader_suffix hheader).trans hsuffix
    split at hs
    · next hsentinel =>
      obtain ⟨ts, hts, heq⟩ := Option.map_eq_some_iff.mp hs
      have hrest := (readN_suffix hts).trans hbehind
      cases heq
      refine ⟨hrest, if_neg fun hcrc => ?_⟩
      have hlen := readHeader_length hheader
      obtain ⟨hle, rfl⟩ := readN_eq hts
      obtain ⟨a, rfl⟩ := hsuffix
      obtain rfl := readHeader_eq hheader
      have hdrop : ∀ k, (a ++ bs).drop (a.length + k) = bs.drop k := fun k => by rw [← List.drop_drop, List.drop_left]
      have hno := h a.length
      simp only [hdrop, List.length_append, List.drop_left] at hno hlen hle hsentinel hcrc
      rw [crcOf_pair] at hcrc
      exact hno (by omega) hsentinel hcrc
    · obtain ⟨rest, hrest, heq⟩ := Option.map_eq_some_iff.mp hs
      cases heq
      exact ⟨(skipEntry_suffix hrest).trans hbehind, rfl⟩
  obtain ⟨-, -, hrun⟩ := hkept
  exact hrun

/-- The scan steps over an entry. -/
theorem trimStep_entry {key value : Bytes} {ts : ℕ} (h : Encodable (.entry key value ts)) (rest : Bytes)
    (found : Option Bytes) : trimPass.step (encode (.entry key value ts) ++ rest) found = some (rest, found) := by
  obtain ⟨hkey, hvalue, -⟩ := h
  have hword : key.length < 2 ^ 32 := Nat.lt_trans hkey (by decide)
  have hcheckpoint : key.length ≠ checkpointSentinel := Nat.ne_of_lt (Nat.lt_trans hkey (by decide))
  have hskip : skipEntry key.length ((key ++ (leBytes 4 value.length ++ (value ++ leBytes 8 ts))) ++ rest) = some rest := by
    unfold skipEntry
    rw [List.append_assoc, readN_append, Option.bind_some, List.append_assoc,
      readN_append_of_length (length_leBytes 4 _), Option.bind_some, ofLe_word hvalue, List.append_assoc, readN_append,
      Option.bind_some, readN_ts, Option.map_some]
  rw [trimPass_step, trimStep, encode, serializeRecord, readHeader_withChecksum hword, Option.bind_some, if_neg hcheckpoint, hskip]
  rfl

/-- The scan stops at a marker in a log that is shorter than the key it is taken for. -/
theorem trimStep_marker {sentinel ts : ℕ} (hle : beginSentinel ≤ sentinel) (hlt : sentinel < checkpointSentinel)
    {rest : Bytes} (hrest : 8 + rest.length < beginSentinel) (found : Option Bytes) :
    trimPass.step (writeSentinelRecord sentinel ts ++ rest) found = none := by
  have hshort : (leBytes 8 ts ++ rest).length < sentinel := by
    rw [List.length_append, length_leBytes]
    omega
  rw [trimPass_step, trimStep, writeSentinelRecord, readHeader_withChecksum (hlt.trans (by decide)), Option.bind_some,
    if_neg (Nat.ne_of_lt hlt), skipEntry, readN_eq_none hshort]
  rfl

def isEntry : WalRecord → Bool
  | .entry _ _ _ => true
  | _ => false

/-- There is no marker, or the log is shorter than the key that one is taken for. -/
def Skippable (rs : List WalRecord) : Prop := (∀ r ∈ rs, isEntry r = true) ∨ (encodeAll rs).length < beginSentinel

/-- A log without a checkpoint is scanned to its end or up to the first marker. -/
theorem trim_none_of_no_checkpoint {rs : List WalRecord} (henc : ∀ r ∈ rs, Encodable r)
    (hnone : ∀ r ∈ rs, r.isCheckpoint = false) (hskip : Skippable rs) : trimPass.run (encodeAll rs) none = none := by
  induction rs with
  | nil => exact trimPass.run_of_stop rfl
  | cons r rs ih =>
    have hmarker : ∀ sentinel ts, beginSentinel ≤ sentinel → sentinel < checkpointSentinel →
        encode r = writeSentinelRecord sentinel ts → isEntry r = false → trimPass.run (encodeAll (r :: rs)) none = none := by
      intro sentinel ts hle hlt hr hmark
      refine trimPass.run_of_stop ?_
      rw [encodeAll_cons, hr]
      refine trimStep_marker hle hlt ?_ none
      rcases hskip with hentries | hlen
      · rw [hentries r List.mem_cons_self] at hmark
        cases hmark
      · rw [encodeAll_cons, hr, writeSentinelRecord, withChecksum] at hlen
        simp only [List.length_append, length_leBytes] at hlen
        omega
    cases r with
    | entry key value ts =>
      rw [encodeAll_cons, trimPass.run_of_step (trimStep_entry (henc _ List.mem_cons_self) _ _)]
      refine ih (fun r hr => henc r (List.mem_cons_of_mem _ hr)) (fun r hr => hnone r (List.mem_cons_of_mem _ hr)) ?_
      rcases hskip with hentries | hlen
      · exact .inl fun r hr => hentries r (List.mem_cons_of_mem _ hr)
      · rw [encodeAll_cons, List.length_append] at hlen
        exact .inr (by omega)
    | checkpoint ts batchTs => exact absurd (hnone _ List.mem_cons_self) (by simp [WalRecord.isCheckpoint])
    | batchBegin ts => exact hmarker _ ts (by decide) (by decide) rfl rfl
    | batchCommit ts => exact hmarker _ ts (by decide) (by decide) rfl rfl
    | abort ts => exact hmarker _ ts (by decide) (by decide) rfl rfl

/-! ## Where the trim does what it is for -/

variable {calls : List LogCall}

/-- Where the scan finds nothing, the trim is right exactly for a log without a checkpoint. -/
theorem trims_iff_of_none (h : trimPass.run (encodeAll (recordsOf calls)) none = none) :
    Trims calls ↔ ∀ r ∈ recordsOf calls, r.isCheckpoint = false := by
  have hfile : (logOf calls).trim.file = encodeAll (recordsOf calls) := by
    rw [logOf_trim, trimToLastCheckpoint, h, Option.getD_none]
  have hrecover : (logOf calls).trim.recover.1 = (logOf calls).recover.1 := by
    rw [LogFile.recover, LogFile.recover, LogFile.sync_true_file, LogFile.sync_true_file, LogFile.trim_writeBuf, hfile,
      logOf_bytes, List.append_nil]
  constructor
  · intro htrims
    rcases exists_last_checkpoint (recordsOf calls) with hnone | ⟨before, ts, batchTs, after, hsplit, hnone⟩
    · exact hnone
    · have hafter := htrims.behind before ts batchTs after hsplit hnone
      rw [hfile, hsplit] at hafter
      have hlen := congrArg List.length hafter
      rw [encodeAll_append, encodeAll_cons, List.length_append, List.length_append, length_encode, WalRecord.size] at hlen
      omega
  · intro hnone
    refine ⟨fun _ => hfile, ?_, by rw [hrecover], fun t => by rw [hrecover]⟩
    intro before ts batchTs after hsplit
    have hmem : .checkpoint ts batchTs ∈ recordsOf calls := by
      rw [hsplit]
      exact List.mem_append_right _ List.mem_cons_self
    exact absurd (hnone _ hmem) (by simp [WalRecord.isCheckpoint])

/-- Without a checkpoint the log is rightly left as it is. With one the trim fails, unless the checksum of twelve bytes
that begin with the sentinel fits somewhere by accident. -/
theorem trim_to_last_checkpoint (calls : List LogCall) :
    ((∀ r ∈ recordsOf calls, Encodable r) → Skippable (recordsOf calls) →
      (∀ r ∈ recordsOf calls, r.isCheckpoint = false) → Trims calls) ∧
    (NoShort (encodeAll (recordsOf calls)) → (Trims calls ↔ ∀ r ∈ recordsOf calls, r.isCheckpoint = false)) :=
  ⟨fun henc hskip hnone => (trims_iff_of_none (trim_none_of_no_checkpoint henc hnone hskip)).mpr hnone,
    fun hshort => trims_iff_of_none (trim_none hshort)⟩

instance decidableNoShort (file : Bytes) : Decidable (NoShort file) :=
  decidable_of_iff (∀ i < file.length, i + 16 ≤ file.length → ofLe ((file.drop (i + 4)).take 4) = checkpointSentinel →
      crc32 (leBytes 4 checkpointSentinel ++ (file.drop (i + 8)).take 8) ≠ ofLe ((file.drop i).take 4))
    ⟨fun h i hi => h i (by omega) hi, fun h i _ => h i⟩

/-- An entry before a checkpoint and one behind it. -/
def checkpointedCalls : List LogCall := [.buffer [1] [2] 1, .writeCheckpoint 1 0, .buffer [3] [4] 2]

theorem trim_to_last_checkpoint_checkpointedCalls :
    Trims checkpointedCalls ↔ ∀ r ∈ recordsOf checkpointedCalls, r.isCheckpoint = false :=
  (trim_to_last_checkpoint checkpointedCalls).2 (by decide +kernel)

/-- The whole log is kept. -/
theorem checkpointed_log_not_trimmed : ¬∀ calls, Trims calls := by
  intro h
  have hnone := (trims_iff_of_none (trim_none (by decide +kernel))).mp (h checkpointedCalls)
  exact absurd (hnone (.checkpoint 1 0) (by decide)) (by decide)

end Kvdb.WalBytes
