import Kvdb.Log.Recover

/-! # A log that is reopened behind a torn record

A crash can leave the first bytes of a record at the end of the file. `Recover` stops at them and reopens
the file for appending without cutting them off, so the records of later calls stand behind the torn
bytes, where the next recovery does not reach them. -/
namespace Kvdb.WalBytes
set_option autoImplicit false

open LittleEndian Scan Crc32
open WAL (Recovered abortedBatches replayEntries lastCheckpoint)

/-- The `Buffer` calls for the given keys, values and timestamps. -/
def buffers (writes : List (Bytes × Bytes × UInt64)) : List LogCall :=
  writes.map fun w => .buffer w.1 w.2.1 w.2.2

/-- The records of these calls. -/
def recordsOf (calls : List LogCall) : List WalRecord := calls.map LogCall.record

/-- `Recover` on a file of complete records and the torn bytes behind them. -/
def firstRecovery (calls : List LogCall) (torn : Bytes) : Recovered × LogFile :=
  (LogFile.mk (encodeAll (recordsOf calls) ++ torn) [] 0 0).recover

/-- The next `Recover`, after `Buffer` calls and a `Sync` on the reopened log. -/
def secondRecovery (calls : List LogCall) (torn : Bytes) (writes : List (Bytes × Bytes × UInt64)) : Recovered :=
  (((buffers writes).foldl LogFile.call (firstRecovery calls torn).2).sync true).2.recover.1

/-- The second recovery returns the entries of the first one and those buffered after it. -/
def KeepsEntries (calls : List LogCall) (torn : Bytes) (writes : List (Bytes × Bytes × UInt64)) : Prop :=
  (secondRecovery calls torn writes).entries =
    (firstRecovery calls torn).1.entries ++ replayEntries (recordsOf (buffers writes))

theorem firstRecovery_eq (calls : List LogCall) (torn : Bytes) :
    (firstRecovery calls torn).1 = recover (encodeAll (recordsOf calls) ++ torn) := by
  rw [firstRecovery, LogFile.recover, LogFile.sync_true_file, List.append_nil]

theorem secondRecovery_eq (calls : List LogCall) (torn : Bytes) (writes : List (Bytes × Bytes × UInt64)) :
    secondRecovery calls torn writes =
      recover (encodeAll (recordsOf calls) ++ (torn ++ encodeAll (recordsOf (buffers writes)))) := by
  have hreopened : (firstRecovery calls torn).2 = ⟨encodeAll (recordsOf calls) ++ torn, [], 0, 0⟩ := by
    rw [firstRecovery, LogFile.recover, LogFile.sync_true_file, List.append_nil]
  obtain ⟨hfile, hbuf⟩ := LogFile.foldl_call (firstRecovery calls torn).2 (buffers writes)
  rw [secondRecovery, LogFile.recover, LogFile.sync_true_file, LogFile.sync_true_file, LogFile.sync_true_writeBuf,
    List.append_nil, hfile, hbuf, hreopened, List.nil_append, List.append_assoc]
  rfl

theorem buffers_no_checkpoint (writes : List (Bytes × Bytes × UInt64)) :
    ∀ r ∈ recordsOf (buffers writes), r.isCheckpoint = false := by
  intro r hr
  obtain ⟨c, hc, rfl⟩ := List.mem_map.mp hr
  obtain ⟨w, -, rfl⟩ := List.mem_map.mp hc
  rfl

/-- Behind records that the passes read, further entries are read too. -/
theorem entries_recover_append {rs new : List WalRecord} (h : Recoverable (rs ++ new) [])
    (hnew : ∀ r ∈ new, r.isCheckpoint = false) :
    (WAL.recover (rs ++ new)).entries = (WAL.recover rs).entries ++ replayEntries new := by
  have hexact : ∀ {rs since : List WalRecord} {best : ℕ × ℕ},
      lastCheckpoint rs ((0, 0), rs) = (best, since) → (∀ r ∈ since, r.isCheckpoint = false) →
      (WAL.recover rs).entries = replayEntries since := by
    intro rs since best hlast hsince
    simp only [WAL.recover, hlast, WAL.secondPass_eq hsince]
  rcases exists_last_checkpoint rs with hnone | ⟨before, ts, batchTs, after, rfl, hnone⟩
  · have hall : ∀ r ∈ rs ++ new, r.isCheckpoint = false := by
      intro r hr
      rcases List.mem_append.mp hr with hr | hr
      · exact hnone r hr
      · exact hnew r hr
    rw [hexact (lastCheckpoint_of_none _ _ hall) hall, hexact (lastCheckpoint_of_none _ _ hnone) hnone,
      WAL.replayEntries_append]
  · have hall : ∀ r ∈ after ++ new, r.isCheckpoint = false := by
      intro r hr
      rcases List.mem_append.mp hr with hr | hr
      · exact hnone r hr
      · exact hnew r hr
    rw [List.append_assoc, List.cons_append] at h ⊢
    have hbefore := h.before
    rw [hexact (lastCheckpoint_split before _ ts batchTs _ hall hbefore) hall,
      hexact (lastCheckpoint_split before after ts batchTs _ hnone hbefore) hnone, WAL.replayEntries_append]

theorem Recoverable.left {rs new : List WalRecord} (h : Recoverable (rs ++ new) []) : Recoverable rs [] := by
  refine ⟨fun r hr => h.encodable r (List.mem_append_left _ hr), (List.pairwise_append.mp h.unmarked).1, ?_⟩
  rcases h.bounded with hnone | hlen
  · exact .inl fun r hr => hnone r (List.mem_append_left _ hr)
  · refine .inr ?_
    rw [encodeAll_append, List.append_nil, List.length_append] at hlen
    rw [List.append_nil]
    omega

/-- The entries survive if nothing is buffered, or if the file ends with a complete record and all its
records are read. Where both passes stop at the torn bytes, they survive only if nothing is buffered. -/
theorem reopened_log_keeps_entries (calls : List LogCall) (torn : Bytes) (writes : List (Bytes × Bytes × UInt64)) :
    (writes = [] ∨ (torn = [] ∧ Recoverable (recordsOf (calls ++ buffers writes)) []) →
        KeepsEntries calls torn writes) ∧
      (Recoverable (recordsOf calls) (torn ++ encodeAll (recordsOf (buffers writes))) → Stops torn →
        Stops (torn ++ encodeAll (recordsOf (buffers writes))) →
        (KeepsEntries calls torn writes ↔ writes = [])) := by
  have hempty : writes = [] → KeepsEntries calls torn writes := by
    rintro rfl
    rw [KeepsEntries, secondRecovery_eq, firstRecovery_eq]
    show (recover (_ ++ (torn ++ []))).entries = (recover (_ ++ torn)).entries ++ []
    rw [List.append_nil, List.append_nil]
  refine ⟨?_, ?_⟩
  · rintro (hnone | ⟨rfl, hrec⟩)
    · exact hempty hnone
    · have hsplit : recordsOf (calls ++ buffers writes) = recordsOf calls ++ recordsOf (buffers writes) :=
        List.map_append
      rw [hsplit] at hrec
      rw [KeepsEntries, secondRecovery_eq, firstRecovery_eq, List.nil_append, List.append_nil, ← encodeAll_append,
        recover_encodeAll hrec, recover_encodeAll hrec.left]
      exact entries_recover_append hrec (buffers_no_checkpoint writes)
  · intro hrec htorn hjunk
    refine ⟨?_, hempty⟩
    intro hkeeps
    have hfirst : Recoverable (recordsOf calls) torn := by
      refine ⟨hrec.encodable, hrec.unmarked, ?_⟩
      rcases hrec.bounded with hnone | hlen
      · exact .inl hnone
      · refine .inr ?_
        simp only [List.length_append] at hlen ⊢
        omega
    rw [KeepsEntries, secondRecovery_eq, firstRecovery_eq, hrec.recover_eq hjunk.ignored, hfirst.recover_eq htorn.ignored] at hkeeps
    have hnil := List.append_right_eq_self.mp hkeeps.symm
    cases writes with
    | nil => rfl
    | cons w ws => cases hnil

instance decidableEncodable (r : WalRecord) : Decidable (Encodable r) := by
  cases r <;> unfold Encodable <;> infer_instance

instance decidableRecoverable (rs : List WalRecord) (junk : Bytes) : Decidable (Recoverable rs junk) :=
  decidable_of_iff
    ((∀ r ∈ rs, Encodable r) ∧
      (rs.Pairwise fun a b => a.stopsFirstPass = true → b.isCheckpoint = false) ∧ Bounded rs junk)
    ⟨fun h => ⟨h.1, h.2.1, h.2.2⟩, fun h => ⟨h.encodable, h.unmarked, h.bounded⟩⟩

/-- An entry behind a checkpoint, no torn bytes, and one more entry after the recovery. -/
theorem reopened_log_keeps_entries_untorn :
    KeepsEntries [.buffer [1] [2] 1, .writeCheckpoint 1 0, .buffer [3] [4] 2] [] [([5], [6], 3)] := by
  refine (reopened_log_keeps_entries _ _ _).1 (.inr ⟨rfl, ?_⟩)
  decide

/-- The first nine bytes of an entry. -/
def tornBytes : Bytes := (encode (.entry [5] [6] 2)).take 9

/-- The entry buffered after the recovery is synced and lost. -/
theorem torn_tail_hides_later_entries :
    tornBytes <+: encode (.entry [5] [6] 2) ∧ tornBytes ≠ encode (.entry [5] [6] 2) ∧
      (firstRecovery [.buffer [1] [2] 1] tornBytes).1.entries = [⟨[1], [2], 1, false⟩] ∧
      (secondRecovery [.buffer [1] [2] 1] tornBytes [([3], [4], 3)]).entries = [⟨[1], [2], 1, false⟩] ∧
      ¬ KeepsEntries [.buffer [1] [2] 1] tornBytes [([3], [4], 3)] := by
  refine ⟨List.take_prefix _ _, by decide, by decide, by decide, ?_⟩
  unfold KeepsEntries
  decide

end Kvdb.WalBytes
