import Kvdb.Log.TornTail
import Mathlib.Data.List.Induction

/-! # What `IsSynced` and `EntryCount` say

One thread buffers records and calls `Sync`. A `Sync(false)` that finds a small buffer leaves it alone and yet moves
`synced_seq_` up to the last record, so that `IsSynced` is ahead of the file until a `Sync` writes. The two entry counters
always add up to the `Buffer` calls. -/
namespace Kvdb.WalBytes
set_option autoImplicit false

open WAL (Recovered)

/-- `WAL` with its entry counters. -/
structure CountedLog where
  log : LogFile
  bufferedEntries : ℕ
  syncedEntries : ℕ
  deriving DecidableEq, Repr

inductive Call where
  | buffer (key value : Bytes) (timestamp : UInt64)
  | bufferBatchCommit (batchTs : UInt64)
  | writeCheckpoint (timestamp batchTs : UInt64)
  | sync (force : Bool)

/-- The record that a call buffers. -/
def Call.logged : Call → Option LogCall
  | .buffer key value timestamp => some (.buffer key value timestamp)
  | .bufferBatchCommit batchTs => some (.bufferBatchCommit batchTs)
  | .writeCheckpoint timestamp batchTs => some (.writeCheckpoint timestamp batchTs)
  | .sync _ => none

def Call.isBuffer : Call → Bool
  | .buffer _ _ _ => true
  | _ => false

namespace CountedLog

def new : CountedLog := ⟨LogFile.new, 0, 0⟩

/-- `Sync`: a buffer that is written takes its entries along. -/
def sync (l : CountedLog) (force : Bool) : CountedLog :=
  if (l.log.sync force).1.2 then ⟨(l.log.sync force).2, 0, l.syncedEntries + l.bufferedEntries⟩
  else { l with log := (l.log.sync force).2 }

def call (l : CountedLog) : Call → CountedLog
  | .buffer key value timestamp =>
    { l with
      log := l.log.call (.buffer key value timestamp)
      bufferedEntries := l.bufferedEntries + 1 }
  | .bufferBatchCommit batchTs => { l with log := l.log.call (.bufferBatchCommit batchTs) }
  | .writeCheckpoint timestamp batchTs => { l with log := l.log.call (.writeCheckpoint timestamp batchTs) }
  | .sync force => l.sync force

/-- `IsSynced`. -/
def isSynced (l : CountedLog) (seq : ℕ) : Bool := decide (seq ≤ l.log.syncedSeq)

/-- `EntryCount`. -/
def entryCount (l : CountedLog) : ℕ := l.syncedEntries + l.bufferedEntries

end CountedLog

/-- The log after the calls. -/
def afterCalls (calls : List Call) : CountedLog := calls.foldl CountedLog.call CountedLog.new

/-- The records of the calls; the first of them has the number 1. -/
def numbered (calls : List Call) : List WalRecord := recordsOf (calls.filterMap Call.logged)

/-- A record counts as synced only if it and all before it are in the file, and the entries are counted. -/
structure Truthful (calls : List Call) : Prop where
  synced : ∀ s, (afterCalls calls).isSynced s = true →
    s ≤ (numbered calls).length ∧ encodeAll ((numbered calls).take s) <+: (afterCalls calls).log.file
  entryCount : (afterCalls calls).entryCount = (calls.filter Call.isBuffer).length

/-! ## `Sync` on a log -/

/-- The buffer is written. -/
def LogFile.Writes (l : LogFile) (force : Bool) : Prop :=
  l.writeBuf ≠ [] ∧ (force = true ∨ Config.walMinSyncBytes ≤ l.writeBuf.length)

instance (l : LogFile) (force : Bool) : Decidable (l.Writes force) := by
  unfold LogFile.Writes
  infer_instance

theorem LogFile.sync_of_writes {l : LogFile} {force : Bool} (h : l.Writes force) :
    l.sync force = ((l.batchSeq, true), { l with file := l.file ++ l.writeBuf, writeBuf := [], syncedSeq := l.batchSeq }) := by
  rw [sync, if_neg (fun hempty => h.1 (List.isEmpty_iff.mp hempty)), if_neg]
  rcases h.2 with rfl | hlen
  · simp
  · simp [Nat.not_lt_of_le hlen]

theorem LogFile.sync_of_empty {l : LogFile} (force : Bool) (h : l.writeBuf = []) :
    l.sync force = ((l.syncedSeq, false), l) := by
  rw [sync, h]
  rfl

theorem LogFile.sync_of_small {l : LogFile} {force : Bool} (hne : l.writeBuf ≠ []) (h : ¬l.Writes force) :
    l.sync force = ((l.batchSeq, false), { l with syncedSeq := l.batchSeq }) := by
  rw [Writes, not_and, not_or, Nat.not_le, Bool.not_eq_true] at h
  obtain ⟨rfl, hlen⟩ := h hne
  rw [sync, if_neg (fun hempty => hne (List.isEmpty_iff.mp hempty)), if_pos]
  simp [hlen]

/-! ## One more call -/

theorem afterCalls_append (calls : List Call) (c : Call) : afterCalls (calls ++ [c]) = (afterCalls calls).call c := by
  rw [afterCalls, List.foldl_append]
  rfl

theorem numbered_append (calls : List Call) (c : Call) :
    numbered (calls ++ [c]) = numbered calls ++ c.logged.toList.map LogCall.record := by
  rw [numbered, recordsOf, List.filterMap_append, List.map_append]
  cases c <;> rfl

theorem call_sync_log (l : CountedLog) (force : Bool) : (l.call (.sync force)).log = (l.log.sync force).2 := by
  rw [CountedLog.call, CountedLog.sync]
  split
  · rfl
  · rfl

/-- A call that buffers a record. -/
theorem call_logged {c : Call} {lc : LogCall} (h : c.logged = some lc) (l : CountedLog) :
    (l.call c).log = l.log.call lc ∧ lc.numbered = true := by
  cases c <;> cases h <;> exact ⟨rfl, rfl⟩

theorem call_entryCount (l : CountedLog) (c : Call) :
    (l.call c).entryCount = l.entryCount + if c.isBuffer then 1 else 0 := by
  cases c with
  | sync force =>
    rw [CountedLog.call, CountedLog.sync]
    split
    · simp [CountedLog.entryCount, Call.isBuffer]
    · rfl
  | _ => rfl

theorem entryCount_afterCalls (calls : List Call) :
    (afterCalls calls).entryCount = (calls.filter Call.isBuffer).length := by
  induction calls using List.reverseRecOn with
  | nil => rfl
  | append_singleton calls c ih =>
    rw [afterCalls_append, call_entryCount, ih, List.filter_append, List.length_append, List.filter_singleton]
    cases c.isBuffer with
    | true => rfl
    | false => rfl

/-! ## The mark against the file -/

/-- The first `m` records are in the file, the others in the buffer. -/
structure Split (calls : List Call) (m : ℕ) : Prop where
  le : m ≤ (numbered calls).length
  file : (afterCalls calls).log.file = encodeAll ((numbered calls).take m)
  writeBuf : (afterCalls calls).log.writeBuf = encodeAll ((numbered calls).drop m)
  batchSeq : (afterCalls calls).log.batchSeq = (numbered calls).length
  syncedSeq : (afterCalls calls).log.syncedSeq ≤ (numbered calls).length

theorem encodeAll_ne_nil {rs : List WalRecord} (h : rs ≠ []) : encodeAll rs ≠ [] := by
  obtain ⟨r, rs, rfl⟩ := List.exists_cons_of_ne_nil h
  intro hnil
  have hlen := congrArg List.length hnil
  rw [encodeAll_cons, List.length_append, length_encode, List.length_nil] at hlen
  cases r <;> simp [WalRecord.size] at hlen

variable {calls : List Call} {m : ℕ}

/-- The mark is true as long as it is not ahead of the file. -/
theorem Split.truthful_iff (h : Split calls m) : Truthful calls ↔ (afterCalls calls).log.syncedSeq ≤ m := by
  constructor
  · intro htrue
    by_contra hahead
    obtain ⟨hle, hprefix⟩ := htrue.synced _ (decide_eq_true (Nat.le_refl _))
    obtain ⟨k, hk⟩ := Nat.exists_eq_add_of_lt (Nat.lt_of_not_le hahead)
    rw [h.file, hk, Nat.add_assoc, List.take_add, encodeAll_append] at hprefix
    have hlen := hprefix.length_le
    have hmore : ((numbered calls).drop m).take (k + 1) ≠ [] := by
      rw [ne_eq, List.take_eq_nil_iff, List.drop_eq_nil_iff]
      omega
    have hpos := List.length_pos_iff.mpr (encodeAll_ne_nil hmore)
    rw [List.length_append] at hlen
    omega
  · intro hle
    refine ⟨fun s hs => ?_, entryCount_afterCalls calls⟩
    have hs' : s ≤ m := (of_decide_eq_true hs).trans hle
    refine ⟨hs'.trans h.le, ?_⟩
    obtain ⟨k, rfl⟩ := Nat.exists_eq_add_of_le hs'
    rw [h.file, List.take_add, encodeAll_append]
    exact List.prefix_append _ _

theorem Split.logged (h : Split calls m) {c : Call} {lc : LogCall} (hc : c.logged = some lc) :
    Split (calls ++ [c]) m ∧ (afterCalls (calls ++ [c])).log.syncedSeq = (afterCalls calls).log.syncedSeq := by
  obtain ⟨hlog, hnumbered⟩ := call_logged hc (afterCalls calls)
  have hrecords : numbered (calls ++ [c]) = numbered calls ++ [lc.record] := by
    rw [numbered_append, hc]
    rfl
  rw [← afterCalls_append] at hlog
  refine ⟨⟨?_, ?_, ?_, ?_, ?_⟩, by rw [hlog]; rfl⟩
  · rw [hrecords, List.length_append]
    exact h.le.trans (Nat.le_add_right _ _)
  · rw [hlog, hrecords, List.take_append_of_le_length h.le]
    exact h.file
  · rw [hlog, hrecords, List.drop_append_of_le_length h.le, encodeAll_append, ← h.writeBuf]
    simp [LogFile.call]
  · rw [hlog, hrecords, LogFile.call, if_pos hnumbered, h.batchSeq, List.length_append]
    rfl
  · rw [hlog, hrecords, List.length_append]
    exact h.syncedSeq.trans (Nat.le_add_right _ _)

theorem numbered_sync (calls : List Call) (force : Bool) : numbered (calls ++ [.sync force]) = numbered calls := by
  rw [numbered_append]
  exact List.append_nil _

theorem Split.sync_writes (h : Split calls m) {force : Bool} (hw : (afterCalls calls).log.Writes force) :
    Split (calls ++ [.sync force]) (numbered calls).length ∧
      (afterCalls (calls ++ [.sync force])).log.syncedSeq = (numbered calls).length := by
  have hlog := call_sync_log (afterCalls calls) force
  rw [← afterCalls_append, LogFile.sync_of_writes hw] at hlog
  refine ⟨⟨?_, ?_, ?_, ?_, ?_⟩, ?_⟩
  · rw [numbered_sync]
  · rw [hlog, numbered_sync, List.take_length, h.file, h.writeBuf, ← encodeAll_append, List.take_append_drop]
  · rw [hlog, numbered_sync, List.drop_length]
    rfl
  · rw [hlog, numbered_sync]
    exact h.batchSeq
  · rw [hlog, numbered_sync]
    exact Nat.le_of_eq h.batchSeq
  · rw [hlog]
    exact h.batchSeq

theorem Split.sync_empty (h : Split calls m) (force : Bool) (hempty : (afterCalls calls).log.writeBuf = []) :
    Split (calls ++ [.sync force]) m ∧
      (afterCalls (calls ++ [.sync force])).log.syncedSeq = (afterCalls calls).log.syncedSeq := by
  have hlog := call_sync_log (afterCalls calls) force
  rw [← afterCalls_append, LogFile.sync_of_empty force hempty] at hlog
  rw [hlog]
  exact ⟨⟨by rw [numbered_sync]; exact h.le, by rw [hlog, numbered_sync]; exact h.file,
    by rw [hlog, numbered_sync]; exact h.writeBuf, by rw [hlog, numbered_sync]; exact h.batchSeq,
    by rw [hlog, numbered_sync]; exact h.syncedSeq⟩, rfl⟩

theorem Split.sync_small (h : Split calls m) {force : Bool} (hne : (afterCalls calls).log.writeBuf ≠ [])
    (hw : ¬(afterCalls calls).log.Writes force) : Split (calls ++ [.sync force]) m ∧
      (afterCalls (calls ++ [.sync force])).log.syncedSeq = (numbered calls).length := by
  have hlog := call_sync_log (afterCalls calls) force
  rw [← afterCalls_append, LogFile.sync_of_small hne hw] at hlog
  rw [hlog]
  exact ⟨⟨by rw [numbered_sync]; exact h.le, by rw [hlog, numbered_sync]; exact h.file,
    by rw [hlog, numbered_sync]; exact h.writeBuf, by rw [hlog, numbered_sync]; exact h.batchSeq,
    by rw [hlog, numbered_sync]; exact Nat.le_of_eq h.batchSeq⟩, h.batchSeq⟩

/-! ## A `Sync` that leaves the buffer alone -/

/-- A `Sync(false)` has left buffered records alone, and no `Sync` has written since. -/
def Skipped (calls : List Call) : Prop :=
  ∃ before after, calls = before ++ .sync false :: after ∧ (afterCalls before).log.writeBuf ≠ [] ∧
    ¬(afterCalls before).log.Writes false ∧
    ∀ more force rest, after = more ++ .sync force :: rest →
      ¬(afterCalls (before ++ .sync false :: more)).log.Writes force

theorem not_skipped_nil : ¬Skipped [] := by
  rintro ⟨before, after, hsplit, -⟩
  simp at hsplit

theorem skipped_append (calls : List Call) (c : Call) : Skipped (calls ++ [c]) ↔
    (c = .sync false ∧ (afterCalls calls).log.writeBuf ≠ [] ∧ ¬(afterCalls calls).log.Writes false) ∨
      (Skipped calls ∧ ∀ force, c = .sync force → ¬(afterCalls calls).log.Writes force) := by
  constructor
  · rintro ⟨before, after, hsplit, hne, hsmall, hlater⟩
    rcases List.eq_nil_or_concat after with rfl | ⟨after, c', rfl⟩
    · obtain ⟨rfl, hc⟩ := List.append_inj' hsplit rfl
      cases hc
      exact .inl ⟨rfl, hne, hsmall⟩
    · rw [List.concat_eq_append, ← List.cons_append, ← List.append_assoc] at hsplit
      obtain ⟨rfl, hc⟩ := List.append_inj' hsplit rfl
      cases hc
      refine .inr ⟨⟨before, after, rfl, hne, hsmall, ?_⟩, ?_⟩
      · rintro more force rest rfl
        exact hlater more force (rest ++ [c]) (by simp)
      · rintro force rfl
        exact hlater after force [] (by simp)
  · rintro (⟨rfl, hne, hsmall⟩ | ⟨⟨before, after, rfl, hne, hsmall, hlater⟩, hlast⟩)
    · refine ⟨calls, [], rfl, hne, hsmall, ?_⟩
      intro more force rest hnil
      simp at hnil
    · refine ⟨before, after ++ [c], by simp, hne, hsmall, ?_⟩
      intro more force rest hsplit
      rcases List.eq_nil_or_concat rest with rfl | ⟨rest, c', rfl⟩
      · obtain ⟨rfl, hc⟩ := List.append_inj' hsplit rfl
        cases hc
        exact hlast force rfl
      · rw [List.concat_eq_append, ← List.cons_append, ← List.append_assoc] at hsplit
        obtain ⟨rfl, -⟩ := List.append_inj' hsplit rfl
        exact hlater more force rest rfl

/-- The mark is ahead of the file exactly after such a `Sync`. -/
theorem exists_split (calls : List Call) :
    ∃ m, Split calls m ∧ ((afterCalls calls).log.syncedSeq ≤ m ↔ ¬Skipped calls) := by
  induction calls using List.reverseRecOn with
  | nil => exact ⟨0, ⟨Nat.le_refl 0, rfl, rfl, rfl, Nat.le_refl 0⟩, iff_of_true (Nat.le_refl 0) not_skipped_nil⟩
  | append_singleton calls c ih =>
    obtain ⟨m, hsplit, hmark⟩ := ih
    have hrecord : ∀ lc, c.logged = some lc → (∀ force, c ≠ .sync force) →
        ∃ m, Split (calls ++ [c]) m ∧ ((afterCalls (calls ++ [c])).log.syncedSeq ≤ m ↔ ¬Skipped (calls ++ [c])) := by
      intro lc hlogged hne
      obtain ⟨hsplit', hsynced⟩ := hsplit.logged hlogged
      refine ⟨m, hsplit', ?_⟩
      rw [hsynced, hmark, skipped_append]
      simp only [hne, false_and, false_or, false_implies, implies_true, and_true]
    cases c with
    | buffer key value timestamp => exact hrecord _ rfl fun _ h => by cases h
    | bufferBatchCommit batchTs => exact hrecord _ rfl fun _ h => by cases h
    | writeCheckpoint timestamp batchTs => exact hrecord _ rfl fun _ h => by cases h
    | sync force =>
      by_cases hw : (afterCalls calls).log.Writes force
      · obtain ⟨hsplit', hsynced⟩ := hsplit.sync_writes hw
        refine ⟨_, hsplit', iff_of_true (Nat.le_of_eq hsynced) ?_⟩
        rw [skipped_append]
        rintro (⟨hc, -, hsmall⟩ | ⟨-, hnot⟩)
        · cases hc
          exact hsmall hw
        · exact hnot force rfl hw
      · by_cases hempty : (afterCalls calls).log.writeBuf = []
        · obtain ⟨hsplit', hsynced⟩ := hsplit.sync_empty force hempty
          refine ⟨m, hsplit', ?_⟩
          rw [hsynced, hmark, skipped_append]
          refine not_congr ⟨fun h => .inr ⟨h, ?_⟩, ?_⟩
          · intro force' hc
            cases hc
            exact hw
          · rintro (⟨-, hne, -⟩ | ⟨h, -⟩)
            · exact absurd hempty hne
            · exact h
        · obtain ⟨hsplit', hsynced⟩ := hsplit.sync_small hempty hw
          have hforce : force = false := by
            by_contra htrue
            exact hw ⟨hempty, .inl (Bool.eq_true_of_not_eq_false htrue)⟩
          subst hforce
          -- the buffer holds records, which are not in the file
          have hbehind : m < (numbered calls).length := by
            by_contra hall
            rw [hsplit.writeBuf, List.drop_eq_nil_iff.mpr (Nat.le_of_not_lt hall)] at hempty
            exact hempty rfl
          refine ⟨m, hsplit', iff_of_false (by omega) ?_⟩
          rw [not_not, skipped_append]
          exact .inl ⟨rfl, hempty, hw⟩

/-- `IsSynced` tells the truth exactly if no `Sync(false)` has left records in the buffer since the last `Sync` that
wrote it. -/
theorem truthful_iff_not_skipped (calls : List Call) : Truthful calls ↔ ¬Skipped calls := by
  obtain ⟨m, hsplit, hmark⟩ := exists_split calls
  rw [hsplit.truthful_iff, hmark]

/-- One record is buffered and a `Sync(false)` leaves it there. -/
theorem small_sync_marks_unwritten : ¬∀ calls, Truthful calls := by
  intro h
  have hskipped : Skipped [.buffer [1] [2] 3, .sync false] := by
    refine ⟨[.buffer [1] [2] 3], [], rfl, by decide, by decide, ?_⟩
    intro more force rest hnil
    simp at hnil
  obtain ⟨m, hsplit, hmark⟩ := exists_split [.buffer [1] [2] 3, .sync false]
  exact hmark.mp (hsplit.truthful_iff.mp (h _)) hskipped

end Kvdb.WalBytes
