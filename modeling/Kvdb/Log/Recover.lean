import Kvdb.Log.Bytes

/-! # What `Recover` reads back

Bytes written by the encoder are read back record by record, up to the first begin or commit marker in
the first pass and up to the first checkpoint in the second. For a log without a checkpoint behind such
a marker the bytes therefore give what the records give (`recover_encodeAll`), and that is what follows
the last checkpoint. -/
namespace Kvdb.WalBytes
set_option autoImplicit false

open LittleEndian Scan Crc32
open WAL (Recovered abortedBatches replayEntries lastCheckpoint)

/-! ## One record -/

/-- The lengths fit their words and are no sentinels, the timestamps fit theirs. -/
def Encodable : WalRecord → Prop
  | .entry key value ts => key.length < beginSentinel ∧ value.length < 2 ^ 32 ∧ ts < 2 ^ 64
  | .checkpoint ts batchTs => ts < 2 ^ 64 ∧ batchTs < 2 ^ 64
  | .batchBegin ts => ts < 2 ^ 64
  | .batchCommit ts => ts < 2 ^ 64
  | .abort ts => ts < 2 ^ 64

theorem begin_ne_checkpoint : beginSentinel ≠ checkpointSentinel := by decide
theorem commit_ne_checkpoint : commitSentinel ≠ checkpointSentinel := by decide
theorem commit_ne_begin : commitSentinel ≠ beginSentinel := by decide
theorem abort_ne_checkpoint : abortSentinel ≠ checkpointSentinel := by decide
theorem abort_ne_begin : abortSentinel ≠ beginSentinel := by decide
theorem abort_ne_commit : abortSentinel ≠ commitSentinel := by decide

theorem ofLe_word {n : ℕ} (h : n < 2 ^ 32) : ofLe (leBytes 4 n) = n := ofLe_leBytes (by norm_num; exact h)

theorem ofLe_ts {n : ℕ} (h : n < 2 ^ 64) : ofLe (leBytes 8 n) = n := ofLe_leBytes (by norm_num; exact h)

theorem readHeader_withChecksum {word : ℕ} (h : word < 2 ^ 32) (body rest : Bytes) :
    readHeader (withChecksum (leBytes 4 word ++ body) ++ rest) =
      some (crc32 (leBytes 4 word ++ body), word, body ++ rest) := by
  unfold readHeader withChecksum
  rw [List.append_assoc, readN_append_of_length (length_leBytes 4 _), Option.bind_some, List.append_assoc,
    readN_append_of_length (length_leBytes 4 _), Option.map_some, ofLe_word (crc32_lt _), ofLe_word h]

theorem readEntry_serialized {key value : Bytes} {ts : ℕ} (hvalue : value.length < 2 ^ 32) (hts : ts < 2 ^ 64)
    (rest : Bytes) :
    readEntry (crc32 (leBytes 4 key.length ++ (key ++ (leBytes 4 value.length ++ (value ++ leBytes 8 ts)))))
      key.length ((key ++ (leBytes 4 value.length ++ (value ++ leBytes 8 ts))) ++ rest) =
        some (⟨key, value, ts, false⟩, rest) := by
  unfold readEntry
  rw [List.append_assoc, readN_append, Option.bind_some, List.append_assoc,
    readN_append_of_length (length_leBytes 4 _), Option.bind_some, ofLe_word hvalue, List.append_assoc,
    readN_append, Option.bind_some, readN_append_of_length (length_leBytes 8 _), Option.bind_some, ofLe_ts hts,
    crcOf_eq]
  simp

theorem readN_ts (ts : ℕ) (rest : Bytes) : readN 8 (leBytes 8 ts ++ rest) = some (leBytes 8 ts, rest) :=
  readN_append_of_length (length_leBytes 8 ts) rest

/-- The first pass steps over an entry. -/
theorem firstStep_entry {key value : Bytes} {ts : ℕ} (h : Encodable (.entry key value ts)) (rest : Bytes)
    (found : Found) : firstPass.step (encode (.entry key value ts) ++ rest) found = some (rest, found) := by
  obtain ⟨hkey, hvalue, hts⟩ := h
  have hword : key.length < 2 ^ 32 := Nat.lt_trans hkey (by decide)
  have hcheckpoint : key.length ≠ checkpointSentinel := Nat.ne_of_lt (Nat.lt_trans hkey (by decide))
  have habort : key.length ≠ abortSentinel := Nat.ne_of_lt (Nat.lt_trans hkey (by decide))
  rw [firstPass_step, firstStep, encode, serializeRecord, readHeader_withChecksum hword, Option.bind_some, if_neg hcheckpoint,
    if_neg habort, readEntry_serialized hvalue hts]
  rfl

theorem firstStep_abort {ts : ℕ} (rest : Bytes) (found : Found) :
    firstPass.step (encode (.abort ts) ++ rest) found = some (rest, found) := by
  rw [firstPass_step, firstStep, encode, writeSentinelRecord, readHeader_withChecksum (by decide), Option.bind_some,
    if_neg abort_ne_checkpoint, if_pos rfl, readN_ts]
  rfl

theorem firstStep_checkpoint {ts batchTs : ℕ} (h : Encodable (.checkpoint ts batchTs)) (rest : Bytes)
    (found : Found) :
    firstPass.step (encode (.checkpoint ts batchTs) ++ rest) found = some (rest, ⟨ts, batchTs, rest⟩) := by
  have hbody : readN 16 ((leBytes 8 ts ++ leBytes 8 batchTs) ++ rest) =
      some (leBytes 8 ts ++ leBytes 8 batchTs, rest) := readN_append_of_length (by simp) rest
  have hcrc : crcOf [leBytes 4 checkpointSentinel, leBytes 8 ts ++ leBytes 8 batchTs] =
      crc32 (leBytes 4 checkpointSentinel ++ (leBytes 8 ts ++ leBytes 8 batchTs)) := crcOf_pair _ _
  have hdrop : (leBytes 8 ts ++ leBytes 8 batchTs).drop 8 = leBytes 8 batchTs :=
    List.drop_left' (length_leBytes 8 ts)
  have hts : readN 8 ((leBytes 8 ts ++ leBytes 8 batchTs) ++ rest) =
      some (leBytes 8 ts, leBytes 8 batchTs ++ rest) := by
    rw [List.append_assoc]
    exact readN_ts ts _
  rw [firstPass_step, firstStep, encode, checkpointRecord, readHeader_withChecksum (by decide), Option.bind_some, if_pos rfl,
    firstCheckpoint, hts, Option.map_some, hbody, ← hcrc]
  simp [Option.filter, hdrop, ofLe_ts h.1, ofLe_ts h.2]

/-- The first pass takes a begin or commit marker for the length of a key that the file does not hold. -/
theorem firstStep_marker {sentinel ts : ℕ} (hs : sentinel = beginSentinel ∨ sentinel = commitSentinel)
    {rest : Bytes} (hrest : 8 + rest.length < beginSentinel) (found : Found) :
    firstPass.step (writeSentinelRecord sentinel ts ++ rest) found = none := by
  have hle : beginSentinel ≤ sentinel := by
    rcases hs with rfl | rfl <;> decide
  have hword : sentinel < 2 ^ 32 := by
    rcases hs with rfl | rfl <;> decide
  have hcheckpoint : sentinel ≠ checkpointSentinel := by
    rcases hs with rfl | rfl <;> decide
  have habort : sentinel ≠ abortSentinel := by
    rcases hs with rfl | rfl <;> decide
  have hshort : (leBytes 8 ts ++ rest).length < sentinel := by
    rw [List.length_append, length_leBytes]
    omega
  rw [firstPass_step, firstStep, writeSentinelRecord, readHeader_withChecksum hword, Option.bind_some, if_neg hcheckpoint,
    if_neg habort, readEntry, readN_eq_none hshort]
  rfl

/-- The second pass reads every record but a checkpoint. -/
theorem secondStep_encode {r : WalRecord} (h : Encodable r) (hr : r.isCheckpoint = false) (rest : Bytes)
    (read : List WalRecord) : secondPass.step (encode r ++ rest) read = some (rest, read ++ [r]) := by
  rw [secondPass_step]
  cases r with
  | entry key value ts =>
    obtain ⟨hkey, hvalue, hts⟩ := h
    have hne : ∀ n, beginSentinel ≤ n → key.length ≠ n := fun n hn => Nat.ne_of_lt (Nat.lt_of_lt_of_le hkey hn)
    rw [secondStep, encode, serializeRecord, readHeader_withChecksum (Nat.lt_trans hkey (by decide)),
      Option.bind_some, if_neg (hne _ (by decide)), if_neg (hne _ (by decide)), if_neg (hne _ (by decide)),
      if_neg (hne _ (by decide)), readEntry_serialized hvalue hts]
    rfl
  | checkpoint ts batchTs => cases hr
  | batchBegin ts =>
    rw [secondStep, encode, writeSentinelRecord, readHeader_withChecksum (by decide), Option.bind_some,
      if_neg begin_ne_checkpoint, if_pos rfl, readMarker, readN_ts, Option.map_some, ofLe_ts h]
  | batchCommit ts =>
    rw [secondStep, encode, writeSentinelRecord, readHeader_withChecksum (by decide), Option.bind_some,
      if_neg commit_ne_checkpoint, if_neg commit_ne_begin, if_pos rfl, readMarker, readN_ts, Option.map_some,
      ofLe_ts h]
  | abort ts =>
    rw [secondStep, encode, writeSentinelRecord, readHeader_withChecksum (by decide), Option.bind_some,
      if_neg abort_ne_checkpoint, if_neg abort_ne_begin, if_neg abort_ne_commit, if_pos rfl, readMarker,
      readN_ts, Option.map_some, ofLe_ts h]

/-! ## A whole log -/

/-- Neither pass can read a record here. -/
structure Stops (junk : Bytes) : Prop where
  first : ∀ found, firstPass.step junk found = none
  second : ∀ read, secondPass.step junk read = none

theorem stops_nil : Stops [] := ⟨fun _ => rfl, fun _ => rfl⟩

/-- Neither pass takes anything from here. -/
structure Ignored (junk : Bytes) : Prop where
  first : ∀ found, firstPass.run junk found = found
  second : ∀ read, secondPass.run junk read = read

theorem Stops.ignored {junk : Bytes} (h : Stops junk) : Ignored junk :=
  ⟨fun found => firstPass.run_of_stop (h.first found), fun read => secondPass.run_of_stop (h.second read)⟩

/-- The first pass reads a marker, if there is one, as the length of a key longer than the log and the
bytes behind it. -/
def Bounded (rs : List WalRecord) (junk : Bytes) : Prop :=
  (∀ r ∈ rs, r.stopsFirstPass = false) ∨ (encodeAll rs ++ junk).length < beginSentinel

theorem Bounded.tail {r : WalRecord} {rs : List WalRecord} {junk : Bytes} (h : Bounded (r :: rs) junk) :
    Bounded rs junk := by
  rcases h with h | h
  · exact .inl fun r' hr' => h r' (List.mem_cons_of_mem _ hr')
  · rw [encodeAll_cons, List.append_assoc, List.length_append] at h
    exact .inr (by omega)

/-- The state of the first pass that stands for what has been found among the records. -/
def foundOf (best : (ℕ × ℕ) × List WalRecord) (junk : Bytes) : Found :=
  ⟨best.1.1, best.1.2, encodeAll best.2 ++ junk⟩

theorem firstPass_encodeAll (rs : List WalRecord) (best : (ℕ × ℕ) × List WalRecord) (junk : Bytes)
    (henc : ∀ r ∈ rs, Encodable r) (hbound : Bounded rs junk) (hignored : Ignored junk) :
    firstPass.run (encodeAll rs ++ junk) (foundOf best junk) = foundOf (lastCheckpoint rs best) junk := by
  induction rs generalizing best with
  | nil => exact hignored.first _
  | cons r rs ih =>
    have hr := henc r List.mem_cons_self
    have htail : ∀ r ∈ rs, Encodable r := fun r hr => henc r (List.mem_cons_of_mem _ hr)
    have hrest := fun best => ih best htail hbound.tail
    have hmarker : ∀ sentinel ts, (sentinel = beginSentinel ∨ sentinel = commitSentinel) →
        encode r = writeSentinelRecord sentinel ts → r.stopsFirstPass = true →
        firstPass.run (encodeAll (r :: rs) ++ junk) (foundOf best junk) = foundOf best junk := by
      intro sentinel ts hs henc hmark
      refine firstPass.run_of_stop ?_
      rw [encodeAll_cons, henc, List.append_assoc]
      refine firstStep_marker hs ?_ _
      rcases hbound with hnone | hlen
      · rw [hnone r List.mem_cons_self] at hmark
        cases hmark
      · rw [encodeAll_cons, henc, List.append_assoc, List.length_append, writeSentinelRecord, withChecksum] at hlen
        simp only [List.length_append, length_leBytes] at hlen ⊢
        omega
    cases r with
    | entry key value ts =>
      rw [encodeAll_cons, List.append_assoc, firstPass.run_of_step (firstStep_entry hr _ _), hrest]
      rfl
    | checkpoint ts batchTs =>
      rw [encodeAll_cons, List.append_assoc, firstPass.run_of_step (firstStep_checkpoint hr _ _)]
      exact hrest ((ts, batchTs), rs)
    | batchBegin ts => exact hmarker _ ts (.inl rfl) rfl rfl
    | batchCommit ts => exact hmarker _ ts (.inr rfl) rfl rfl
    | abort ts =>
      rw [encodeAll_cons, List.append_assoc, firstPass.run_of_step (firstStep_abort _ _), hrest]
      rfl

theorem secondPass_encodeAll (rs read : List WalRecord) (junk : Bytes) (henc : ∀ r ∈ rs, Encodable r)
    (hnone : ∀ r ∈ rs, r.isCheckpoint = false) (hignored : Ignored junk) :
    secondPass.run (encodeAll rs ++ junk) read = read ++ rs := by
  induction rs generalizing read with
  | nil =>
    rw [List.append_nil]
    exact hignored.second _
  | cons r rs ih =>
    have hstep := secondStep_encode (henc r List.mem_cons_self) (hnone r List.mem_cons_self)
      (encodeAll rs ++ junk) read
    rw [encodeAll_cons, List.append_assoc, secondPass.run_of_step hstep,
      ih _ (fun r hr => henc r (List.mem_cons_of_mem _ hr)) (fun r hr => hnone r (List.mem_cons_of_mem _ hr)),
      List.append_assoc, List.singleton_append]

/-- Records that both passes read up to the bytes behind them: they can be encoded, no checkpoint stands
behind a begin or commit marker, and the log is not longer than the key that a marker is taken for. -/
structure Recoverable (rs : List WalRecord) (junk : Bytes) : Prop where
  encodable : ∀ r ∈ rs, Encodable r
  unmarked : rs.Pairwise fun a b => a.stopsFirstPass = true → b.isCheckpoint = false
  bounded : Bounded rs junk

theorem lastCheckpoint_of_none (rs : List WalRecord) (best : (ℕ × ℕ) × List WalRecord)
    (h : ∀ r ∈ rs, r.isCheckpoint = false) : lastCheckpoint rs best = best := by
  induction rs with
  | nil => rfl
  | cons r rs ih =>
    have hrs := ih fun r hr => h r (List.mem_cons_of_mem _ hr)
    cases r with
    | entry key value ts => exact hrs
    | abort ts => exact hrs
    | checkpoint ts batchTs => exact absurd (h _ List.mem_cons_self) (by simp [WalRecord.isCheckpoint])
    | batchBegin ts => rfl
    | batchCommit ts => rfl

/-- The first pass finds the last checkpoint if no marker stands before it. -/
theorem lastCheckpoint_split (before after : List WalRecord) (ts batchTs : ℕ)
    (best : (ℕ × ℕ) × List WalRecord) (hafter : ∀ r ∈ after, r.isCheckpoint = false)
    (hbefore : ∀ r ∈ before, r.stopsFirstPass = false) :
    lastCheckpoint (before ++ .checkpoint ts batchTs :: after) best = ((ts, batchTs), after) := by
  induction before generalizing best with
  | nil => exact lastCheckpoint_of_none after _ hafter
  | cons r before ih =>
    have hrest := fun best => ih best fun r hr => hbefore r (List.mem_cons_of_mem _ hr)
    have hr := hbefore r List.mem_cons_self
    cases r with
    | entry key value t => exact hrest best
    | abort t => exact hrest best
    | checkpoint t b => exact hrest _
    | batchBegin t => cases hr
    | batchCommit t => cases hr

theorem exists_last_checkpoint (rs : List WalRecord) : (∀ r ∈ rs, r.isCheckpoint = false) ∨
    ∃ before ts batchTs after, rs = before ++ .checkpoint ts batchTs :: after ∧
      ∀ r ∈ after, r.isCheckpoint = false := by
  induction rs with
  | nil => exact .inl fun _ hr => by cases hr
  | cons r rs ih =>
    rcases ih with hnone | ⟨before, ts, batchTs, after, hsplit, hnone⟩
    · cases r with
      | checkpoint ts batchTs => exact .inr ⟨[], ts, batchTs, rs, rfl, hnone⟩
      | _ =>
        refine .inl fun c hc => ?_
        rcases List.mem_cons.mp hc with rfl | hc
        · rfl
        · exact hnone c hc
    · refine .inr ⟨r :: before, ts, batchTs, after, ?_, hnone⟩
      rw [hsplit, List.cons_append]

section Recoverable

variable {rs : List WalRecord} {junk : Bytes}

theorem Recoverable.before {before after : List WalRecord} {ts batchTs : ℕ}
    (h : Recoverable (before ++ .checkpoint ts batchTs :: after) junk) :
    ∀ r ∈ before, r.stopsFirstPass = false := by
  intro r hr
  by_contra hmark
  have hpair := (List.pairwise_append.mp h.unmarked).2.2 r hr (.checkpoint ts batchTs) List.mem_cons_self
  cases hpair (Bool.not_eq_false _ ▸ hmark)

/-- The first pass finds the last checkpoint of a recoverable log, and what follows it. -/
theorem Recoverable.lastCheckpoint (h : Recoverable rs junk) :
    ((∀ r ∈ rs, r.isCheckpoint = false) ∧ WAL.lastCheckpoint rs ((0, 0), rs) = ((0, 0), rs)) ∨
      ∃ before ts batchTs after, rs = before ++ .checkpoint ts batchTs :: after ∧
        (∀ r ∈ after, r.isCheckpoint = false) ∧ WAL.lastCheckpoint rs ((0, 0), rs) = ((ts, batchTs), after) := by
  rcases exists_last_checkpoint rs with hnone | ⟨before, ts, batchTs, after, rfl, hnone⟩
  · exact .inl ⟨hnone, lastCheckpoint_of_none rs _ hnone⟩
  · exact .inr ⟨before, ts, batchTs, after, rfl, hnone, lastCheckpoint_split before after ts batchTs _ hnone h.before⟩

/-- The bytes of a recoverable log give what its records give, also in front of bytes from which both
passes take nothing. -/
theorem Recoverable.recover_eq (h : Recoverable rs junk) (hignored : Ignored junk) :
    recover (encodeAll rs ++ junk) = WAL.recover rs := by
  have hfirst : firstPass.run (encodeAll rs ++ junk) ⟨0, 0, encodeAll rs ++ junk⟩ =
      foundOf (WAL.lastCheckpoint rs ((0, 0), rs)) junk :=
    firstPass_encodeAll rs ((0, 0), rs) junk h.encodable h.bounded hignored
  have hrest : (∀ r ∈ (WAL.lastCheckpoint rs ((0, 0), rs)).2, Encodable r) ∧
      ∀ r ∈ (WAL.lastCheckpoint rs ((0, 0), rs)).2, r.isCheckpoint = false := by
    rcases h.lastCheckpoint with ⟨hnone, heq⟩ | ⟨before, ts, batchTs, after, hsplit, hnone, heq⟩
    · rw [heq]
      exact ⟨h.encodable, hnone⟩
    · rw [heq]
      refine ⟨?_, hnone⟩
      intro r hr
      refine h.encodable r ?_
      rw [hsplit]
      exact List.mem_append_right _ (List.mem_cons_of_mem _ hr)
  have hsecond : secondPass.run (foundOf (WAL.lastCheckpoint rs ((0, 0), rs)) junk).rest [] =
      (WAL.lastCheckpoint rs ((0, 0), rs)).2 := secondPass_encodeAll _ [] junk hrest.1 hrest.2 hignored
  rw [recover, hfirst, hsecond, WAL.recover, WAL.secondPass_eq hrest.2]
  rfl

theorem recover_encodeAll (h : Recoverable rs []) : recover (encodeAll rs) = WAL.recover rs := by
  have heq := h.recover_eq stops_nil.ignored
  rw [List.append_nil] at heq
  exact heq

end Recoverable

/-! ## What is to be recovered -/

/-- The batch was begun in these records, or was open at the checkpoint before them. -/
def Opened (batchTs : ℕ) (since : List WalRecord) (t : ℕ) : Prop :=
  .batchBegin t ∈ since ∨ (t = batchTs ∧ t ≠ 0)

/-- The batch counts as aborted: it has an abort record, or it is still open and has an entry. -/
def CountsAborted (batchTs : ℕ) (since : List WalRecord) (t : ℕ) : Prop :=
  .abort t ∈ since ∨ (Opened batchTs since t ∧ .batchCommit t ∉ since ∧ .abort t ∉ since ∧
    ∃ key value, .entry key value t ∈ since)

/-- What a checkpoint and the records since then call for. -/
structure Exact (r : Recovered) (ts batchTs : ℕ) (since : List WalRecord) : Prop where
  checkpointTs : r.checkpointTs = ts
  entries : r.entries = replayEntries since
  aborted : ∀ t, t ∈ r.aborted ↔ CountsAborted batchTs since t

/-- The result is what the last checkpoint of the log and the records behind it call for. -/
def RecoversExactly (rs : List WalRecord) (r : Recovered) : Prop :=
  ((∀ c ∈ rs, c.isCheckpoint = false) → Exact r 0 0 rs) ∧
    ∀ before ts batchTs after, rs = before ++ .checkpoint ts batchTs :: after →
      (∀ c ∈ after, c.isCheckpoint = false) → Exact r ts batchTs after

theorem mem_foldl_batchOpened (rs : List WalRecord) (opened : List ℕ) (t : ℕ)
    (hcommit : .batchCommit t ∉ rs) (habort : .abort t ∉ rs) :
    t ∈ rs.foldl WAL.batchOpened opened ↔ t ∈ opened ∨ .batchBegin t ∈ rs := by
  induction rs generalizing opened with
  | nil => simp
  | cons r rs ih =>
    rw [List.mem_cons, not_or] at hcommit habort
    rw [List.foldl_cons, ih _ hcommit.2 habort.2]
    cases r with
    | entry key value ts => simp [WAL.batchOpened]
    | checkpoint ts batchTs => simp [WAL.batchOpened]
    | batchBegin ts =>
      simp only [WAL.batchOpened, List.mem_cons, WalRecord.batchBegin.injEq]
      tauto
    | batchCommit ts =>
      have hne : t ≠ ts := fun heq => hcommit.1 (by rw [heq])
      simp [WAL.batchOpened, hne]
    | abort ts =>
      have hne : t ≠ ts := fun heq => habort.1 (by rw [heq])
      simp [WAL.batchOpened, hne]

theorem mem_foldl_batchClosed (rs : List WalRecord) (closed : List ℕ) (t : ℕ) :
    t ∈ rs.foldl WAL.batchClosed closed ↔ t ∈ closed ∨ .batchCommit t ∈ rs ∨ .abort t ∈ rs := by
  induction rs generalizing closed with
  | nil => simp
  | cons r rs ih =>
    rw [List.foldl_cons, ih]
    cases r with
    | entry key value ts => simp [WAL.batchClosed]
    | checkpoint ts batchTs => simp [WAL.batchClosed]
    | batchBegin ts => simp [WAL.batchClosed]
    | batchCommit ts =>
      simp only [WAL.batchClosed, List.mem_cons, WalRecord.batchCommit.injEq, reduceCtorEq, false_or]
      tauto
    | abort ts =>
      simp only [WAL.batchClosed, List.mem_cons, WalRecord.abort.injEq, reduceCtorEq, false_or]
      tauto

theorem mem_filterMap_abortedTs (rs : List WalRecord) (t : ℕ) :
    t ∈ rs.filterMap WAL.abortedTs ↔ .abort t ∈ rs := by
  rw [List.mem_filterMap]
  constructor
  · rintro ⟨r, hr, hts⟩
    cases r with
    | abort ts =>
      cases hts
      exact hr
    | _ => cases hts
  · intro h
    exact ⟨_, h, rfl⟩

theorem mem_timestamps (rs : List WalRecord) (t : ℕ) :
    t ∈ (replayEntries rs).map KeyValuePair.timestamp ↔ ∃ key value, .entry key value t ∈ rs := by
  rw [List.mem_map]
  constructor
  · rintro ⟨x, hx, rfl⟩
    exact ⟨x.key, x.value, ((WAL.mem_replayEntries rs x).mp hx).2⟩
  · rintro ⟨key, value, hin⟩
    exact ⟨⟨key, value, t, false⟩, (WAL.mem_replayEntries rs _).mpr ⟨rfl, hin⟩, rfl⟩

theorem mem_abortedBatches (batchTs : ℕ) (rs : List WalRecord) (t : ℕ) :
    t ∈ abortedBatches batchTs rs ↔ CountsAborted batchTs rs t := by
  have hopen : ∀ t, t ∈ (if batchTs = 0 then [] else [batchTs]) ↔ t = batchTs ∧ t ≠ 0 := by
    intro t
    by_cases hzero : batchTs = 0
    · simp only [hzero, if_true, List.not_mem_nil, false_iff]
      tauto
    · simp only [hzero, if_false, List.mem_singleton]
      exact ⟨fun heq => ⟨heq, heq ▸ hzero⟩, fun h => h.1⟩
  unfold abortedBatches CountsAborted Opened
  simp only [List.mem_append, mem_filterMap_abortedTs, List.mem_filter, Bool.and_eq_true, Bool.not_eq_true',
    decide_eq_false_iff_not, decide_eq_true_eq, mem_foldl_batchClosed, mem_timestamps, List.not_mem_nil, false_or,
    not_or]
  constructor
  · rintro (habort | ⟨hopened, ⟨hcommit, habort⟩, hentry⟩)
    · exact .inl habort
    · rw [mem_foldl_batchOpened rs _ t hcommit habort, hopen] at hopened
      exact .inr ⟨hopened.symm, hcommit, habort, hentry⟩
  · rintro (habort | ⟨hopened, hcommit, habort, hentry⟩)
    · exact .inl habort
    · refine .inr ⟨?_, ⟨hcommit, habort⟩, hentry⟩
      rw [mem_foldl_batchOpened rs _ t hcommit habort, hopen]
      exact hopened.symm

theorem exact_of_lastCheckpoint {rs since : List WalRecord} {ts batchTs : ℕ} (h : Recoverable rs [])
    (hlast : WAL.lastCheckpoint rs ((0, 0), rs) = ((ts, batchTs), since))
    (hsince : ∀ r ∈ since, r.isCheckpoint = false) : Exact (recover (encodeAll rs)) ts batchTs since := by
  rw [recover_encodeAll h]
  have hrec : WAL.recover rs = ⟨ts, abortedBatches batchTs since, replayEntries since⟩ := by
    rw [WAL.recover, hlast, WAL.secondPass_eq hsince]
  rw [hrec]
  exact ⟨rfl, rfl, fun t => mem_abortedBatches batchTs since t⟩

theorem Recoverable.exact {rs : List WalRecord} (h : Recoverable rs []) : RecoversExactly rs (recover (encodeAll rs)) := by
  refine ⟨?_, ?_⟩
  · intro hnone
    exact exact_of_lastCheckpoint h (lastCheckpoint_of_none rs _ hnone) hnone
  · rintro before ts batchTs after rfl hafter
    exact exact_of_lastCheckpoint h (lastCheckpoint_split before after ts batchTs _ hafter h.before) hafter

/-! ## Calls, a sync and a recovery -/

/-- The file after the calls on a new log and a `Sync`, as `Recover` finds it. -/
def recovered (calls : List LogCall) : Recovered := ((calls.foldl LogFile.call LogFile.new).sync true).2.recover.1

theorem recovered_eq (calls : List LogCall) : recovered calls = recover (encodeAll (calls.map LogCall.record)) := by
  obtain ⟨hfile, hbuf⟩ := LogFile.foldl_call LogFile.new calls
  rw [recovered, LogFile.recover, LogFile.sync_true_file, LogFile.sync_true_file, LogFile.sync_true_writeBuf,
    List.append_nil, hfile, hbuf]
  rfl

/-- The condition on the calls: the value of an entry is shorter than 4 GiB, no checkpoint is written
behind a begin or commit marker, and a log with such a marker is shorter than the key it is taken for. -/
structure Straight (calls : List LogCall) : Prop where
  values : ∀ c ∈ calls, c.pair.2.length < 2 ^ 32
  unmarked : (calls.map LogCall.record).Pairwise fun a b => a.stopsFirstPass = true → b.isCheckpoint = false
  bounded : Bounded (calls.map LogCall.record) []

theorem encodable_record {c : LogCall} (hkey : c.pair.1.length ≤ Config.maxKeyBytes)
    (hvalue : c.pair.2.length < 2 ^ 32) : Encodable c.record := by
  cases c with
  | buffer key value ts => exact ⟨Nat.lt_of_le_of_lt hkey (by decide), hvalue, UInt64.toNat_lt ts⟩
  | bufferBatchBegin ts => exact UInt64.toNat_lt ts
  | bufferBatchCommit ts => exact UInt64.toNat_lt ts
  | bufferAbort ts => exact UInt64.toNat_lt ts
  | writeCheckpoint ts batchTs => exact ⟨UInt64.toNat_lt ts, UInt64.toNat_lt batchTs⟩

/-! ## A missed checkpoint -/

def checkpointTs : WalRecord → Option ℕ
  | .checkpoint ts _ => some ts
  | _ => none

/-- The first pass stops at a marker. -/
theorem lastCheckpoint_stopped (before rest : List WalRecord) (best : (ℕ × ℕ) × List WalRecord)
    (h : ∃ r ∈ before, r.stopsFirstPass = true) :
    (lastCheckpoint (before ++ rest) best).1.1 = best.1.1 ∨
      (lastCheckpoint (before ++ rest) best).1.1 ∈ before.filterMap checkpointTs := by
  induction before generalizing best with
  | nil =>
    obtain ⟨r, hr, -⟩ := h
    cases hr
  | cons r before ih =>
    have htail : r.stopsFirstPass = false → ∃ r ∈ before, r.stopsFirstPass = true := by
      intro hr
      obtain ⟨r', hr', hstops⟩ := h
      rcases List.mem_cons.mp hr' with rfl | hr'
      · rw [hr] at hstops
        cases hstops
      · exact ⟨r', hr', hstops⟩
    cases r with
    | entry key value ts => exact ih best (htail rfl)
    | abort ts => exact ih best (htail rfl)
    | batchBegin ts => exact .inl rfl
    | batchCommit ts => exact .inl rfl
    | checkpoint ts batchTs =>
      rcases ih ((ts, batchTs), before ++ rest) (htail rfl) with heq | hmem
      · exact .inr (List.mem_cons.mpr (.inl heq))
      · exact .inr (List.mem_cons_of_mem _ hmem)

theorem checkpointTs_recover {rs : List WalRecord} (henc : ∀ r ∈ rs, Encodable r) (hbound : Bounded rs []) :
    (recover (encodeAll rs)).checkpointTs = (lastCheckpoint rs ((0, 0), rs)).1.1 := by
  have hrun := firstPass_encodeAll rs ((0, 0), rs) [] henc hbound stops_nil.ignored
  simp only [foundOf, List.append_nil] at hrun
  rw [recover, hrun]

/-- If the checkpoints of a log can be told apart by their timestamps, an exact recovery has found the
last one, so no marker stands before it. -/
theorem unmarked_of_exact {rs : List WalRecord} (henc : ∀ r ∈ rs, Encodable r) (hbound : Bounded rs [])
    (hdistinct : (0 :: rs.filterMap checkpointTs).Nodup) (h : RecoversExactly rs (recover (encodeAll rs))) :
    rs.Pairwise fun a b => a.stopsFirstPass = true → b.isCheckpoint = false := by
  rcases exists_last_checkpoint rs with hnone | ⟨before, ts, batchTs, after, rfl, hafter⟩
  · exact List.Pairwise.imp_of_mem (fun _ hb _ _ => hnone _ hb) (List.pairwise_of_forall (fun _ _ => trivial))
  · have hbefore : ∀ r ∈ before, r.stopsFirstPass = false := by
      intro r hr
      by_contra hstops
      have hexact := (h.2 before ts batchTs after rfl hafter).checkpointTs
      have hfound : (recover (encodeAll (before ++ .checkpoint ts batchTs :: after))).checkpointTs =
          (lastCheckpoint (before ++ .checkpoint ts batchTs :: after)
            ((0, 0), before ++ .checkpoint ts batchTs :: after)).1.1 :=
        checkpointTs_recover henc hbound
      rw [hfound] at hexact
      rw [List.filterMap_append, List.filterMap_cons_some (show checkpointTs (.checkpoint ts batchTs) = some ts from rfl),
        List.nodup_cons, List.nodup_append] at hdistinct
      rcases lastCheckpoint_stopped before (.checkpoint ts batchTs :: after) _
        ⟨r, hr, Bool.not_eq_false _ ▸ hstops⟩ with hzero | hmem
      · refine hdistinct.1 (List.mem_append_right _ (List.mem_cons.mpr (.inl ?_)))
        exact hzero.symm.trans hexact
      · rw [hexact] at hmem
        exact hdistinct.2.2.2 ts hmem ts List.mem_cons_self rfl
    refine List.pairwise_append.mpr ⟨?_, ?_, ?_⟩
    · exact List.Pairwise.imp_of_mem (fun ha _ _ hstops => absurd hstops (by simp [hbefore _ ha]))
        (List.pairwise_of_forall (fun _ _ => trivial))
    · refine List.pairwise_cons.mpr ⟨fun _ _ hstops => (by cases hstops), ?_⟩
      exact List.Pairwise.imp_of_mem (fun _ hb _ _ => hafter _ hb) (List.pairwise_of_forall (fun _ _ => trivial))
    · intro a ha b _ hstops
      rw [hbefore a ha] at hstops
      cases hstops

/-- Calls with keys of at most 1024 bytes that meet the condition are recovered exactly. Where the
checkpoints can be told apart by their timestamps, those with a checkpoint behind a marker are not. -/
theorem calls_recovered (calls : List LogCall)
    (hkeys : ∀ c ∈ calls, c.pair.1.length ≤ Config.maxKeyBytes) :
    (Straight calls → RecoversExactly (calls.map LogCall.record) (recovered calls)) ∧
      ((∀ c ∈ calls, c.pair.2.length < 2 ^ 32) → Bounded (calls.map LogCall.record) [] →
        (0 :: (calls.map LogCall.record).filterMap checkpointTs).Nodup →
        RecoversExactly (calls.map LogCall.record) (recovered calls) → Straight calls) := by
  have henc : (∀ c ∈ calls, c.pair.2.length < 2 ^ 32) → ∀ r ∈ calls.map LogCall.record, Encodable r := by
    intro hvalues r hr
    obtain ⟨c, hc, rfl⟩ := List.mem_map.mp hr
    exact encodable_record (hkeys c hc) (hvalues c hc)
  rw [recovered_eq]
  refine ⟨?_, ?_⟩
  · intro h
    exact Recoverable.exact ⟨henc h.values, h.unmarked, h.bounded⟩
  · intro hvalues hbound hdistinct hexact
    exact ⟨hvalues, unmarked_of_exact (henc hvalues) hbound hdistinct hexact, hbound⟩

instance decidableBounded (rs : List WalRecord) (junk : Bytes) : Decidable (Bounded rs junk) :=
  inferInstanceAs (Decidable ((∀ r ∈ rs, r.stopsFirstPass = false) ∨ (encodeAll rs ++ junk).length < beginSentinel))

instance decidableUnmarked (a b : WalRecord) : Decidable (a.stopsFirstPass = true → b.isCheckpoint = false) :=
  inferInstanceAs (Decidable (a.stopsFirstPass = true → b.isCheckpoint = false))

instance decidableStraight (calls : List LogCall) : Decidable (Straight calls) :=
  decidable_of_iff
    ((∀ c ∈ calls, c.pair.2.length < 2 ^ 32) ∧
      ((calls.map LogCall.record).Pairwise fun a b => a.stopsFirstPass = true → b.isCheckpoint = false) ∧
      Bounded (calls.map LogCall.record) [])
    ⟨fun h => ⟨h.1, h.2.1, h.2.2⟩, fun h => ⟨h.values, h.unmarked, h.bounded⟩⟩

/-- A checkpoint during a batch, an entry of the batch and a second batch that is aborted. -/
def straightCalls : List LogCall :=
  [.buffer [1] [2] 5, .writeCheckpoint 4 5, .buffer [3] [4] 5, .bufferBatchBegin 9, .buffer [] [6] 9, .bufferAbort 9]

theorem straightCalls_recovered :
    Straight straightCalls ∧ Exact (recovered straightCalls) 4 5
      [.entry [3] [4] 5, .batchBegin 9, .entry [] [6] 9, .abort 9] := by
  have hstraight : Straight straightCalls := by decide +kernel
  have hkeys : ∀ c ∈ straightCalls, c.pair.1.length ≤ Config.maxKeyBytes := by decide
  refine ⟨hstraight, ?_⟩
  exact ((calls_recovered straightCalls hkeys).1 hstraight).2 [.entry [1] [2] 5] 4 5 _ rfl (by decide)

/-- A batch begins, an entry of it is written and a checkpoint after it. -/
def markedCalls : List LogCall := [.bufferBatchBegin 5, .buffer [1] [2] 5, .writeCheckpoint 7 5]

/-- The first pass stops at the begin marker: the checkpoint is missed and the entry before it replayed. -/
theorem checkpoint_behind_marker_missed :
    (recovered markedCalls).checkpointTs = 0 ∧ (recovered markedCalls).entries = [⟨[1], [2], 5, false⟩] ∧
      ¬ RecoversExactly (markedCalls.map LogCall.record) (recovered markedCalls) := by
  have hts : (recovered markedCalls).checkpointTs = 0 := by decide
  refine ⟨hts, by decide, ?_⟩
  intro h
  have hexact := (h.2 [.batchBegin 5, .entry [1] [2] 5] 7 5 [] rfl (by decide)).checkpointTs
  rw [hts] at hexact
  cases hexact

end Kvdb.WalBytes
