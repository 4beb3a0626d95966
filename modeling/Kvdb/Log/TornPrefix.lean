import Kvdb.Log.TornTail

/-! # A log that is cut off anywhere

The first bytes of a log of entries and checkpoints are complete records and the front of one more. Of a torn entry
neither pass reads anything. A torn checkpoint may have the length of one in the old format, which only its checksum
tells apart; the second pass steps over its sentinel and finds too few bytes behind it. -/
namespace Kvdb.WalBytes
set_option autoImplicit false

open LittleEndian Scan Crc32
open WAL (Recovered abortedBatches replayEntries lastCheckpoint)

/-! ## Short reads -/

theorem readHeader_short {bs : Bytes} (h : bs.length < 8) : readHeader bs = none := by
  by_contra hsome
  obtain ⟨p, hp⟩ := Option.ne_none_iff_exists'.mp hsome
  have hlen := readHeader_length hp
  omega

theorem readEntry_needs {checksum keyLen : ℕ} {bs : Bytes} {e : KeyValuePair × Bytes}
    (h : readEntry checksum keyLen bs = some e) : 12 ≤ bs.length := by
  obtain ⟨key, hkey, h⟩ := Option.bind_eq_some_iff.mp h
  obtain ⟨l, hl, h⟩ := Option.bind_eq_some_iff.mp h
  obtain ⟨value, hvalue, h⟩ := Option.bind_eq_some_iff.mp h
  obtain ⟨ts, hts, -⟩ := Option.bind_eq_some_iff.mp h
  have h1 := readN_length hkey
  have h2 := congrArg List.length (readN_eq_some hl).1
  have h3 := readN_length hvalue
  have h4 := congrArg List.length (readN_eq_some hts).1
  rw [List.length_append, (readN_eq_some hl).2] at h2
  rw [List.length_append, (readN_eq_some hts).2] at h4
  omega

theorem stops_short {bs : Bytes} (h : bs.length < 8) : Stops bs := by
  refine ⟨fun found => ?_, fun read => ?_⟩
  · rw [firstPass_step, firstStep, readHeader_short h, Option.bind_none]
  · rw [secondPass_step, secondStep, readHeader_short h, Option.bind_none]

/-- Two words leave too little for a record of the second pass. -/
theorem secondPass_short {bs : Bytes} (h : bs.length < 16) (read : List WalRecord) : secondPass.run bs read = read := by
  cases hheader : readHeader bs with
  | none => exact secondPass.run_of_stop (by rw [secondPass_step, secondStep, hheader, Option.bind_none])
  | some p =>
    have hlen := readHeader_length hheader
    have hmarker : ∀ mark, readMarker mark p.2.2 read = none := by
      intro mark
      rw [readMarker, readN_eq_none (by omega), Option.map_none]
    by_cases hsentinel : p.2.1 = checkpointSentinel
    · have hstep : secondPass.step bs read = some (p.2.2, read) := by
        rw [secondPass_step, secondStep, hheader, Option.bind_some, if_pos hsentinel]
      rw [secondPass.run_of_step hstep]
      exact (stops_short (by omega)).ignored.second read
    · refine secondPass.run_of_stop ?_
      have hentry : readEntry p.1 p.2.1 p.2.2 = none := by
        by_contra hsome
        obtain ⟨e, he⟩ := Option.ne_none_iff_exists'.mp hsome
        have hneeds := readEntry_needs he
        omega
      rw [secondPass_step, secondStep, hheader, Option.bind_some, if_neg hsentinel, hmarker, hmarker, hmarker, hentry,
        Option.map_none]
      simp only [ite_self]

/-! ## Torn records -/

/-- The header of a record that is cut off behind it. -/
theorem readHeader_take {word : ℕ} (h : word < 2 ^ 32) (body : Bytes) (m : ℕ) :
    readHeader ((withChecksum (leBytes 4 word ++ body)).take (8 + m)) =
      some (crc32 (leBytes 4 word ++ body), word, body.take m) := by
  have hsplit : (withChecksum (leBytes 4 word ++ body)).take (8 + m) =
      leBytes 4 (crc32 (leBytes 4 word ++ body)) ++ (leBytes 4 word ++ body.take m) := by
    rw [withChecksum, ← List.append_assoc, ← List.append_assoc, List.take_append, List.take_of_length_le]
    · simp
    · simp
  unfold readHeader
  rw [hsplit, readN_append_of_length (length_leBytes 4 _), Option.bind_some,
    readN_append_of_length (length_leBytes 4 _), Option.map_some, ofLe_word (crc32_lt _), ofLe_word h]

/-- An entry that is cut off is not read. -/
theorem readEntry_take {key value : Bytes} {ts m : ℕ} (hvalue : value.length < 2 ^ 32)
    (hm : m < (key ++ (leBytes 4 value.length ++ (value ++ leBytes 8 ts))).length) (checksum : ℕ) :
    readEntry checksum key.length ((key ++ (leBytes 4 value.length ++ (value ++ leBytes 8 ts))).take m) = none := by
  by_contra hsome
  obtain ⟨e, he⟩ := Option.ne_none_iff_exists'.mp hsome
  obtain ⟨k, hkey, he⟩ := Option.bind_eq_some_iff.mp he
  obtain ⟨l, hl, he⟩ := Option.bind_eq_some_iff.mp he
  obtain ⟨v, hv, he⟩ := Option.bind_eq_some_iff.mp he
  obtain ⟨t, ht, -⟩ := Option.bind_eq_some_iff.mp he
  obtain ⟨hksplit, hklen⟩ := readN_eq_some hkey
  obtain ⟨hlsplit, hllen⟩ := readN_eq_some hl
  obtain ⟨hvsplit, hvlen⟩ := readN_eq_some hv
  obtain ⟨htsplit, htlen⟩ := readN_eq_some ht
  have hall := List.take_append_drop m (key ++ (leBytes 4 value.length ++ (value ++ leBytes 8 ts)))
  rw [hksplit, hlsplit, List.append_assoc, List.append_assoc] at hall
  obtain ⟨-, hbehind⟩ := List.append_inj hall hklen
  obtain ⟨hword, -⟩ := List.append_inj hbehind (hllen.trans (length_leBytes 4 _).symm)
  rw [hword, ofLe_word hvalue] at hvlen
  -- the length word is whole, so the entry is as long as it was written
  have hlen := congrArg List.length hksplit
  rw [hlsplit, hvsplit, htsplit] at hlen
  simp only [List.length_append, List.length_take, length_leBytes] at hlen hm
  omega

/-- Both passes stop at an entry that is cut off. -/
theorem stops_entry {key value : Bytes} {ts k : ℕ} (h : Encodable (.entry key value ts))
    (hk : k < (encode (.entry key value ts)).length) : Stops ((encode (.entry key value ts)).take k) := by
  obtain ⟨hkey, hvalue, -⟩ := h
  rcases Nat.lt_or_ge k 8 with hshort | hlong
  · exact stops_short ((List.length_take_le k _).trans_lt hshort)
  · obtain ⟨m, rfl⟩ := Nat.exists_eq_add_of_le hlong
    have hheader := readHeader_take (Nat.lt_trans hkey (by decide)) (key ++ (leBytes 4 value.length ++ (value ++ leBytes 8 ts))) m
    have hm : m < (key ++ (leBytes 4 value.length ++ (value ++ leBytes 8 ts))).length := by
      simp only [encode, serializeRecord, withChecksum, List.length_append, length_leBytes] at hk ⊢
      omega
    have hentry := readEntry_take hvalue hm (crc32 (leBytes 4 key.length ++ (key ++ (leBytes 4 value.length ++ (value ++ leBytes 8 ts)))))
    have hne : ∀ n, beginSentinel ≤ n → key.length ≠ n := fun n hn => Nat.ne_of_lt (Nat.lt_of_lt_of_le hkey hn)
    refine ⟨fun found => ?_, fun read => ?_⟩
    · rw [firstPass_step, firstStep, encode, serializeRecord, hheader, Option.bind_some, if_neg (hne _ (by decide)),
        if_neg (hne _ (by decide)), hentry, Option.map_none]
    · rw [secondPass_step, secondStep, encode, serializeRecord, hheader, Option.bind_some, if_neg (hne _ (by decide)),
        if_neg (hne _ (by decide)), if_neg (hne _ (by decide)), if_neg (hne _ (by decide)), hentry, Option.map_none]

/-- The checksum of a checkpoint does not fit the shorter body of the old format. -/
def Distinguished : WalRecord → Prop
  | .checkpoint ts batchTs => crc32 (leBytes 4 checkpointSentinel ++ leBytes 8 ts) ≠
      crc32 (leBytes 4 checkpointSentinel ++ (leBytes 8 ts ++ leBytes 8 batchTs))
  | _ => True

/-- A checkpoint that is cut off is passed over. -/
theorem ignored_checkpoint {ts batchTs k : ℕ} (h : Distinguished (.checkpoint ts batchTs))
    (hk : k < (encode (.checkpoint ts batchTs)).length) : Ignored ((encode (.checkpoint ts batchTs)).take k) := by
  rw [length_encode, WalRecord.size] at hk
  rcases Nat.lt_or_ge k 8 with hshort | hlong
  · exact (stops_short ((List.length_take_le k _).trans_lt hshort)).ignored
  · obtain ⟨m, rfl⟩ := Nat.exists_eq_add_of_le hlong
    have hheader := readHeader_take (show checkpointSentinel < 2 ^ 32 by decide) (leBytes 8 ts ++ leBytes 8 batchTs) m
    have hrest : ((leBytes 8 ts ++ leBytes 8 batchTs).take m).length < 16 :=
      (List.length_take_le m _).trans_lt (by omega)
    refine ⟨fun found => ?_, fun read => ?_⟩
    · rcases Nat.lt_or_ge m 8 with hless | hmore
      · refine firstPass.run_of_stop ?_
        rw [firstPass_step, firstStep, encode, checkpointRecord, hheader, Option.bind_some, if_pos rfl, firstCheckpoint,
          readN_eq_none ((List.length_take_le m _).trans_lt hless), Option.map_none]
      · have htake : (leBytes 8 ts ++ leBytes 8 batchTs).take m = leBytes 8 ts ++ (leBytes 8 batchTs).take (m - 8) := by
          rw [List.take_append, length_leBytes, List.take_of_length_le (by rw [length_leBytes]; exact hmore)]
        have hstep : firstPass.step ((encode (.checkpoint ts batchTs)).take (8 + m)) found =
            some ((leBytes 8 batchTs).take (m - 8), found) := by
          rw [firstPass_step, firstStep, encode, checkpointRecord, hheader, Option.bind_some, if_pos rfl, firstCheckpoint,
            readN_eq_none hrest, htake, readN_ts]
          simp only [Option.map_some, Option.filter_none]
          rw [crcOf_pair, if_neg h]
        rw [firstPass.run_of_step hstep]
        exact (stops_short ((List.length_take_le _ _).trans_lt (by omega))).ignored.first found
    · have hstep : secondPass.step ((encode (.checkpoint ts batchTs)).take (8 + m)) read =
          some ((leBytes 8 ts ++ leBytes 8 batchTs).take m, read) := by
        rw [secondPass_step, secondStep, encode, checkpointRecord, hheader, Option.bind_some, if_pos rfl]
      rw [secondPass.run_of_step hstep]
      exact secondPass_short hrest read

/-! ## The log up to the cut -/

theorem ignored_torn {rs : List WalRecord} {torn : Bytes} (hplain : ∀ r ∈ rs, WAL.Plain r) (henc : ∀ r ∈ rs, Encodable r)
    (hdist : ∀ r ∈ rs, Distinguished r) (h : Torn encode rs torn) : Ignored torn := by
  rcases h with rfl | ⟨r, hr, k, hk, rfl⟩
  · exact stops_nil.ignored
  · cases r with
    | entry key value ts => exact (stops_entry (henc _ hr) hk).ignored
    | checkpoint ts batchTs => exact ignored_checkpoint (hdist _ hr) hk
    | batchBegin ts => cases hplain _ hr
    | batchCommit ts => cases hplain _ hr
    | abort ts => cases hplain _ hr

theorem plain_not_stops {r : WalRecord} (h : WAL.Plain r) : r.stopsFirstPass = false := by
  cases r with
  | batchBegin ts => cases h
  | batchCommit ts => cases h
  | _ => rfl

/-- `Recover` sees the records that are whole. -/
theorem recover_take {rs : List WalRecord} (hplain : ∀ r ∈ rs, WAL.Plain r) (henc : ∀ r ∈ rs, Encodable r)
    (hdist : ∀ r ∈ rs, Distinguished r) (n : ℕ) : recover ((encodeAll rs).take n) = WAL.recover (whole encode n rs) := by
  obtain ⟨torn, htake, htorn⟩ := take_flatMap encode n rs
  have hsub : ∀ r ∈ whole encode n rs, r ∈ rs := fun r hr => (whole_isPrefix encode n rs).subset hr
  have hrec : Recoverable (whole encode n rs) torn := by
    refine ⟨fun r hr => henc r (hsub r hr), ?_, .inl fun r hr => plain_not_stops (hplain r (hsub r hr))⟩
    exact List.Pairwise.imp_of_mem (fun ha _ _ hstops => by rw [plain_not_stops (hplain _ (hsub _ ha))] at hstops; cases hstops)
      (List.pairwise_of_forall (fun _ _ => trivial))
  rw [encodeAll, htake]
  exact hrec.recover_eq (ignored_torn hplain henc hdist htorn)

/-- `Recover` on the first `n` bytes of the file that the calls and a `Sync` leave. -/
def prefixRecovery (calls : List LogCall) (n : ℕ) : Recovered :=
  (LogFile.mk (((calls.foldl LogFile.call LogFile.new).sync true).2.file.take n) [] 0 0).recover.1

theorem prefixRecovery_eq (calls : List LogCall) (n : ℕ) :
    prefixRecovery calls n = recover ((encodeAll (recordsOf calls)).take n) := by
  obtain ⟨hfile, hbuf⟩ := LogFile.foldl_call LogFile.new calls
  rw [prefixRecovery, LogFile.recover, LogFile.sync_true_file, LogFile.sync_true_file, List.append_nil, hfile, hbuf]
  rfl

/-- After entries and checkpoints without a batch, a log that is cut off at any byte is recovered to the entries behind
the last checkpoint before the cut. -/
theorem torn_prefix_recovered (calls : List LogCall) (hplain : ∀ r ∈ recordsOf calls, WAL.Plain r)
    (hkeys : ∀ c ∈ calls, c.pair.1.length ≤ Config.maxKeyBytes) (hvalues : ∀ c ∈ calls, c.pair.2.length < 2 ^ 32)
    (hdist : ∀ r ∈ recordsOf calls, Distinguished r) (n : ℕ) :
    ((∀ r ∈ whole encode n (recordsOf calls), r.isCheckpoint = false) →
      prefixRecovery calls n = ⟨0, [], replayEntries (whole encode n (recordsOf calls))⟩) ∧
    ∀ before ts batchTs after, whole encode n (recordsOf calls) = before ++ .checkpoint ts batchTs :: after →
      (∀ r ∈ after, r.isCheckpoint = false) → prefixRecovery calls n = ⟨ts, [], replayEntries after⟩ := by
  have henc : ∀ r ∈ recordsOf calls, Encodable r := by
    intro r hr
    obtain ⟨c, hc, rfl⟩ := List.mem_map.mp hr
    exact encodable_record (hkeys c hc) (hvalues c hc)
  have hwhole : ∀ r ∈ whole encode n (recordsOf calls), WAL.Plain r :=
    fun r hr => hplain r ((whole_isPrefix encode n _).subset hr)
  rw [prefixRecovery_eq, recover_take hplain henc hdist n]
  generalize whole encode n (recordsOf calls) = rs at hwhole
  refine ⟨fun hnone => ?_, ?_⟩
  · have hlast := lastCheckpoint_of_none rs ((0, 0), rs) hnone
    simp only [WAL.recover, hlast, WAL.secondPass_eq hnone, WAL.abortedBatches_plain hwhole]
  · rintro before ts batchTs after rfl hnone
    obtain rfl : batchTs = 0 := hwhole (.checkpoint ts batchTs) (List.mem_append_right _ List.mem_cons_self)
    have hafter : ∀ r ∈ after, WAL.Plain r :=
      fun r hr => hwhole r (List.mem_append_right _ (List.mem_cons_of_mem _ hr))
    have hlast := lastCheckpoint_split before after ts 0 ((0, 0), before ++ .checkpoint ts 0 :: after) hnone
      fun r hr => plain_not_stops (hwhole r (List.mem_append_left _ hr))
    simp only [WAL.recover, hlast, WAL.secondPass_eq hnone, WAL.abortedBatches_plain hafter]

instance decidablePlain : (r : WalRecord) → Decidable (WAL.Plain r)
  | .entry _ _ _ => .isTrue trivial
  | .checkpoint _ batchTs => inferInstanceAs (Decidable (batchTs = 0))
  | .batchBegin _ => .isFalse id
  | .batchCommit _ => .isFalse id
  | .abort _ => .isFalse id

instance decidableDistinguished : (r : WalRecord) → Decidable (Distinguished r)
  | .checkpoint ts batchTs => inferInstanceAs (Decidable (crc32 (leBytes 4 checkpointSentinel ++ leBytes 8 ts) ≠
      crc32 (leBytes 4 checkpointSentinel ++ (leBytes 8 ts ++ leBytes 8 batchTs))))
  | .entry _ _ _ => .isTrue trivial
  | .batchBegin _ => .isTrue trivial
  | .batchCommit _ => .isTrue trivial
  | .abort _ => .isTrue trivial

/-- An entry, a checkpoint, an entry and a checkpoint that is cut off behind its timestamp. -/
theorem torn_prefix_recovered_checkpoint :
    prefixRecovery [.buffer [1] [2] 5, .writeCheckpoint 4 0, .buffer [3] [] 6, .writeCheckpoint 7 0] 85 =
      ⟨4, [], [⟨[3], [], 6, false⟩]⟩ :=
  (torn_prefix_recovered [.buffer [1] [2] 5, .writeCheckpoint 4 0, .buffer [3] [] 6, .writeCheckpoint 7 0]
    (by decide) (by decide) (by decide) (by decide) 85).2 [.entry [1] [2] 5] 4 0 [.entry [3] [] 6]
    (by decide) (by decide)

end Kvdb.WalBytes
