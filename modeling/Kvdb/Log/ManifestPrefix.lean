import Kvdb.Log.ManifestCrash

/-! # A MANIFEST that is cut off anywhere

The first bytes of a MANIFEST are complete records and the front of one more, and `Recover` reads what it reads of the
complete records alone. Of a torn record the read loop takes nothing, as long as the checksum tells the front of an abort
record from one in the old format. A path of 65536 bytes or more has a length that does not fit its word; its record is
read with a shorter path and rejected by its checksum, torn or not. -/
namespace Kvdb.ManifestBytes
set_option autoImplicit false

open LittleEndian Scan Crc32

/-- The body that is read of an add record, shorter than the one written if the length of the path does not fit. -/
def readLength (t : Table) : ℕ := 39 + t.filepath.length % 2 ^ 16

/-- The checksum of a record does not fit the shorter body that can be read in its place: the nine bytes of an abort
record in the old format, or an add record with a path cut off. -/
def Unmistakable : Record → Prop
  | .addSSTable t => 2 ^ 16 ≤ t.filepath.length →
      crc32 ((body (.addSSTable t)).take (readLength t)) ≠ crc32 (body (.addSSTable t))
  | .removeSSTable _ => True
  | .abortBatch batchTs fenceSeq =>
      crc32 ((body (.abortBatch batchTs fenceSeq)).take 9) ≠ crc32 (body (.abortBatch batchTs fenceSeq))

/-! ## Reading records in front of anything -/

theorem readWord_leBytes (k n : ℕ) (rest : Bytes) : readWord k (leBytes k n ++ rest) = some (n % 256 ^ k, rest) := by
  rw [readWord, readN_append_of_length (length_leBytes k n), Option.map_some, ofLe_leBytes_mod]

theorem readWord_short {k : ℕ} {bs : Bytes} (h : bs.length < k) : readWord k bs = none := by
  rw [readWord, readN_eq_none h, Option.map_none]

/-- The words of an add record, with `path` behind them. -/
def tableWords (t : Table) (path : Bytes) : Bytes :=
  leBytes 8 t.manifestSeq ++ (leBytes 8 t.entryCount ++ (leBytes 4 t.minKeyLen ++ (leBytes 4 t.maxKeyLen ++
    (leBytes 8 t.fileSize ++ (leBytes 4 (levelWord t.level) ++ (leBytes 2 t.filepath.length ++ path))))))

/-- The table that is read from the words, with the path that follows them. -/
def tableOf (t : Table) (path : Bytes) : Table :=
  ⟨t.manifestSeq % 256 ^ 8, t.entryCount % 256 ^ 8, t.minKeyLen % 256 ^ 4, t.maxKeyLen % 256 ^ 4, t.fileSize % 256 ^ 8,
    wordLevel (levelWord t.level % 256 ^ 4), path, []⟩

theorem readTable_words (t : Table) (path : Bytes) : readTable (tableWords t path) =
    (readN (t.filepath.length % 2 ^ 16) path).map fun p => (tableOf t p.1, p.2) := by
  unfold readTable tableWords
  simp only [readWord_leBytes, Option.bind_some]
  rfl

theorem readTable_short {bs : Bytes} (h : bs.length < 38) : readTable bs = none := by
  by_contra hsome
  obtain ⟨p, hp⟩ := Option.ne_none_iff_exists'.mp hsome
  obtain ⟨seq, hseq, hp⟩ := Option.bind_eq_some_iff.mp hp
  obtain ⟨count, hcount, hp⟩ := Option.bind_eq_some_iff.mp hp
  obtain ⟨minLen, hmin, hp⟩ := Option.bind_eq_some_iff.mp hp
  obtain ⟨maxLen, hmax, hp⟩ := Option.bind_eq_some_iff.mp hp
  obtain ⟨size, hsize, hp⟩ := Option.bind_eq_some_iff.mp hp
  obtain ⟨level, hlevel, hp⟩ := Option.bind_eq_some_iff.mp hp
  obtain ⟨pathLen, hpathLen, -⟩ := Option.bind_eq_some_iff.mp hp
  have h1 := readWord_length hseq
  have h2 := readWord_length hcount
  have h3 := readWord_length hmin
  have h4 := readWord_length hmax
  have h5 := readWord_length hsize
  have h6 := readWord_length hlevel
  have h7 := readWord_length hpathLen
  omega

theorem length_tableWords (t : Table) (path : Bytes) : (tableWords t path).length = 38 + path.length := by
  simp only [tableWords, List.length_append, length_leBytes]
  omega

theorem tableWords_append (t : Table) (path rest : Bytes) : tableWords t (path ++ rest) = tableWords t path ++ rest := by
  simp only [tableWords, List.append_assoc]

/-- Words without the whole path that they announce. -/
theorem readTable_torn {t : Table} {i : ℕ} (h : i < 38 + t.filepath.length % 2 ^ 16) :
    readTable ((tableWords t t.filepath).take i) = none := by
  rcases Nat.lt_or_ge i 38 with hshort | hlong
  · exact readTable_short ((List.length_take_le _ _).trans_lt hshort)
  · obtain ⟨q, rfl⟩ := Nat.exists_eq_add_of_le hlong
    have htaken : (tableWords t t.filepath).take (38 + q) = tableWords t (t.filepath.take q) := by
      rw [← List.nil_append t.filepath, tableWords_append, List.take_append, length_tableWords, List.nil_append,
        List.length_nil, Nat.add_zero, Nat.add_sub_cancel_left, List.take_of_length_le (by rw [length_tableWords]; simp),
        ← List.nil_append (t.filepath.take q), tableWords_append]
      rfl
    rw [htaken, readTable_words, readN_eq_none ((List.length_take_le q _).trans_lt (by omega)), Option.map_none]

/-- A read body that is followed by `rest`, with its checksum compared. -/
theorem scanStep_of_body {checksum : ℕ} {bs b rest : Bytes} {r : Record} (read : List Record)
    (hword : readWord 4 bs = some (checksum, b ++ rest)) (hbody : readBody (b ++ rest) = some (r, rest)) :
    scanner.step bs read = if crc32 b = checksum then some (rest, read ++ [r]) else none := by
  have htaken : (b ++ rest).take ((b ++ rest).length - rest.length) = b := by
    rw [List.length_append, Nat.add_sub_cancel, List.take_left]
  change scanStep bs read = _
  rw [scanStep, hword, Option.bind_some, hbody, Option.bind_some, htaken]

/-- The front of the body of an add record, up to the part of the path that its length word counts. -/
theorem body_take (t : Table) : (body (.addSSTable t)).take (readLength t) =
    typeAddSSTable :: tableWords t (t.filepath.take (t.filepath.length % 2 ^ 16)) := by
  have hsplit : tablePayload t = tableWords t (t.filepath.take (t.filepath.length % 2 ^ 16)) ++
      t.filepath.drop (t.filepath.length % 2 ^ 16) := by
    rw [← tableWords_append, List.take_append_drop]
    rfl
  have hlen : (tableWords t (t.filepath.take (t.filepath.length % 2 ^ 16))).length = 38 + t.filepath.length % 2 ^ 16 := by
    rw [length_tableWords, List.length_take_of_le (Nat.mod_le _ _)]
  rw [body, readLength, show 39 + t.filepath.length % 2 ^ 16 = 38 + t.filepath.length % 2 ^ 16 + 1 by omega,
    List.take_succ_cons, hsplit, List.take_left' hlen]

/-- An add record whose bytes go on behind the path that is read. -/
theorem scanStep_table (t : Table) (rest : Bytes) (read : List Record) :
    scanner.step (leBytes 4 (crc32 (body (.addSSTable t))) ++
        ((body (.addSSTable t)).take (readLength t) ++ rest)) read =
      if crc32 ((body (.addSSTable t)).take (readLength t)) = crc32 (body (.addSSTable t)) then
        some (rest, read ++ [.addSSTable (tableOf t (t.filepath.take (t.filepath.length % 2 ^ 16)))])
      else none := by
  refine scanStep_of_body read (readWord_append (crc32_lt _) _) ?_
  rw [body_take, List.cons_append, readBody, readPayload, if_pos rfl, ← tableWords_append, readTable_words,
    readN_append_of_length (List.length_take_of_le (Nat.mod_le _ _))]
  rfl

/-- A record in front of anything is read, or the loop stops at it, whatever follows. -/
theorem scanStep_before {r : Record} (h : Unmistakable r) : ∃ r' : Option Record, ∀ (bs : Bytes) (read : List Record),
    scanner.step (encode r ++ bs) read = r'.map fun r' => (bs, read ++ [r']) := by
  have hwhole : ∀ r', (∀ bs, readBody (body r ++ bs) = some (r', bs)) → ∀ (bs : Bytes) (read : List Record),
      scanner.step (encode r ++ bs) read = (some r').map fun r' => (bs, read ++ [r']) := by
    intro r' hread bs read
    have hword : readWord 4 (encode r ++ bs) = some (crc32 (body r), body r ++ bs) := by
      rw [encode, List.append_assoc]
      exact readWord_append (crc32_lt _) _
    rw [scanStep_of_body read hword (hread bs), if_pos rfl]
    rfl
  cases r with
  | addSSTable t =>
    have hbytes : ∀ bs, encode (.addSSTable t) ++ bs = leBytes 4 (crc32 (body (.addSSTable t))) ++
        ((body (.addSSTable t)).take (readLength t) ++ ((body (.addSSTable t)).drop (readLength t) ++ bs)) := by
      intro bs
      rw [encode, List.append_assoc, ← List.append_assoc (List.take _ _), List.take_append_drop]
    rcases Nat.lt_or_ge t.filepath.length (2 ^ 16) with hfits | hlong
    · refine ⟨some (.addSSTable (tableOf t (t.filepath.take (t.filepath.length % 2 ^ 16)))), fun bs read => ?_⟩
      have hall : (body (.addSSTable t)).length ≤ readLength t := by
        rw [body, List.length_cons, readLength, Nat.mod_eq_of_lt hfits]
        exact Nat.le_of_eq (by rw [show tablePayload t = tableWords t t.filepath from rfl, length_tableWords]; omega)
      rw [hbytes, scanStep_table, List.take_of_length_le hall, List.drop_of_length_le hall, List.nil_append, if_pos rfl]
      rfl
    · exact ⟨none, fun bs read => by rw [hbytes, scanStep_table, if_neg (h hlong)]; rfl⟩
  | removeSSTable seq =>
    refine ⟨some (.removeSSTable (seq % 256 ^ 8)), hwhole _ fun bs => ?_⟩
    rw [body, List.cons_append, readBody, readPayload, if_neg (by decide), if_pos rfl, readWord_leBytes]
    rfl
  | abortBatch batchTs fenceSeq =>
    refine ⟨some (.abortBatch (batchTs % 256 ^ 8) (fenceSeq % 256 ^ 8)), hwhole _ fun bs => ?_⟩
    rw [body, List.cons_append, readBody, readPayload, if_neg (by decide), if_neg (by decide), if_pos rfl, readAbort,
      List.append_assoc, readWord_leBytes, Option.map_some, readWord_leBytes]

/-! ## Torn records -/

theorem scanStep_of_no_body {checksum : ℕ} {bs rest : Bytes} (read : List Record)
    (hword : readWord 4 bs = some (checksum, rest)) (hbody : readBody rest = none) : scanner.step bs read = none := by
  change scanStep bs read = _
  rw [scanStep, hword, Option.bind_some, hbody, Option.bind_none]

/-- At a record that is cut off the loop stops. -/
theorem scanStep_torn {r : Record} (h : Unmistakable r) {k : ℕ} (hk : k < (encode r).length) (read : List Record) :
    scanner.step ((encode r).take k) read = none := by
  rcases Nat.lt_or_ge k 4 with hshort | hlong
  · change scanStep _ read = _
    rw [scanStep, readWord_short ((List.length_take_le k _).trans_lt hshort), Option.bind_none]
  · obtain ⟨j, rfl⟩ := Nat.exists_eq_add_of_le hlong
    have hbytes : (encode r).take (4 + j) = leBytes 4 (crc32 (body r)) ++ (body r).take j := by
      rw [encode, List.take_append, length_leBytes, Nat.add_sub_cancel_left, List.take_of_length_le (by simp)]
    have hj : j < (body r).length := by
      rw [encode, List.length_append, length_leBytes] at hk
      omega
    rw [hbytes]
    have hword : readWord 4 (leBytes 4 (crc32 (body r)) ++ (body r).take j) = some (crc32 (body r), (body r).take j) :=
      readWord_append (crc32_lt _) _
    cases j with
    | zero => exact scanStep_of_no_body read hword rfl
    | succ i =>
      cases r with
      | addSSTable t =>
        have hpayload : tablePayload t = tableWords t t.filepath := rfl
        rcases Nat.lt_or_ge i (38 + t.filepath.length % 2 ^ 16) with hless | hmore
        · refine scanStep_of_no_body read hword ?_
          rw [body, List.take_succ_cons, readBody, readPayload, if_pos rfl, hpayload, readTable_torn hless, Option.map_none]
        · have hlong : 2 ^ 16 ≤ t.filepath.length := by
            by_contra hfits
            rw [body, List.length_cons, hpayload, length_tableWords] at hj
            rw [Nat.mod_eq_of_lt (Nat.lt_of_not_le hfits)] at hmore
            omega
          have hsplit : (body (.addSSTable t)).take (i + 1) = (body (.addSSTable t)).take (readLength t) ++
              ((body (.addSSTable t)).take (i + 1)).drop (readLength t) := by
            conv_lhs => rw [← List.take_append_drop (readLength t) ((body (.addSSTable t)).take (i + 1))]
            rw [List.take_take, Nat.min_eq_left (by rw [readLength]; omega)]
          rw [hsplit, scanStep_table, if_neg (h hlong)]
      | removeSSTable seq =>
        refine scanStep_of_no_body read hword ?_
        rw [body, List.length_cons, length_leBytes] at hj
        rw [body, List.take_succ_cons, readBody, readPayload, if_neg (by decide), if_pos rfl,
          readWord_short ((List.length_take_le _ _).trans_lt (by omega)), Option.map_none]
      | abortBatch batchTs fenceSeq =>
        rw [body, List.length_cons, List.length_append, length_leBytes, length_leBytes] at hj
        rcases Nat.lt_or_ge i 8 with hless | hmore
        · refine scanStep_of_no_body read hword ?_
          rw [body, List.take_succ_cons, readBody, readPayload, if_neg (by decide), if_neg (by decide), if_pos rfl, readAbort,
            readWord_short ((List.length_take_le _ _).trans_lt hless), Option.map_none]
        · have htaken : ∀ q, (body (.abortBatch batchTs fenceSeq)).take (9 + q) =
              (typeAbortBatch :: leBytes 8 batchTs) ++ (leBytes 8 fenceSeq).take q := by
            intro q
            rw [body, Nat.add_comm 9 q, List.take_succ_cons, List.take_append, length_leBytes, Nat.add_sub_cancel,
              List.take_of_length_le (by simp), List.cons_append]
          obtain ⟨q, rfl⟩ := Nat.exists_eq_add_of_le hmore
          have hold := htaken 0
          rw [List.take_zero, List.append_nil] at hold
          rw [show 8 + q + 1 = 9 + q by omega, htaken] at hword ⊢
          refine (scanStep_of_body read hword (r := .abortBatch (batchTs % 256 ^ 8) (batchTs % 256 ^ 8)) ?_).trans ?_
          · rw [List.cons_append, readBody, readPayload, if_neg (by decide), if_neg (by decide), if_pos rfl, readAbort,
              readWord_leBytes, Option.map_some]
            simp only [readWord_short ((List.length_take_le q (leBytes 8 fenceSeq)).trans_lt (show q < 8 by omega))]
          · rw [if_neg]
            rw [← hold]
            exact h

/-! ## The records up to the cut -/

theorem run_torn {rs : List Record} (h : ∀ r ∈ rs, Unmistakable r) {torn : Bytes}
    (htorn : ∀ read, scanner.step torn read = none) (read : List Record) :
    scanner.run (encodeAll rs ++ torn) read = scanner.run (encodeAll rs) read := by
  induction rs generalizing read with
  | nil => exact (scanner.run_of_stop (htorn read)).trans (scanner.run_of_stop rfl).symm
  | cons r rs ih =>
    obtain ⟨r', hstep⟩ := scanStep_before (h r List.mem_cons_self)
    rw [encodeAll_cons, List.append_assoc]
    cases r' with
    | none => rw [scanner.run_of_stop (hstep _ read), scanner.run_of_stop (hstep _ read)]
    | some r' =>
      rw [scanner.run_of_step (hstep _ read), scanner.run_of_step (hstep _ read)]
      exact ih (fun r hr => h r (List.mem_cons_of_mem _ hr)) _

/-- `Recover` on the first `n` bytes returns what it returns on the records that lie wholly within them. -/
theorem recover_of_torn (rs : List Record) (h : ∀ r ∈ rs, Unmistakable r) (n : ℕ) :
    recover ((encodeAll rs).take n) = recover (encodeAll (whole encode n rs)) := by
  obtain ⟨torn, htake, htorn⟩ := take_flatMap encode n rs
  have hstop : ∀ read, scanner.step torn read = none := by
    intro read
    rcases htorn with rfl | ⟨r, hr, k, hk, rfl⟩
    · rfl
    · exact scanStep_torn (h r hr) hk read
  have hrun := run_torn (fun r hr => h r ((whole_isPrefix encode n rs).subset hr)) hstop []
  rw [recover, recover, scan, scan, encodeAll, htake]
  exact congrArg catalogue hrun

instance decidableUnmistakable (r : Record) : Decidable (Unmistakable r) := by
  cases r <;> unfold Unmistakable <;> infer_instance

/-- A table, and an abort record that is cut off inside its fence. -/
theorem recover_of_torn_abort :
    recover ((encodeAll [.addSSTable ⟨0, 1, 1, 1, 64, 0, [0x73], []⟩, .abortBatch 3 5]).take 60) =
      recover (encodeAll [.addSSTable ⟨0, 1, 1, 1, 64, 0, [0x73], []⟩]) :=
  (recover_of_torn [.addSSTable ⟨0, 1, 1, 1, 64, 0, [0x73], []⟩, .abortBatch 3 5] (by decide) 60).trans
    (congrArg (fun rs => recover (encodeAll rs)) (by decide))

end Kvdb.ManifestBytes
