import Kvdb.SSTable.ReadAll

/-! # When `SSTable::ReadAll` ends

The loop over the blocks ends when as many entries have been read as the header says. Behind the end of the file every
byte of a word reads as 255 and every byte of a payload as 0, and a block of zeros has no entries: once the file is used
up the number of entries grows no more. -/
namespace Kvdb.SSTableBytes
set_option autoImplicit false

open LittleEndian InputStream

/-! ## The blocks that the length words of a file mark out -/

/-- The length word of the block at the front of `bs`. -/
def payloadSize (bs : Bytes) : ℕ := wordOf 4 (bs.drop 5)

/-- Its payload, with zeros for what is not in the file. -/
def payloadOf (bs : Bytes) : Bytes :=
  (bs.drop 9).take (payloadSize bs) ++ List.replicate (payloadSize bs - ((bs.drop 9).take (payloadSize bs)).length) 0

/-- The entry counts of the blocks whose first nine bytes are in `bs`, of `n` blocks at most. -/
def blockCounts : ℕ → Bytes → List ℕ
  | 0, _ => []
  | n + 1, bs =>
    if bs.length < 9 then []
    else wordOf 4 (payloadOf bs) :: blockCounts n (bs.drop (9 + payloadSize bs))

/-- `ReadAll` rejects the header, or the blocks of the file have the entries that the header promises. -/
def Complete (data : Bytes) : Prop :=
  wordOf 4 data = Config.sstableMagic → wordOf 4 (data.drop 4) = Config.sstableVersion →
    wordOf 4 (data.drop 12) ≤ (blockCounts data.length (data.drop 24)).sum

instance (data : Bytes) : Decidable (Complete data) := by
  unfold Complete
  infer_instance

/-! ## One round of the loop -/

theorem length_readEntries (n : ℕ) (bs : InputStream) : (readEntries n bs).length = n := by
  induction n generalizing bs with
  | zero => rfl
  | succ n ih => rw [readEntries, List.length_cons, ih]

theorem readChunk_remaining (s : InputStream) :
    (readChunk s).1 = payloadOf s.remaining ∧
      (readChunk s).2.remaining = s.remaining.drop (9 + payloadSize s.remaining) := by
  obtain ⟨-, hcrc⟩ := s.getLe_remaining 4
  have hskip := (s.getLe 4).2.skip_remaining 1
  rw [hcrc, List.drop_drop] at hskip
  obtain ⟨hsize, hleft⟩ := ((s.getLe 4).2.skip 1).getLe_remaining 4
  rw [hskip] at hsize hleft
  obtain ⟨hpayload, hrest⟩ :=
    (((s.getLe 4).2.skip 1).getLe 4).2.readZeroed_remaining (payloadSize s.remaining)
  rw [hleft, List.drop_drop] at hpayload hrest
  have hchunk : readChunk s = (((s.getLe 4).2.skip 1).getLe 4).2.readZeroed (payloadSize s.remaining) := by
    rw [payloadSize, ← hsize]
    rfl
  rw [hchunk]
  refine ⟨hpayload, hrest.trans ?_⟩
  rw [List.drop_drop]
  congr 1
  omega

/-- A round reads the block at the front of what is left. -/
theorem readBlock_remaining (s : InputStream) :
    (readBlock s).1.length = wordOf 4 (payloadOf s.remaining) ∧
      (readBlock s).2.remaining = s.remaining.drop (9 + payloadSize s.remaining) := by
  obtain ⟨hpayload, hrest⟩ := readChunk_remaining s
  refine ⟨?_, hrest⟩
  have hcount := (getLe_remaining 4 (ofData (readChunk s).1)).1
  rw [remaining_ofData] at hcount
  have hentries : (readBlock s).1 =
      readEntries ((ofData (readChunk s).1).getLe 4).1 ((ofData (readChunk s).1).getLe 4).2 := by
    simp only [readBlock, readChunk]
  rw [← hpayload, ← hcount, hentries, length_readEntries]

/-- Behind the end of the file a block has no entries. -/
theorem payloadOf_short {bs : Bytes} (h : bs.length < 9) : wordOf 4 (payloadOf bs) = 0 := by
  have hsize : 4 ≤ payloadSize bs :=
    le_trans (by decide) (wordOf_short (show (bs.drop 5).length ≤ 3 by rw [List.length_drop]; omega))
  have hnil : bs.drop 9 = [] := List.drop_of_length_le (Nat.le_of_lt h)
  obtain ⟨n, hn⟩ := Nat.exists_eq_add_of_le hsize
  rw [payloadOf, hnil, List.take_nil, List.nil_append, List.length_nil, Nat.sub_zero, hn, wordOf, List.replicate_add,
    List.append_assoc, List.take_left' (List.length_replicate ..)]
  rfl

/-! ## The loop -/

variable {ec : ℕ}

theorem readBlocks_ends {n : ℕ} {s : InputStream} {entries : List KeyValuePair}
    (h : ec ≤ entries.length + (blockCounts n s.remaining).sum) : ∃ es, readBlocks ec (n + 1) s entries = some es := by
  induction n generalizing s entries with
  | zero =>
    rw [blockCounts, List.sum_nil] at h
    exact ⟨entries, by rw [readBlocks, if_neg (by omega)]⟩
  | succ n ih =>
    rw [readBlocks]
    split
    · next hmore =>
      obtain ⟨hcount, hrest⟩ := readBlock_remaining s
      rw [blockCounts] at h
      split at h
      · rw [List.sum_nil] at h
        omega
      · refine ih ?_
        rw [hrest, List.length_append, hcount, Nat.add_assoc]
        rwa [List.sum_cons] at h
    · exact ⟨entries, rfl⟩

theorem readBlocks_stuck {n : ℕ} {s : InputStream} {entries : List KeyValuePair} (hn : s.remaining.length ≤ n)
    (h : entries.length + (blockCounts n s.remaining).sum < ec) (fuel : ℕ) : readBlocks ec fuel s entries = none := by
  induction fuel generalizing n s entries with
  | zero => rfl
  | succ fuel ih =>
    obtain ⟨hcount, hrest⟩ := readBlock_remaining s
    have hless := congrArg List.length hrest
    rw [List.length_drop] at hless
    rw [readBlocks, if_pos (by omega)]
    rcases Nat.lt_or_ge s.remaining.length 9 with hshort | hlong
    · have hzero := payloadOf_short hshort
      refine ih (n := 0) (by omega) ?_
      rw [List.length_append, hcount, hzero, blockCounts, List.sum_nil]
      omega
    · obtain ⟨n, rfl⟩ := Nat.exists_eq_succ_of_ne_zero (show n ≠ 0 by omega)
      rw [blockCounts, if_neg (by omega), List.sum_cons] at h
      refine ih (n := n) (by omega) ?_
      rw [hrest, List.length_append, hcount]
      omega

/-! ## The whole file -/

theorem readAll_remaining {data : Bytes} (hmagic : wordOf 4 data = Config.sstableMagic)
    (hversion : wordOf 4 (data.drop 4) = Config.sstableVersion) : ∃ s, s.remaining = data.drop 24 ∧
      ∀ fuel, readAll fuel data = (readBlocks (wordOf 4 (data.drop 12)) fuel s []).map .ok := by
  obtain ⟨h₁, hleft₁⟩ := getLe_remaining 4 (ofData data)
  obtain ⟨h₂, hleft₂⟩ := getLe_remaining 4 (getLe 4 (ofData data)).2
  obtain ⟨-, hleft₃⟩ := getLe_remaining 4 (getLe 4 (getLe 4 (ofData data)).2).2
  obtain ⟨h₄, hleft₄⟩ := getLe_remaining 4 (getLe 4 (getLe 4 (getLe 4 (ofData data)).2).2).2
  rw [remaining_ofData] at h₁ hleft₁
  rw [hleft₁] at h₂ hleft₂
  rw [hleft₂, List.drop_drop] at hleft₃
  rw [hleft₃, List.drop_drop] at h₄ hleft₄
  refine ⟨skip 4 (skip 4 (getLe 4 (getLe 4 (getLe 4 (getLe 4 (ofData data)).2).2).2).2), ?_, fun fuel => ?_⟩
  · rw [skip_remaining, skip_remaining, hleft₄, List.drop_drop, List.drop_drop, List.drop_drop]
  · rw [readAll]
    simp only [h₁, h₂, h₄, hmagic, hversion, ne_eq, not_true_eq_false, if_false]

/-- A round for each byte of the file is enough. -/
theorem readAll_ends {data : Bytes} (h : Complete data) : ∃ r, readAll (data.length + 1) data = some r := by
  by_cases hmagic : wordOf 4 data = Config.sstableMagic
  · by_cases hversion : wordOf 4 (data.drop 4) = Config.sstableVersion
    · obtain ⟨s, hleft, hread⟩ := readAll_remaining hmagic hversion
      have hsum : wordOf 4 (data.drop 12) ≤ ([] : List KeyValuePair).length + (blockCounts data.length s.remaining).sum := by
        rw [List.length_nil, Nat.zero_add, hleft]
        exact h hmagic hversion
      obtain ⟨es, hes⟩ := readBlocks_ends hsum
      exact ⟨.ok es, by rw [hread, hes]; rfl⟩
    · obtain ⟨h₁, hleft₁⟩ := getLe_remaining 4 (ofData data)
      have h₂ := (getLe_remaining 4 (getLe 4 (ofData data)).2).1
      rw [remaining_ofData] at h₁ hleft₁
      rw [hleft₁] at h₂
      refine ⟨.error "Bad version", ?_⟩
      rw [readAll]
      simp only [h₁, h₂, hmagic, hversion, ne_eq, not_true_eq_false, not_false_eq_true, if_false, if_true]
  · have h₁ := (getLe_remaining 4 (ofData data)).1
    rw [remaining_ofData] at h₁
    refine ⟨.error "Bad magic", ?_⟩
    rw [readAll]
    simp only [h₁, hmagic, ne_eq, not_false_eq_true, if_true]

theorem readAll_stuck {data : Bytes} (h : ¬Complete data) (fuel : ℕ) : readAll fuel data = none := by
  simp only [Complete, Classical.not_imp] at h
  obtain ⟨hmagic, hversion, hsum⟩ := h
  obtain ⟨s, hleft, hread⟩ := readAll_remaining hmagic hversion
  have hlen := congrArg List.length hleft
  rw [List.length_drop] at hlen
  rw [hread, readBlocks_stuck (n := data.length) (by omega), Option.map_none]
  rw [hleft, List.length_nil]
  omega

/-- `ReadAll` ends exactly on the files whose header it rejects or whose blocks have the entries that the header
promises. -/
theorem readAll_ends_iff (data : Bytes) : (∃ fuel r, readAll fuel data = some r) ↔ Complete data := by
  constructor
  · rintro ⟨fuel, r, hread⟩
    by_contra hstuck
    rw [readAll_stuck hstuck] at hread
    cases hread
  · intro h
    exact ⟨_, readAll_ends h⟩

/-- A file with one entry. -/
def oneEntry : SSTableFile := SSTableFile.write (fun _ => (64, 1)) [⟨[1], [2], 3, false⟩] []

/-- The file is cut off behind its header. -/
theorem header_read_forever : ¬∀ data : Bytes, ∃ fuel r, readAll fuel data = some r := by
  intro h
  obtain ⟨fuel, r, hread⟩ := h ((fileBytes oneEntry).take 24)
  rw [readAll_stuck (by decide)] at hread
  cases hread

end Kvdb.SSTableBytes
