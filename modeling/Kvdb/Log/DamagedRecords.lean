import Kvdb.Log.BurstErrors
import Kvdb.Log.Recover
import Kvdb.Log.ManifestBytes
import Kvdb.SSTable.MetadataOfFile

/-! # Damaged records

A reader that has taken exactly the bytes of a record for a record has compared the checksum of all of them, so it never
does that with a burst in them. Where the lengths are what they were, that is where the scan of the log stops. The
checksum of the metadata stands behind its bytes and is part of what may be damaged. -/
namespace Kvdb.Damage
set_option autoImplicit false

open LittleEndian Scan Crc32

/-! ## The log -/

section Log

open WalBytes

/-- The bytes under the checksum of a record. -/
def checked (r : WalRecord) : Bytes := (encode r).drop 4

/-- The records whose checksum `Recover` compares. -/
def Compared : WalRecord → Prop
  | .entry _ _ _ => True
  | .checkpoint _ _ => True
  | _ => False

theorem encode_eq (r : WalRecord) : encode r = withChecksum (checked r) := by
  have hdrop : ∀ body : Bytes, (withChecksum body).drop 4 = body := fun body => List.drop_left' (length_leBytes 4 _)
  cases r <;> exact congrArg withChecksum (hdrop _).symm

theorem Compared.length_gt {r : WalRecord} (h : Compared r) : 12 < (checked r).length := by
  have hlen := length_encode r
  rw [checked, List.length_drop, hlen]
  cases r with
  | entry key value ts =>
    rw [WalRecord.size]
    omega
  | checkpoint ts batchTs =>
    rw [WalRecord.size]
    omega
  | _ => exact absurd h id

variable {c : ℕ} {body rest : Bytes}

theorem readHeader_append (hc : c < 2 ^ 32) {word payload : Bytes} (hword : word.length = 4) :
    readHeader (leBytes 4 c ++ ((word ++ payload) ++ rest)) = some (c, ofLe word, payload ++ rest) := by
  rw [readHeader, readN_append_of_length (length_leBytes 4 c), Option.bind_some, List.append_assoc,
    readN_append_of_length hword, Option.map_some, ofLe_word hc]

theorem payload_of_readN {n : ℕ} {payload : Bytes} {p : Bytes × Bytes} (h : readN n (payload ++ rest) = some p)
    (hrest : p.2 = rest) : p.1 = payload ∧ payload.length = n := by
  obtain ⟨hbytes, hlen⟩ := readN_eq_some h
  rw [hrest] at hbytes
  obtain rfl := List.append_cancel_right hbytes
  exact ⟨rfl, hlen⟩

theorem crc_of_readEntry {word payload : Bytes} (hword : word.length = 4) {e : KeyValuePair × Bytes}
    (h : readEntry c (ofLe word) (payload ++ rest) = some e) (hrest : e.2 = rest) : crc32 (word ++ payload) = c := by
  obtain ⟨key, hkey, h⟩ := Option.bind_eq_some_iff.mp h
  obtain ⟨l, hl, h⟩ := Option.bind_eq_some_iff.mp h
  obtain ⟨value, hvalue, h⟩ := Option.bind_eq_some_iff.mp h
  obtain ⟨ts, hts, h⟩ := Option.bind_eq_some_iff.mp h
  split at h
  · next hcrc =>
    cases h
    have hbytes : payload ++ rest = (key.1 ++ (l.1 ++ (value.1 ++ ts.1))) ++ rest := by
      rw [(readN_eq_some hkey).1, (readN_eq_some hl).1, (readN_eq_some hvalue).1, (readN_eq_some hts).1, hrest]
      simp only [List.append_assoc]
    have hl4 := leBytes_ofLe l.1
    have hw4 := leBytes_ofLe word
    rw [(readN_eq_some hl).2] at hl4
    rw [hword] at hw4
    rw [List.append_cancel_right hbytes, ← hcrc, crcOf_eq, hl4, hw4]
    simp
  · cases h

/-- Where the first pass goes on right behind the bytes, it has compared their checksum. -/
theorem crc_of_firstStep (hc : c < 2 ^ 32) (hbody : 12 < body.length) {found found' : Found}
    (h : firstPass.step (leBytes 4 c ++ (body ++ rest)) found = some (rest, found')) : crc32 body = c := by
  obtain ⟨word, payload, rfl, hword⟩ : ∃ word payload, body = word ++ payload ∧ word.length = 4 :=
    ⟨body.take 4, body.drop 4, (List.take_append_drop 4 body).symm, List.length_take_of_le (by omega)⟩
  rw [List.length_append] at hbody
  rw [firstPass_step, firstStep, readHeader_append hc hword, Option.bind_some] at h
  split at h
  · next hsentinel =>
    obtain ⟨ts, hts, h⟩ := Option.map_eq_some_iff.mp h
    split at h
    · next b hb =>
      obtain ⟨hread, hcrc⟩ := Option.filter_eq_some_iff.mp hb
      obtain ⟨rfl, -⟩ := payload_of_readN hread (congrArg Prod.fst h)
      have hw4 := leBytes_ofLe word
      rw [hword, show ofLe word = checkpointSentinel from hsentinel] at hw4
      rwa [decide_eq_true_eq, crcOf_pair, hw4] at hcrc
    -- Eight bytes only are stepped over where the checksum of a checkpoint of 16 bytes is wrong.
    · have hrest : ts.2 = rest := by
        split at h <;> exact congrArg Prod.fst h
      have := (payload_of_readN hts hrest).2
      omega
  · split at h
    · obtain ⟨ts, hts, h⟩ := Option.map_eq_some_iff.mp h
      have := (payload_of_readN hts (congrArg Prod.fst h)).2
      omega
    · obtain ⟨e, he, h⟩ := Option.map_eq_some_iff.mp h
      exact crc_of_readEntry hword he (congrArg Prod.fst h)

/-- So has the second pass. -/
theorem crc_of_secondStep (hc : c < 2 ^ 32) (hbody : 12 < body.length) {read read' : List WalRecord}
    (h : secondPass.step (leBytes 4 c ++ (body ++ rest)) read = some (rest, read')) : crc32 body = c := by
  obtain ⟨word, payload, rfl, hword⟩ : ∃ word payload, body = word ++ payload ∧ word.length = 4 :=
    ⟨body.take 4, body.drop 4, (List.take_append_drop 4 body).symm, List.length_take_of_le (by omega)⟩
  rw [List.length_append] at hbody
  have hmarker : ∀ mark, readMarker mark (payload ++ rest) read ≠ some (rest, read') := by
    intro mark hmark
    obtain ⟨ts, hts, heq⟩ := Option.map_eq_some_iff.mp hmark
    have := (payload_of_readN hts (congrArg Prod.fst heq)).2
    omega
  rw [secondPass_step, secondStep, readHeader_append hc hword, Option.bind_some] at h
  split at h
  · have hlen := congrArg (fun p : Bytes × List WalRecord => p.1.length) (Option.some.inj h)
    simp only [List.length_append] at hlen
    omega
  · split at h
    · exact absurd h (hmarker _)
    · split at h
      · exact absurd h (hmarker _)
      · split at h
        · exact absurd h (hmarker _)
        · obtain ⟨e, he, h⟩ := Option.map_eq_some_iff.mp h
          exact crc_of_readEntry hword he (congrArg Prod.fst h)

/-- An entry with other bytes of the same lengths is read up to its end, or not at all. -/
theorem readEntry_of_lengths {key value : Bytes} {ts : ℕ} (hvalue : value.length < 2 ^ 32) {e : KeyValuePair × Bytes}
    (h : readEntry c key.length ((key ++ (leBytes 4 value.length ++ (value ++ leBytes 8 ts))) ++ rest) = some e) :
    e.2 = rest := by
  rw [readEntry, List.append_assoc, readN_append, Option.bind_some, List.append_assoc,
    readN_append_of_length (length_leBytes 4 _), Option.bind_some, ofLe_word hvalue, List.append_assoc, readN_append,
    Option.bind_some, readN_append_of_length (length_leBytes 8 _), Option.bind_some] at h
  split at h
  · cases h
    rfl
  · cases h

/-- Both passes stop in front of the bytes of an entry with another checksum. -/
theorem stops_of_crc_ne (hc : c < 2 ^ 32) {key value : Bytes} {ts : ℕ} (hkey : key.length < beginSentinel)
    (hvalue : value.length < 2 ^ 32) (hcrc : crc32 (checked (.entry key value ts)) ≠ c) (found : Found)
    (read : List WalRecord) :
    firstPass.step (leBytes 4 c ++ (checked (.entry key value ts) ++ rest)) found = none ∧
      secondPass.step (leBytes 4 c ++ (checked (.entry key value ts) ++ rest)) read = none := by
  have hchecked : checked (.entry key value ts) =
      leBytes 4 key.length ++ (key ++ (leBytes 4 value.length ++ (value ++ leBytes 8 ts))) :=
    List.drop_left' (length_leBytes 4 _)
  have hentry : readEntry c key.length ((key ++ (leBytes 4 value.length ++ (value ++ leBytes 8 ts))) ++ rest) = none := by
    by_contra hsome
    obtain ⟨e, he⟩ := Option.ne_none_iff_exists'.mp hsome
    have hword : ofLe (leBytes 4 key.length) = key.length := ofLe_word (Nat.lt_trans hkey (by decide))
    have hrest := readEntry_of_lengths hvalue he
    rw [← hword] at he
    refine hcrc ?_
    rw [hchecked]
    exact crc_of_readEntry (length_leBytes 4 _) he hrest
  have hne : ∀ n, beginSentinel ≤ n → key.length ≠ n := fun n hn => Nat.ne_of_lt (Nat.lt_of_lt_of_le hkey hn)
  have hheader : readHeader (leBytes 4 c ++ (checked (.entry key value ts) ++ rest)) =
      some (c, key.length, (key ++ (leBytes 4 value.length ++ (value ++ leBytes 8 ts))) ++ rest) := by
    rw [hchecked, readHeader_append hc (length_leBytes 4 _), ofLe_word (Nat.lt_trans hkey (by decide))]
  constructor
  · rw [firstPass_step, firstStep, hheader, Option.bind_some, if_neg (hne _ (by decide)), if_neg (hne _ (by decide)),
      hentry]
    rfl
  · rw [secondPass_step, secondStep, hheader, Option.bind_some, if_neg (hne _ (by decide)), if_neg (hne _ (by decide)),
      if_neg (hne _ (by decide)), if_neg (hne _ (by decide)), hentry]
    rfl

end Log

/-! ## The MANIFEST -/

theorem crc_of_scanStep {c : ℕ} (hc : c < 2 ^ 32) {body rest : Bytes} {read read' : List ManifestBytes.Record}
    (h : ManifestBytes.scanStep (leBytes 4 c ++ (body ++ rest)) read = some (rest, read')) : crc32 body = c := by
  rw [ManifestBytes.scanStep, ManifestBytes.readWord_append hc, Option.bind_some] at h
  obtain ⟨r, hr, h⟩ := Option.bind_eq_some_iff.mp h
  split at h
  · next hcrc =>
    have hrest : r.2 = rest := congrArg Prod.fst (Option.some.inj h)
    rwa [hrest, List.length_append, Nat.add_sub_cancel, List.take_left] at hcrc
  · cases h

/-! ## The metadata -/

section Metadata

open SSTableBytes

variable {front area word back : Bytes}

/-- What `ReadMetadata` reads between the filter offset and the footer. -/
theorem filterBuffer_eq {body : Bytes} (hfront : readFilterOffset (front ++ (body ++ back)) = front.length)
    (hback : back.length = 12) (hlen : (front ++ (body ++ back)).length < 2 ^ 63) :
    filterBuffer (front ++ (body ++ back)) = body := by
  have hsize : readFilterSize (front ++ (body ++ back)) = body.length := by
    rw [readFilterSize, hfront]
    simp only [List.length_append] at hlen ⊢
    omega
  have hahead : InputStream.Ahead ⟨front ++ (body ++ back), front.length, false⟩ body := by
    refine ⟨rfl, ?_⟩
    change body <+: (front ++ (body ++ back)).drop front.length
    rw [List.drop_left]
    exact List.prefix_append _ _
  simp only [List.length_append] at hlen
  rw [filterBuffer, hfront, decide_eq_false (by omega), hahead.readZeroed hsize.symm]

theorem readFilterOffset_append {body body' : Bytes} (hback : back.length = 12) :
    readFilterOffset (front ++ (body' ++ back)) = readFilterOffset (front ++ (body ++ back)) := by
  have hword : ∀ bs : Bytes, ∀ k ≤ 12,
      wordAt (front ++ (bs ++ back)) ((front ++ (bs ++ back)).length - k) = wordAt back (12 - k) := by
    intro bs k hk
    have hpos : (front ++ (bs ++ back)).length - k = (front ++ bs).length + (12 - k) := by
      simp only [List.length_append]
      omega
    rw [hpos, ← List.append_assoc, wordAt_skip rfl]
  simp only [readFilterOffset, hword _ _ (show 12 ≤ 12 by decide), hword _ _ (show 8 ≤ 12 by decide)]

/-- What `ReadMetadata` accepts ends with the checksum of the bytes before it. -/
theorem accepted {filepath : String} {data : Bytes} {md : FileMetadata} (h : SSTableBytes.readMetadata filepath data = .returned md) :
    ∃ area word, filterBuffer data = area ++ word ∧ word.length = 4 ∧ crc32 area = ofLe word := by
  obtain ⟨-, hmatch, m, hm, -⟩ := readMetadata_eq_returned.mp h
  have hsizes := ((parse_isSome_iff _ _).mp ⟨m, hm⟩).sizes
  have hword : ((filterBuffer data).drop ((filterBuffer data).length - 4)).length = 4 := by
    rw [List.length_drop]
    omega
  refine ⟨_, _, (List.take_append_drop ((filterBuffer data).length - 4) _).symm, hword, ?_⟩
  rw [Mismatch, not_and, not_not, wordAt] at hmatch
  rw [hmatch (by omega), List.take_of_length_le (by omega)]

/-- `ReadMetadata` accepts at most one of two files that differ in a burst between the filter offset and the footer. -/
theorem not_accepted {body body' : Bytes} (h : Damaged body body') (hback : back.length = 12)
    (hfront : readFilterOffset (front ++ (body ++ back)) = front.length) (hlen : (front ++ (body ++ back)).length < 2 ^ 63)
    {filepath : String} {md md' : FileMetadata} (hread : SSTableBytes.readMetadata filepath (front ++ (body ++ back)) = .returned md) :
    SSTableBytes.readMetadata filepath (front ++ (body' ++ back)) ≠ .returned md' := by
  intro hread'
  have hlen' : (front ++ (body' ++ back)).length < 2 ^ 63 := by
    simp only [List.length_append, h.length_eq] at hlen ⊢
    exact hlen
  obtain ⟨area, word, hbuffer, hword, hcrc⟩ := accepted hread
  obtain ⟨area', word', hbuffer', hword', hcrc'⟩ := accepted hread'
  rw [filterBuffer_eq hfront hback hlen] at hbuffer
  rw [filterBuffer_eq ((readFilterOffset_append hback).trans hfront) hback hlen'] at hbuffer'
  subst hbuffer hbuffer'
  exact h.crc32_ne_ofLe hword hword' hcrc hcrc'

end Metadata

/-! ## All of them -/

/-- How bytes and damaged bytes are told apart: by any calls of `Update`, by the passes of `Recover` over a log in which the
damaged bytes stand behind the checksum of the others, by the loop over a MANIFEST, and by `ReadMetadata`. -/
structure Detected (bs bs' : Bytes) : Prop where
  checksums : ∀ pieces pieces', pieces.flatten = bs → pieces'.flatten = bs' → crcOf pieces' ≠ crcOf pieces
  log : ∀ r, checked r = bs → Compared r → ∀ rest,
    (∀ found found', WalBytes.firstPass.step (leBytes 4 (crc32 bs) ++ (bs' ++ rest)) found ≠ some (rest, found')) ∧
      ∀ read read', WalBytes.secondPass.step (leBytes 4 (crc32 bs) ++ (bs' ++ rest)) read ≠ some (rest, read')
  entry : ∀ key value ts key' value' ts', checked (.entry key value ts) = bs → checked (.entry key' value' ts') = bs' →
    key.length < WalBytes.beginSentinel → value.length < 2 ^ 32 → key'.length = key.length → value'.length = value.length →
      ∀ rest found read, WalBytes.firstPass.step (leBytes 4 (crc32 bs) ++ (bs' ++ rest)) found = none ∧
        WalBytes.secondPass.step (leBytes 4 (crc32 bs) ++ (bs' ++ rest)) read = none
  manifest : ∀ r, ManifestBytes.body r = bs → ∀ rest read read',
    ManifestBytes.scanStep (leBytes 4 (crc32 bs) ++ (bs' ++ rest)) read ≠ some (rest, read')
  metadata : ∀ filepath front back md, back.length = 12 →
    SSTableBytes.readFilterOffset (front ++ (bs ++ back)) = front.length → (front ++ (bs ++ back)).length < 2 ^ 63 →
      SSTableBytes.readMetadata filepath (front ++ (bs ++ back)) = .returned md →
        ∀ md', SSTableBytes.readMetadata filepath (front ++ (bs' ++ back)) ≠ .returned md'

/-- Every error of at most 32 consecutive bits is detected. -/
theorem burst_detected {bs bs' : Bytes} (h : Damaged bs bs') : Detected bs bs' where
  checksums := by
    rintro pieces pieces' rfl rfl
    rw [crcOf_eq, crcOf_eq]
    exact h.crc32_ne
  log := by
    rintro r rfl hr rest
    have hlen := hr.length_gt
    rw [← h.length_eq] at hlen
    exact ⟨fun _ _ hstep => h.crc32_ne (crc_of_firstStep (crc32_lt _) hlen hstep),
      fun _ _ hstep => h.crc32_ne (crc_of_secondStep (crc32_lt _) hlen hstep)⟩
  entry := by
    rintro key value ts key' value' ts' rfl rfl hkey hvalue hkeys hvalues rest found read
    exact stops_of_crc_ne (crc32_lt _) (hkeys ▸ hkey) (hvalues ▸ hvalue) h.crc32_ne found read
  manifest := fun _ _ _ _ _ hstep => h.crc32_ne (crc_of_scanStep (crc32_lt _) hstep)
  metadata := fun _ _ _ _ hback hfront hlen hread _ => not_accepted h hback hfront hlen hread

/-- A bit of the value flips in an entry of one byte of key and one of value. -/
theorem flipped_bit_detected :
    crcOf [leBytes 4 1, [1], leBytes 4 1, [6], leBytes 8 3] ≠ crcOf [leBytes 4 1, [1], leBytes 4 1, [2], leBytes 8 3] ∧
      WalBytes.firstPass.step (leBytes 4 (crc32 (checked (.entry [1] [2] 3))) ++ (checked (.entry [1] [6] 3) ++ []))
        ⟨0, 0, []⟩ = none := by
  have hburst : IsBurst (List.replicate 9 0 ++ 4 :: List.replicate 8 0) :=
    isBurst_iff.mpr ⟨by decide, 74, by decide, by decide⟩
  have hdamaged : Damaged (checked (.entry [1] [2] 3)) (checked (.entry [1] [6] 3)) :=
    ⟨_, by decide, hburst, by decide⟩
  have hdetected := burst_detected hdamaged
  exact ⟨hdetected.checksums _ _ (by decide) (by decide),
    (hdetected.entry [1] [2] 3 [1] [6] 3 rfl rfl (by decide) (by decide) rfl rfl [] ⟨0, 0, []⟩ []).1⟩

-- With the highest bit of each byte first these would be 31 consecutive bits.
example : crc32 [0x05, 0x8F, 0xF4, 0x6A, 0x70] = crc32 [0, 0, 0, 0, 0] := by decide

end Kvdb.Damage
