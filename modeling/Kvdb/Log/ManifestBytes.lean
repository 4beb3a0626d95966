import Kvdb.Log.Manifest
import Kvdb.Log.Crc32
import Kvdb.Lib.LittleEndian
import Kvdb.Lib.Scan

/-! # The MANIFEST byte by byte (`manifest.cpp`)

A record is a checksum and a body that starts with its type. `Recover` and `Compact` read the file with
the same loop, from the front up to the first record that is short, of an unknown type or with a wrong
checksum. An abort record of the old format has no fence: where fewer than eight bytes follow the batch,
the loop takes the batch itself for the fence and goes on right behind it. -/
namespace Kvdb.ManifestBytes
set_option autoImplicit false

open LittleEndian Scan Crc32

/-- The fields of `SSTable::Metadata` that a record keeps, and the set that `Recover` fills. -/
structure Table where
  manifestSeq : ℕ
  entryCount : ℕ
  minKeyLen : ℕ
  maxKeyLen : ℕ
  fileSize : ℕ
  level : ℤ
  filepath : Bytes
  abortedBatchTs : List ℕ
  deriving DecidableEq, Repr

inductive Record where
  | addSSTable (t : Table)
  | removeSSTable (seq : ℕ)
  | abortBatch (batchTs fenceSeq : ℕ)
  deriving DecidableEq, Repr

def typeAddSSTable : UInt8 := 0x01
def typeRemoveSSTable : UInt8 := 0x02
def typeAbortBatch : UInt8 := 0x03

/-! ## Writing -/

/-- `static_cast<uint32_t>` of a level. -/
def levelWord (level : ℤ) : ℕ := (BitVec.ofInt 32 level).toNat

/-- `static_cast<int>` of a level word. -/
def wordLevel (word : ℕ) : ℤ := (BitVec.ofNat 32 word).toInt

/-- The payload of an add record. The length of the path is cast to 16 bits. -/
def tablePayload (t : Table) : Bytes :=
  leBytes 8 t.manifestSeq ++ (leBytes 8 t.entryCount ++ (leBytes 4 t.minKeyLen ++ (leBytes 4 t.maxKeyLen ++
    (leBytes 8 t.fileSize ++ (leBytes 4 (levelWord t.level) ++ (leBytes 2 t.filepath.length ++ t.filepath))))))

def body : Record → Bytes
  | .addSSTable t => typeAddSSTable :: tablePayload t
  | .removeSSTable seq => typeRemoveSSTable :: leBytes 8 seq
  | .abortBatch batchTs fenceSeq => typeAbortBatch :: (leBytes 8 batchTs ++ leBytes 8 fenceSeq)

/-- `WriteRecord`. -/
def encode (r : Record) : Bytes := leBytes 4 (crc32 (body r)) ++ body r

def encodeAll (rs : List Record) : Bytes := rs.flatMap encode

theorem encodeAll_cons (r : Record) (rs : List Record) : encodeAll (r :: rs) = encode r ++ encodeAll rs :=
  List.flatMap_cons

/-! ## Reading -/

/-- `ReadUint16LE`, `ReadUint32LE` and `ReadUint64LE`. -/
def readWord (k : ℕ) (bs : Bytes) : Option (ℕ × Bytes) := (readN k bs).map fun w => (ofLe w.1, w.2)

def readTable (bs : Bytes) : Option (Table × Bytes) :=
  (readWord 8 bs).bind fun seq => (readWord 8 seq.2).bind fun count => (readWord 4 count.2).bind fun minLen =>
    (readWord 4 minLen.2).bind fun maxLen => (readWord 8 maxLen.2).bind fun size =>
      (readWord 4 size.2).bind fun level => (readWord 2 level.2).bind fun pathLen =>
        (readN pathLen.1 pathLen.2).map fun path =>
          (⟨seq.1, count.1, minLen.1, maxLen.1, size.1, wordLevel level.1, path.1, []⟩, path.2)

/-- The batch and the fence of an abort record, of either format. -/
def readAbort (bs : Bytes) : Option (Record × Bytes) :=
  (readWord 8 bs).map fun ts =>
    match readWord 8 ts.2 with
    | some fence => (.abortBatch ts.1 fence.1, fence.2)
    | none => (.abortBatch ts.1 ts.1, ts.2)

/-- What follows the type byte. -/
def readPayload (type : UInt8) (bs : Bytes) : Option (Record × Bytes) :=
  if type = typeAddSSTable then (readTable bs).map fun t => (.addSSTable t.1, t.2)
  else if type = typeRemoveSSTable then (readWord 8 bs).map fun seq => (.removeSSTable seq.1, seq.2)
  else if type = typeAbortBatch then readAbort bs
  else none

def readBody (bs : Bytes) : Option (Record × Bytes) :=
  match bs with
  | [] => none
  | type :: payload => readPayload type payload

/-- One record of the loop, with the records read so far. The bytes of the body, from the type on, are
read again for the checksum. -/
def scanStep (bs : Bytes) (read : List Record) : Option (Bytes × List Record) :=
  (readWord 4 bs).bind fun checksum => (readBody checksum.2).bind fun r =>
    if crc32 (checksum.2.take (checksum.2.length - r.2.length)) = checksum.1 then some (r.2, read ++ [r.1])
    else none

/-! ## Lengths and ranges -/

theorem readWord_length {k : ℕ} {bs : Bytes} {w : ℕ × Bytes} (h : readWord k bs = some w) :
    bs.length = k + w.2.length := by
  obtain ⟨p, hp, rfl⟩ := Option.map_eq_some_iff.mp h
  obtain ⟨hbs, hlen⟩ := readN_eq_some hp
  rw [hbs, List.length_append, hlen]

theorem readWord_lt {k : ℕ} {bs : Bytes} {w : ℕ × Bytes} (h : readWord k bs = some w) : w.1 < 256 ^ k := by
  obtain ⟨p, hp, rfl⟩ := Option.map_eq_some_iff.mp h
  obtain ⟨_, hlen⟩ := readN_eq_some hp
  have hlt := ofLe_lt p.1
  rw [hlen] at hlt
  exact hlt

theorem readWord_append {k n : ℕ} (h : n < 256 ^ k) (rest : Bytes) :
    readWord k (leBytes k n ++ rest) = some (n, rest) := by
  rw [readWord, readN_append_of_length (length_leBytes k n), Option.map_some, ofLe_leBytes h]

/-- The words of a record fit, and the catalogue's set is not part of it. -/
def Encodable : Record → Prop
  | .addSSTable t =>
    t.manifestSeq < 256 ^ 8 ∧ t.entryCount < 256 ^ 8 ∧ t.minKeyLen < 256 ^ 4 ∧ t.maxKeyLen < 256 ^ 4 ∧
      t.fileSize < 256 ^ 8 ∧ wordLevel (levelWord t.level) = t.level ∧ t.filepath.length < 256 ^ 2 ∧
        t.abortedBatchTs = []
  | .removeSSTable seq => seq < 256 ^ 8
  | .abortBatch batchTs fenceSeq => batchTs < 256 ^ 8 ∧ fenceSeq < 256 ^ 8

theorem levelWord_lt (level : ℤ) : levelWord level < 256 ^ 4 := (BitVec.ofInt 32 level).isLt

theorem wordLevel_levelWord_wordLevel (word : ℕ) : wordLevel (levelWord (wordLevel word)) = wordLevel word := by
  unfold wordLevel levelWord
  rw [BitVec.ofInt_toInt, BitVec.ofNat_toNat, BitVec.setWidth_eq]

theorem readTable_spec {bs : Bytes} {t : Table × Bytes} (h : readTable bs = some t) :
    t.2.length ≤ bs.length ∧ Encodable (.addSSTable t.1) := by
  obtain ⟨seq, hseq, h⟩ := Option.bind_eq_some_iff.mp h
  obtain ⟨count, hcount, h⟩ := Option.bind_eq_some_iff.mp h
  obtain ⟨minLen, hmin, h⟩ := Option.bind_eq_some_iff.mp h
  obtain ⟨maxLen, hmax, h⟩ := Option.bind_eq_some_iff.mp h
  obtain ⟨size, hsize, h⟩ := Option.bind_eq_some_iff.mp h
  obtain ⟨level, hlevel, h⟩ := Option.bind_eq_some_iff.mp h
  obtain ⟨pathLen, hpathLen, h⟩ := Option.bind_eq_some_iff.mp h
  obtain ⟨path, hpath, rfl⟩ := Option.map_eq_some_iff.mp h
  obtain ⟨hsplit, hlen⟩ := readN_eq_some hpath
  have hfit : path.1.length < 256 ^ 2 := by
    rw [hlen]
    exact readWord_lt hpathLen
  have hrest : pathLen.2.length = path.1.length + path.2.length := by
    rw [hsplit, List.length_append]
  constructor
  · have h1 := readWord_length hseq
    have h2 := readWord_length hcount
    have h3 := readWord_length hmin
    have h4 := readWord_length hmax
    have h5 := readWord_length hsize
    have h6 := readWord_length hlevel
    have h7 := readWord_length hpathLen
    simp only []
    omega
  · exact ⟨readWord_lt hseq, readWord_lt hcount, readWord_lt hmin, readWord_lt hmax, readWord_lt hsize,
      wordLevel_levelWord_wordLevel level.1, hfit, rfl⟩

theorem readAbort_spec {bs : Bytes} {r : Record × Bytes} (h : readAbort bs = some r) :
    r.2.length ≤ bs.length ∧ Encodable r.1 := by
  obtain ⟨ts, hts, h⟩ := Option.map_eq_some_iff.mp h
  have hlen := readWord_length hts
  cases hfence : readWord 8 ts.2 with
  | none =>
    rw [hfence] at h
    subst h
    exact ⟨by simp only []; omega, readWord_lt hts, readWord_lt hts⟩
  | some fence =>
    rw [hfence] at h
    subst h
    have hmore := readWord_length hfence
    exact ⟨by simp only []; omega, readWord_lt hts, readWord_lt hfence⟩

theorem readPayload_spec {type : UInt8} {bs : Bytes} {r : Record × Bytes} (h : readPayload type bs = some r) :
    r.2.length ≤ bs.length ∧ Encodable r.1 := by
  unfold readPayload at h
  split at h
  · obtain ⟨t, ht, rfl⟩ := Option.map_eq_some_iff.mp h
    exact readTable_spec ht
  · split at h
    · obtain ⟨seq, hseq, rfl⟩ := Option.map_eq_some_iff.mp h
      have hlen := readWord_length hseq
      exact ⟨by simp only []; omega, readWord_lt hseq⟩
    · split at h
      · exact readAbort_spec h
      · cases h

theorem readBody_spec {bs : Bytes} {r : Record × Bytes} (h : readBody bs = some r) :
    r.2.length ≤ bs.length ∧ Encodable r.1 := by
  cases bs with
  | nil => cases h
  | cons type payload =>
    obtain ⟨hlen, hfit⟩ := readPayload_spec h
    refine ⟨?_, hfit⟩
    rw [List.length_cons]
    omega

/-- The loop that `Recover` and `Compact` share. -/
def scanner : Scanner UInt8 (List Record) where
  step := scanStep
  shorter bs read bs' read' hs := by
    obtain ⟨checksum, hchecksum, hs⟩ := Option.bind_eq_some_iff.mp hs
    obtain ⟨r, hr, hs⟩ := Option.bind_eq_some_iff.mp hs
    have hword := readWord_length hchecksum
    have hbody := (readBody_spec hr).1
    split at hs
    · cases hs
      omega
    · cases hs

/-- The records that are read from a file. -/
def scan (file : Bytes) : List Record := scanner.run file []

/-- What is read fits the words it is written with. -/
theorem encodable_scan (file : Bytes) : ∀ r ∈ scan file, Encodable r := by
  have hkept : ∃ rest : Bytes, ∀ r ∈ scanner.run file [], Encodable r := by
    apply scanner.run_invariant (I := fun _ read => ∀ r ∈ read, Encodable r)
    · intro bs read bs' read' hread hs
      obtain ⟨checksum, _, hs⟩ := Option.bind_eq_some_iff.mp hs
      obtain ⟨r, hr, hs⟩ := Option.bind_eq_some_iff.mp hs
      split at hs
      · cases hs
        intro r' hr'
        rcases List.mem_append.mp hr' with hold | hnew
        · exact hread r' hold
        · rw [List.mem_singleton.mp hnew]
          exact (readBody_spec hr).2
      · cases hs
    · exact fun _ hr => (by cases hr)
  obtain ⟨_, hkept⟩ := hkept
  exact hkept

/-! ## Reading what was written -/

theorem readTable_payload {t : Table} (h : Encodable (.addSSTable t)) (rest : Bytes) :
    readTable (tablePayload t ++ rest) = some (t, rest) := by
  obtain ⟨hseq, hcount, hmin, hmax, hsize, hlevel, hpath, haborted⟩ := h
  unfold readTable tablePayload
  simp only [List.append_assoc, readWord_append hseq, readWord_append hcount, readWord_append hmin,
    readWord_append hmax, readWord_append hsize, readWord_append (levelWord_lt t.level), readWord_append hpath,
    Option.bind_some, readN_append, Option.map_some, hlevel, ← haborted]

theorem readBody_body {r : Record} (h : Encodable r) (rest : Bytes) :
    readBody (body r ++ rest) = some (r, rest) := by
  cases r with
  | addSSTable t =>
    rw [body, List.cons_append, readBody, readPayload, if_pos rfl, readTable_payload h]
    rfl
  | removeSSTable seq =>
    rw [body, List.cons_append, readBody, readPayload, if_neg (by decide), if_pos rfl, readWord_append h]
    rfl
  | abortBatch batchTs fenceSeq =>
    rw [body, List.cons_append, readBody, readPayload, if_neg (by decide), if_neg (by decide), if_pos rfl,
      readAbort, List.append_assoc, readWord_append h.1, Option.map_some, readWord_append h.2]

theorem scanStep_encode {r : Record} (h : Encodable r) (rest : Bytes) (read : List Record) :
    scanner.step (encode r ++ rest) read = some (rest, read ++ [r]) := by
  have hchecksum : readWord 4 (encode r ++ rest) = some (crc32 (body r), body r ++ rest) := by
    rw [encode, List.append_assoc]
    exact readWord_append (crc32_lt _) _
  have htaken : (body r ++ rest).take ((body r ++ rest).length - rest.length) = body r := by
    rw [List.length_append, Nat.add_sub_cancel, List.take_left]
  change scanStep (encode r ++ rest) read = _
  rw [scanStep, hchecksum, Option.bind_some, readBody_body h, Option.bind_some, htaken, if_pos rfl]

theorem scan_encodeAll {rs : List Record} (h : ∀ r ∈ rs, Encodable r) : scan (encodeAll rs) = rs := by
  have hrun : ∀ read, scanner.run (encodeAll rs) read = read ++ rs := by
    induction rs with
    | nil =>
      intro read
      rw [List.append_nil]
      exact scanner.run_of_stop rfl
    | cons r rs ih =>
      intro read
      have hstep := scanStep_encode (h r List.mem_cons_self) (encodeAll rs) read
      have hrest := ih (fun r' hr' => h r' (List.mem_cons_of_mem r hr')) (read ++ [r])
      rw [encodeAll_cons, scanner.run_of_step hstep, hrest, List.append_assoc, List.singleton_append]
  exact hrun []

end Kvdb.ManifestBytes
