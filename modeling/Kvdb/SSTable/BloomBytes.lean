import Kvdb.SSTable.LookupBytes

/-! # The bytes of a bloom filter (`bloom.hpp`)

`Add` sets bits in a vector of bytes. A file has the number of bits and the number of bytes as words of 32 bits, so that
only a filter with fewer than 2^32 bits is the same when it is read back. -/
namespace Kvdb.SSTableBytes
set_option autoImplicit false

open LittleEndian
open Scan (readN readN_append_of_length)

/-- `bytes_[bit / 8] |= 1 << (bit % 8)`. -/
def setBit (bytes : Bytes) (n : ℕ) : Bytes := bytes.modify (n / 8) fun b => b ||| UInt8.ofNat (1 <<< (n % 8))

namespace RawBloom

/-- The constructor, once it has computed the numbers of bits and of hash functions. -/
def make (bits hashCount : ℕ) : RawBloom := ⟨bits, hashCount, List.replicate ((bits + 7) / 8) 0⟩

/-- `Add`. -/
def add (b : RawBloom) (key : Bytes) : RawBloom :=
  { b with bytes := ((List.range b.hashCount).map (BloomFilter.probe b.bits key)).foldl setBit b.bytes }

/-- The filter as it is written into the filter area. -/
def fileBytes (b : RawBloom) : Bytes :=
  leBytes 4 b.bits ++ (leBytes 4 b.hashCount ++ (leBytes 4 b.bytes.length ++ b.bytes))

/-- The filter as `ReadMetadata` takes it from the filter area. -/
def read (p : Bytes) : Option RawBloom := do
  let bb ← word p
  let bh ← word bb.2
  let bz ← word bh.2
  readBloom bb.1 bh.1 bz.1 bz.2

/-- The filter of the keys. -/
def ofKeys (bits hashCount : ℕ) (keys : List Bytes) : RawBloom := keys.foldl add (make bits hashCount)

end RawBloom

/-! ## The bytes stand for the set of bits -/

theorem testBit_or (b : UInt8) {k : ℕ} (hk : k < 8) (i : ℕ) :
    (b ||| UInt8.ofNat (1 <<< k)).toNat.testBit i = (b.toNat.testBit i || decide (k = i)) := by
  have hlt : 2 ^ k < 2 ^ 8 := Nat.pow_lt_pow_right (by decide) hk
  rw [UInt8.toNat_or, Nat.testBit_or, Nat.one_shiftLeft, UInt8.toNat_ofNat_of_lt' hlt, Nat.testBit_two_pow]

theorem byte_eq_of_testBit {a b : UInt8} (h : ∀ k < 8, a.toNat.testBit k = b.toNat.testBit k) : a = b := by
  refine UInt8.toNat_inj.mp (Nat.eq_of_testBit_eq fun k => ?_)
  rcases Nat.lt_or_ge k 8 with hk | hk
  · exact h k hk
  · have hpow : 2 ^ 8 ≤ 2 ^ k := Nat.pow_le_pow_right (by decide) hk
    rw [Nat.testBit_lt_two_pow (a.toNat_lt.trans_le hpow), Nat.testBit_lt_two_pow (b.toNat_lt.trans_le hpow)]

variable {b : BloomFilter}

/-- Only the set of the bits matters. -/
theorem bloomData_congr {s s' : List ℕ} (h : ∀ n, n ∈ s ↔ n ∈ s') :
    bloomData { b with setBits := s } = bloomData { b with setBits := s' } := by
  refine List.map_congr_left fun j _ => byte_eq_of_testBit fun k hk => ?_
  rw [bloomByte_testBit _ j hk, bloomByte_testBit _ j hk]
  exact decide_eq_decide.mpr (h _)

variable (b) in
theorem setBit_bloomData (n : ℕ) :
    setBit (bloomData b) n = bloomData { b with setBits := n :: b.setBits } := by
  refine List.ext_getElem? fun j => ?_
  rw [setBit, List.getElem?_modify, bloomData, bloomData, List.getElem?_map, List.getElem?_map]
  cases hj : (List.range ((b.bits + 7) / 8))[j]? with
  | none => rfl
  | some i =>
    obtain ⟨hlt, hi⟩ := List.getElem?_eq_some_iff.mp hj
    rw [List.getElem_range] at hi
    subst hi
    refine congrArg some (byte_eq_of_testBit fun k hk => ?_)
    rw [bloomByte_testBit _ j hk]
    by_cases hbyte : n / 8 = j
    · beta_reduce
      rw [if_pos hbyte, testBit_or _ (Nat.mod_lt n (by decide)), bloomByte_testBit b j hk]
      have hsame : n % 8 = k ↔ 8 * j + k = n := by omega
      simp only [List.mem_cons, Bool.decide_or, decide_eq_decide.mpr hsame, Bool.or_comm]
    · beta_reduce
      rw [if_neg hbyte, bloomByte_testBit b j hk]
      have hother : 8 * j + k ≠ n := by omega
      simp only [List.mem_cons, hother, false_or]

variable (b) in
theorem foldl_setBit (ns : List ℕ) :
    ns.foldl setBit (bloomData b) = bloomData { b with setBits := ns ++ b.setBits } := by
  induction ns generalizing b with
  | nil => rfl
  | cons n ns ih =>
    rw [List.foldl_cons, setBit_bloomData, ih { b with setBits := n :: b.setBits }]
    refine bloomData_congr fun m => ?_
    simp only [List.mem_append, List.mem_cons]
    tauto

namespace RawBloom

/-- `Add` sets the bits that the filter of the model gets. -/
theorem add_ofFilter (b : BloomFilter) (key : Bytes) : (ofFilter b).add key = ofFilter (b.add key) :=
  congrArg (RawBloom.mk b.bits b.hashCount) (foldl_setBit b ((List.range b.hashCount).map (BloomFilter.probe b.bits key)))

theorem make_eq (bits hashCount : ℕ) : make bits hashCount = ofFilter ⟨bits, hashCount, []⟩ := by
  refine congrArg (RawBloom.mk bits hashCount) (List.ext_getElem? fun j => ?_)
  rw [bloomData, List.getElem?_map, List.getElem?_replicate]
  rcases Nat.lt_or_ge j ((bits + 7) / 8) with hlt | hge
  · rw [if_pos hlt, List.getElem?_range hlt]
    refine congrArg some (byte_eq_of_testBit fun k hk => ?_)
    rw [bloomByte_testBit _ j hk]
    simp
  · rw [if_neg (Nat.not_lt_of_le hge), List.getElem?_eq_none (by rwa [List.length_range])]
    rfl

theorem ofKeys_eq (bits hashCount : ℕ) (keys : List Bytes) :
    ofKeys bits hashCount keys = ofFilter (BloomFilter.ofKeys (fun _ => (bits, hashCount)) 0 keys) := by
  have hfold : ∀ b : BloomFilter, keys.foldl add (ofFilter b) = ofFilter (keys.foldl BloomFilter.add b) := by
    induction keys with
    | nil => exact fun b => rfl
    | cons key keys ih =>
      intro b
      rw [List.foldl_cons, List.foldl_cons, add_ofFilter, ih (b.add key)]
  rw [ofKeys, make_eq]
  exact hfold _

end RawBloom

/-- The filter area has the filter behind the smallest and the largest key. -/
theorem filterArea_bloom (f : SSTableFile) :
    f.minKey ++ (f.maxKey ++ (RawBloom.ofFilter f.bloom).fileBytes) <+: filterArea f := by
  refine ⟨leBytes 4 f.abortedBatchTs.length ++ (f.abortedBatchTs.flatMap (leBytes 8) ++
    (leBytes 4 f.blocks.length ++ ((blockOffsets f).flatMap (leBytes 8) ++ f.firstKeys.flatMap firstKeyBytes))), ?_⟩
  simp only [filterArea, RawBloom.fileBytes, RawBloom.ofFilter, List.append_assoc]

/-! ## Reading it back -/

namespace RawBloom

variable {rest : Bytes}

theorem read_fileBytes (hhash : b.hashCount < 2 ^ 32) : read ((ofFilter b).fileBytes ++ rest) =
    readBloom (b.bits % 2 ^ 32) b.hashCount ((b.bits + 7) / 8 % 2 ^ 32) (bloomData b ++ rest) := by
  rw [read, fileBytes]
  simp only [List.append_assoc, word_leBytes, Option.bind_eq_bind, Option.bind_some, ofFilter, length_bloomData,
    Nat.mod_eq_of_lt hhash]

/-- A filter whose bits are counted in 32 bits is read back. -/
theorem read_of_small (hhash : b.hashCount < 2 ^ 32) (hbits : b.bits < 2 ^ 32) (hpos : 0 < b.bits) :
    read ((ofFilter b).fileBytes ++ rest) = some (ofFilter b) := by
  have hsize : (b.bits + 7) / 8 < 2 ^ 32 := by omega
  rw [read_fileBytes hhash, Nat.mod_eq_of_lt hbits, Nat.mod_eq_of_lt hsize, readBloom, if_pos (by omega),
    readN_append_of_length (length_bloomData b)]
  rfl

/-- A larger one loses the bits above those that are counted. -/
theorem read_of_large (hhash : b.hashCount < 2 ^ 32) (hsize : (b.bits + 7) / 8 % 2 ^ 32 ≠ 0) :
    read ((ofFilter b).fileBytes ++ rest) =
      some ⟨b.bits % 2 ^ 32, b.hashCount, (bloomData b).take ((b.bits % 2 ^ 32 + 7) / 8)⟩ := by
  have hle : (b.bits % 2 ^ 32 + 7) / 8 ≤ (bloomData b).length := by
    rw [length_bloomData]
    have hmod := Nat.mod_le b.bits (2 ^ 32)
    omega
  rw [read_fileBytes hhash, readBloom, if_pos (by omega), readN, if_pos (by rw [List.length_append]; omega),
    Option.map_some, List.take_append_of_le_length hle]

/-- The bits that are left are those of the filter. -/
theorem hasBit_take {size n : ℕ} (hashCount : ℕ) (hn : n < size) (hsize : size ≤ b.bits) :
    (RawBloom.mk size hashCount ((bloomData b).take ((size + 7) / 8))).hasBit n = decide (n ∈ b.setBits) := by
  rw [← hasBit_ofFilter b (hn.trans_le hsize), hasBit, hasBit, List.getD_eq_getElem?_getD, List.getD_eq_getElem?_getD,
    List.getElem?_take_of_lt (by omega)]
  rfl

/-- With more bits than are counted some key is not found at the bit of its first probe. -/
theorem exists_lost {bits hashCount : ℕ} (hlarge : 2 ^ 32 ≤ bits) (hpos : 0 < bits % 2 ^ 32) (hhash : hashCount ≤ 30) :
    ∃ key, ∀ i < hashCount, BloomFilter.probe bits key i ≠ BloomFilter.probe (bits % 2 ^ 32) key 0 := by
  have hmod := Nat.mod_lt bits (Nat.two_pow_pos 32)
  rcases Nat.lt_or_ge 2166136261 (bits % 2 ^ 32) with hmany | hfew
  · have hfirst : (BloomFilter.hash1 [7, 76, 176, 92, 231]).toNat = 2 ^ 32 - 1 := by decide
    have hsecond : (BloomFilter.hash2 [7, 76, 176, 92, 231]).toNat = 42160630 := by decide
    refine ⟨[7, 76, 176, 92, 231], fun i hi => ?_⟩
    rw [BloomFilter.probe, BloomFilter.probe, hfirst, hsecond, Nat.zero_mul, Nat.add_zero,
      Nat.mod_eq_of_lt (show 2 ^ 32 - 1 + i * 42160630 < bits by omega),
      Nat.mod_eq_sub_mod (show bits % 2 ^ 32 ≤ 2 ^ 32 - 1 by omega), Nat.mod_eq_of_lt (by omega)]
    omega
  · have hfirst : (BloomFilter.hash1 []).toNat = 2166136261 := by decide
    have hsecond : (BloomFilter.hash2 []).toNat = 0 := by decide
    refine ⟨[], fun i _ => ?_⟩
    have hlt := Nat.mod_lt 2166136261 hpos
    rw [BloomFilter.probe, BloomFilter.probe, hfirst, hsecond, Nat.mul_zero, Nat.zero_mul, Nat.add_zero,
      Nat.mod_eq_of_lt (show 2166136261 < bits by omega)]
    omega

/-- The keys of the filter are found, in the filter and in what is read of a file that has it. -/
def NoFalseNegatives (bits hashCount : ℕ) : Prop :=
  ∀ (keys : List Bytes) (key rest : Bytes), key ∈ keys → (ofKeys bits hashCount keys).mightContain key = true ∧
    ∃ b, read ((ofKeys bits hashCount keys).fileBytes ++ rest) = some b ∧ b.mightContain key = true

theorem ofKeys_mightContain (bits hashCount : ℕ) (hbits : 0 < bits) {keys : List Bytes} {key : Bytes} (h : key ∈ keys) :
    (ofKeys bits hashCount keys).mightContain key = true := by
  have hmem := BloomFilter.ofKeys_mightContain (fun _ => (bits, hashCount)) 0 keys key h
  obtain ⟨hsame, -⟩ := ofKeys_sizing (fun _ => (bits, hashCount)) 0 keys
  rw [ofKeys_eq, mightContain_ofFilter (by rwa [hsame])]
  exact hmem

theorem false_negative_of_large {bits hashCount : ℕ} (hlarge : 2 ^ 32 ≤ bits) (hsize : (bits + 7) / 8 % 2 ^ 32 ≠ 0)
    (hhash : 1 ≤ hashCount) (hhash' : hashCount ≤ 30) : ¬ NoFalseNegatives bits hashCount := by
  intro h
  have hkey : ∃ key, 0 < bits % 2 ^ 32 →
      ∀ i < hashCount, BloomFilter.probe bits key i ≠ BloomFilter.probe (bits % 2 ^ 32) key 0 := by
    rcases Nat.eq_zero_or_pos (bits % 2 ^ 32) with hzero | hpos
    · exact ⟨[], fun hpos => absurd hzero (Nat.ne_of_gt hpos)⟩
    · obtain ⟨key, hlost⟩ := exists_lost hlarge hpos hhash'
      exact ⟨key, fun _ => hlost⟩
  obtain ⟨key, hlost⟩ := hkey
  obtain ⟨-, b, hread, hfound⟩ := h [key] key [] List.mem_cons_self
  obtain ⟨hsame, hcount⟩ := ofKeys_sizing (fun _ => (bits, hashCount)) 0 [key]
  have hset : ∀ n, n ∈ (BloomFilter.ofKeys (fun _ => (bits, hashCount)) 0 [key]).setBits →
      ∃ i < hashCount, BloomFilter.probe bits key i = n := by
    intro n hn
    simpa [BloomFilter.ofKeys, BloomFilter.add] using hn
  rw [ofKeys_eq] at hread
  generalize BloomFilter.ofKeys (fun _ => (bits, hashCount)) 0 [key] = f at hread hsame hcount hset
  subst hsame hcount
  rw [read_of_large (Nat.lt_of_le_of_lt hhash' (by decide)) hsize, Option.some_inj] at hread
  subst hread
  have hfirst := List.all_eq_true.mp hfound 0 (List.mem_range.mpr hhash)
  rcases Nat.eq_zero_or_pos (f.bits % 2 ^ 32) with hzero | hpos
  · rw [hzero, Nat.zero_add, Nat.div_eq_of_lt (show 7 < 8 by decide), List.take_zero] at hfirst
    exact absurd hfirst (by simp [hasBit])
  · have hmem := (hasBit_take (b := f) f.hashCount
      (Nat.mod_lt (BloomFilter.hash1 key).toNat hpos) (Nat.mod_le _ _)).symm
    have hprobe : BloomFilter.probe (f.bits % 2 ^ 32) key 0 = (BloomFilter.hash1 key).toNat % (f.bits % 2 ^ 32) := by
      rw [BloomFilter.probe, Nat.zero_mul, Nat.add_zero]
    obtain ⟨i, hi, hsame⟩ := hset _ (of_decide_eq_true (hmem.trans (hprobe ▸ hfirst)))
    exact hlost hpos i hi (hsame.trans hprobe.symm)

/-- No key of a filter is missed in a file, exactly if the file can count the bits of the filter, or says that the filter has
no bytes. The constructor makes a filter of at least 64 bits and at most 30 hash functions. -/
theorem no_false_negatives_iff (bits hashCount : ℕ) (hbits : 64 ≤ bits) (hhash : 1 ≤ hashCount) (hhash' : hashCount ≤ 30) :
    NoFalseNegatives bits hashCount ↔ bits < 2 ^ 32 ∨ (bits + 7) / 8 % 2 ^ 32 = 0 := by
  have hword : hashCount < 2 ^ 32 := Nat.lt_of_le_of_lt hhash' (by decide)
  refine ⟨fun h => ?_, fun h keys key rest hkey => ⟨ofKeys_mightContain bits hashCount (by omega) hkey, ?_⟩⟩
  · by_contra hnot
    rw [not_or, Nat.not_lt] at hnot
    exact false_negative_of_large hnot.1 hnot.2 hhash hhash' h
  · obtain ⟨hsame, hcount⟩ := ofKeys_sizing (fun _ => (bits, hashCount)) 0 keys
    have hmight := ofKeys_mightContain bits hashCount (by omega) hkey
    rw [ofKeys_eq] at hmight ⊢
    generalize BloomFilter.ofKeys (fun _ => (bits, hashCount)) 0 keys = f at hsame hcount hmight ⊢
    subst hsame hcount
    rcases Nat.lt_or_ge f.bits (2 ^ 32) with hsmall | hlarge
    · exact ⟨_, read_of_small hword hsmall (by omega), hmight⟩
    · refine ⟨⟨0, 0, []⟩, ?_, rfl⟩
      rw [read_fileBytes hword, h.resolve_left (Nat.not_lt_of_le hlarge)]
      rfl

theorem no_false_negatives_small : NoFalseNegatives 64 7 :=
  (no_false_negatives_iff 64 7 (by decide) (by decide) (by decide)).mpr (.inl (by decide))

/-- The filter for 450,000,000 entries at a rate of one in a hundred. -/
theorem false_negative_large : ¬ NoFalseNegatives 4313276270 7 :=
  false_negative_of_large (by decide) (by decide) (by decide) (by decide)

end RawBloom

end Kvdb.SSTableBytes
