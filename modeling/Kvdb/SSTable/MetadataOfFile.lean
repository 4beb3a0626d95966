import Kvdb.SSTable.Contents
import Kvdb.SSTable.MetadataBytes

/-! # The metadata of a written file

What `ReadMetadata` makes of the filter area of a file that was written. A number of eight bytes comes back unless bit 31
of its low word is set: then its high word is lost, and all its bits are set instead. -/
namespace Kvdb.SSTableBytes
set_option autoImplicit false

open LittleEndian Crc32
open Scan (readN readN_append_of_length)

/-! ## Numbers of eight bytes -/

/-- What is read back for a number of eight bytes. -/
def readBack (t : ℕ) : ℕ := joinWords (t % 2 ^ 32) (t / 2 ^ 32 % 2 ^ 32)

/-- A number that is read back: bit 31 is not set, or all bits from there on are. -/
def Kept (t : ℕ) : Prop := t % 2 ^ 32 < 2 ^ 31 ∨ 2 ^ 64 - 2 ^ 31 ≤ t

instance (t : ℕ) : Decidable (Kept t) := inferInstanceAs (Decidable (_ ∨ _))

theorem widen_of_lt {w : ℕ} (h : w < 2 ^ 31) : widen w = w := by
  rw [widen, signed, if_pos h]
  omega

theorem widen_of_ge {w : ℕ} (h : 2 ^ 31 ≤ w) (hw : w < 2 ^ 32) : widen w = (2 ^ 32 - 1) * 2 ^ 32 + w := by
  rw [widen, signed, if_neg (Nat.not_lt_of_le h)]
  omega

theorem or_ones {n : ℕ} (h : n < 2 ^ 32) : (2 ^ 32 - 1) ||| n = 2 ^ 32 - 1 := by
  refine Nat.eq_of_testBit_eq fun i => ?_
  rw [Nat.testBit_or, Nat.testBit_two_pow_sub_one]
  rcases Nat.lt_or_ge i 32 with hi | hi
  · simp [hi]
  · have hlt := Nat.lt_of_lt_of_le h (Nat.pow_le_pow_right (Nat.succ_pos 1) hi)
    rw [Nat.testBit_lt_two_pow hlt, Bool.or_false]

theorem shifted (n : ℕ) : (n <<< 32) % 2 ^ 64 = (n % 2 ^ 32) <<< 32 := by
  rw [Nat.shiftLeft_eq, Nat.shiftLeft_eq]
  omega

theorem widen_mod {w : ℕ} (hw : w < 2 ^ 32) : widen w % 2 ^ 32 = w := by
  rcases Nat.lt_or_ge w (2 ^ 31) with h | h
  · rw [widen_of_lt h, Nat.mod_eq_of_lt hw]
  · rw [widen_of_ge h hw]
    omega

theorem joinWords_of_lt {lo hi : ℕ} (hlo : lo < 2 ^ 31) (hhi : hi < 2 ^ 32) : joinWords lo hi = lo + 2 ^ 32 * hi := by
  rw [joinWords, widen_of_lt hlo, Nat.or_mod_two_pow, shifted, widen_mod hhi, Nat.mod_eq_of_lt (by omega), Nat.or_comm,
    ← Nat.shiftLeft_add_eq_or_of_lt (by omega), Nat.shiftLeft_eq]
  omega

theorem joinWords_of_ge {lo hi : ℕ} (hlo : 2 ^ 31 ≤ lo) (hlt : lo < 2 ^ 32) (hhi : hi < 2 ^ 32) :
    joinWords lo hi = (2 ^ 32 - 1) * 2 ^ 32 + lo := by
  have hwide : (2 ^ 32 - 1) * 2 ^ 32 + lo = (2 ^ 32 - 1) <<< 32 ||| lo := by
    rw [← Nat.shiftLeft_add_eq_or_of_lt hlt, Nat.shiftLeft_eq]
  rw [joinWords, widen_of_ge hlo hlt, Nat.or_mod_two_pow, shifted, widen_mod hhi, Nat.mod_eq_of_lt (by omega), hwide,
    Nat.or_assoc, Nat.or_comm lo, ← Nat.or_assoc, ← Nat.shiftLeft_or_distrib, or_ones hhi]

theorem readBack_kept (t : ℕ) : Kept (readBack t) := by
  have hhi := Nat.mod_lt (t / 2 ^ 32) (Nat.two_pow_pos 32)
  rcases Nat.lt_or_ge (t % 2 ^ 32) (2 ^ 31) with h | h
  · rw [readBack, joinWords_of_lt h hhi]
    exact .inl (by omega)
  · rw [readBack, joinWords_of_ge h (Nat.mod_lt t (Nat.two_pow_pos 32)) hhi]
    exact .inr (by omega)

theorem readBack_eq_iff {t : ℕ} (ht : t < 2 ^ 64) : readBack t = t ↔ Kept t := by
  refine ⟨fun h => h ▸ readBack_kept t, fun h => ?_⟩
  have hhi := Nat.mod_lt (t / 2 ^ 32) (Nat.two_pow_pos 32)
  rcases Nat.lt_or_ge (t % 2 ^ 32) (2 ^ 31) with hlo | hlo
  · rw [readBack, joinWords_of_lt hlo hhi]
    omega
  · rw [readBack, joinWords_of_ge hlo (Nat.mod_lt t (Nat.two_pow_pos 32)) hhi]
    have hlarge := h.resolve_left (Nat.not_lt_of_le hlo)
    omega

/-! ## Fields that were written -/

variable {rest : Bytes}

theorem word_leBytes (n : ℕ) : word (leBytes 4 n ++ rest) = some (n % 2 ^ 32, rest) := by
  rw [word, readN_append_of_length (length_leBytes 4 n), Option.map_some, ofLe_leBytes_mod]
  rfl

/-- The first of the numbers that stand in the bytes. -/
theorem words64_leBytes {ts : List ℕ} {c : ℕ} (hc : c ≤ ts.length) : words64 c (ts.flatMap (leBytes 8) ++ rest) =
    some ((ts.take c).map readBack, (ts.drop c).flatMap (leBytes 8) ++ rest) := by
  induction ts generalizing c with
  | nil =>
    obtain rfl := Nat.le_zero.mp hc
    rfl
  | cons t ts ih =>
    cases c with
    | zero => rfl
    | succ c =>
      have hsplit : (t :: ts).flatMap (leBytes 8) ++ rest =
          leBytes 4 t ++ (leBytes 4 (t / 2 ^ 32) ++ (ts.flatMap (leBytes 8) ++ rest)) := by
        rw [List.flatMap_cons, show leBytes 8 t = leBytes 4 t ++ leBytes 4 (t / 256 ^ 4) from leBytes_add 4 4 t]
        simp only [List.append_assoc]
        rfl
      rw [words64, hsplit, word_leBytes]
      simp only [Option.bind_eq_bind, Option.bind_some, word_leBytes]
      rw [ih (Nat.le_of_succ_le_succ hc)]
      rfl

/-- The lengths of first keys, as they are kept. -/
theorem firstKeyLengths_flatMap (keys : List Bytes) : firstKeyLengths keys.length (keys.flatMap firstKeyBytes ++ rest) =
    some (keys.map fun key => key.length % 2 ^ 16) := by
  induction keys with
  | nil => rfl
  | cons key keys ih =>
    have hsplit : (key :: keys).flatMap firstKeyBytes ++ rest =
        leBytes 2 key.length ++ (key.take (key.length % 2 ^ 16) ++ (keys.flatMap firstKeyBytes ++ rest)) := by
      rw [List.flatMap_cons, firstKeyBytes]
      simp only [List.append_assoc]
    have hlen : (key.take (key.length % 2 ^ 16)).length = key.length % 2 ^ 16 :=
      List.length_take_of_le (Nat.mod_le _ _)
    rw [List.length_cons, firstKeyLengths, hsplit, readN_append_of_length (length_leBytes 2 _)]
    simp only [Option.map_some, Option.bind_eq_bind, Option.bind_some]
    rw [ofLe_leBytes_mod, show 256 ^ 2 = 2 ^ 16 from rfl, List.drop_left' hlen, ih]
    rfl

theorem length_firstKeyBytes (key : Bytes) : (firstKeyBytes key).length = 2 + key.length % 2 ^ 16 := by
  rw [firstKeyBytes, List.length_append, length_leBytes, List.length_take_of_le (Nat.mod_le _ _)]

theorem firstKeysSize_flatMap (keys : List Bytes) :
    (keys.flatMap firstKeyBytes).length = firstKeysSize (keys.map fun key => key.length % 2 ^ 16) := by
  rw [List.length_flatMap, firstKeysSize, List.map_map]
  exact congrArg List.sum (List.map_congr_left fun key _ => length_firstKeyBytes key)

/-- The index as it is written. -/
def indexBytes (aborted offsets : List ℕ) (keys : List Bytes) : Bytes :=
  leBytes 4 aborted.length ++ (aborted.flatMap (leBytes 8) ++ (leBytes 4 offsets.length ++
    (offsets.flatMap (leBytes 8) ++ keys.flatMap firstKeyBytes)))

variable {aborted offsets : List ℕ} {keys : List Bytes}

theorem parseIndex_aborted {m : IndexFields} (h : parseIndex (indexBytes aborted offsets keys ++ rest) = some m) :
    m.abortedBatchTs = (aborted.take (aborted.length % 2 ^ 32)).map readBack := by
  rw [parseIndex, indexBytes, List.append_assoc, word_leBytes] at h
  simp only [Option.bind_eq_bind, Option.bind_some, List.append_assoc] at h
  rw [words64_leBytes (Nat.mod_le _ _), Option.bind_some] at h
  simp only [Option.bind_eq_some_iff] at h
  obtain ⟨_, -, _, -, _, -, _, -, heq⟩ := h
  rw [← Option.some.inj heq]

theorem parseIndex_indexBytes (haborted : aborted.length < 2 ^ 32) (hoffsets : offsets.length < 2 ^ 32)
    (hkeys : keys.length = offsets.length) : parseIndex (indexBytes aborted offsets keys ++ rest) =
      some ⟨aborted.map readBack, offsets.map readBack, keys.map fun key => key.length % 2 ^ 16,
        keys.flatMap firstKeyBytes⟩ := by
  rw [parseIndex, indexBytes, List.append_assoc, word_leBytes]
  simp only [Option.bind_eq_bind, Option.bind_some, List.append_assoc]
  rw [Nat.mod_eq_of_lt haborted, words64_leBytes (Nat.le_refl _), Option.bind_some]
  simp only [List.take_length, List.drop_length, List.flatMap_nil, List.nil_append]
  rw [word_leBytes, Option.bind_some]
  simp only [Nat.mod_eq_of_lt hoffsets]
  rw [words64_leBytes (Nat.le_refl _), Option.bind_some]
  simp only [List.take_length, List.drop_length, List.flatMap_nil, List.nil_append]
  rw [← hkeys, firstKeyLengths_flatMap, Option.bind_some, ← firstKeysSize_flatMap,
    readN_append_of_length rfl, Option.bind_some]
  rfl

/-- The fields before the filter. -/
theorem parse_keys {minKey maxKey : Bytes} (bits hashCount size : ℕ) :
    parse (minKey ++ (maxKey ++ (leBytes 4 bits ++ (leBytes 4 hashCount ++ (leBytes 4 size ++ rest)))))
        minKey.length maxKey.length =
      (readBloom (bits % 2 ^ 32) (hashCount % 2 ^ 32) (size % 2 ^ 32) rest).bind fun bloom =>
        (parseIndex (rest.drop (size % 2 ^ 32))).bind fun index => some ⟨minKey, maxKey, bloom, index⟩ := by
  rw [parse, readN_append_of_length rfl]
  simp only [Option.bind_eq_bind, Option.bind_some]
  rw [readN_append_of_length rfl]
  simp only [Option.bind_some, word_leBytes]
  rfl

namespace FileMetadata

theorem firstKeyIn_flatMap (keys : List Bytes) (i : ℕ) {key : Bytes} (hi : keys[i]? = some key) :
    firstKeyIn (keys.flatMap firstKeyBytes) i = key.take (key.length % 2 ^ 16) := by
  induction keys generalizing i with
  | nil => cases hi
  | cons k ks ih =>
    have hfront : (k :: ks).flatMap firstKeyBytes =
        leBytes 2 k.length ++ (k.take (k.length % 2 ^ 16) ++ ks.flatMap firstKeyBytes) := by
      rw [List.flatMap_cons, firstKeyBytes, List.append_assoc]
    have hne : ((k :: ks).flatMap firstKeyBytes).isEmpty = false := by
      rw [hfront]
      rfl
    have hhalf : halfAt ((k :: ks).flatMap firstKeyBytes) 0 = k.length % 2 ^ 16 := by
      rw [halfAt, List.drop_zero, hfront, List.take_left' (length_leBytes 2 _), ofLe_leBytes_mod]
      rfl
    have hlen : (k.take (k.length % 2 ^ 16)).length = k.length % 2 ^ 16 := List.length_take_of_le (Nat.mod_le _ _)
    cases i with
    | zero =>
      rw [List.getElem?_cons_zero, Option.some_inj] at hi
      subst hi
      rw [firstKeyIn, hne, hhalf, if_neg Bool.false_ne_true, hfront, List.drop_left' (length_leBytes 2 _),
        List.take_left' hlen]
    | succ i =>
      rw [firstKeyIn, hne, hhalf, if_neg Bool.false_ne_true, List.flatMap_cons,
        List.drop_left' (length_firstKeyBytes k)]
      exact ih i hi

end FileMetadata

/-! ## A buffer of zeros -/

theorem readN_zeros {n k : ℕ} {r : Bytes × Bytes} (h : readN n (List.replicate k 0) = some r) :
    r.1 = List.replicate n 0 ∧ ∃ k', r.2 = List.replicate k' 0 := by
  rw [readN, List.length_replicate] at h
  split at h
  · next hle =>
    rw [← Option.some.inj h]
    exact ⟨by rw [List.take_replicate, Nat.min_eq_left hle], k - n, List.drop_replicate ..⟩
  · cases h

theorem word_zeros {k : ℕ} {r : ℕ × Bytes} (h : word (List.replicate k 0) = some r) :
    r.1 = 0 ∧ ∃ k', r.2 = List.replicate k' 0 := by
  obtain ⟨r', hr', rfl⟩ := Option.map_eq_some_iff.mp h
  obtain ⟨hzero, hrest⟩ := readN_zeros hr'
  exact ⟨by rw [hzero]; rfl, hrest⟩

/-- In a buffer of zeros there are no blocks. -/
theorem parse_zeros {k minkl maxkl : ℕ} {m : FilterFields} (h : parse (List.replicate k 0) minkl maxkl = some m) :
    m.index.blockOffsets = [] := by
  rw [parse] at h
  simp only [Option.bind_eq_bind, Option.bind_eq_some_iff] at h
  obtain ⟨minKey, hmin, maxKey, hmax, bb, hbb, bh, hbh, bz, hbz, bloom, -, index, hindex, heq⟩ := h
  obtain ⟨-, k₁, h₁⟩ := readN_zeros hmin
  rw [h₁] at hmax
  obtain ⟨-, k₂, h₂⟩ := readN_zeros hmax
  rw [h₂] at hbb
  obtain ⟨-, k₃, h₃⟩ := word_zeros hbb
  rw [h₃] at hbh
  obtain ⟨-, k₄, h₄⟩ := word_zeros hbh
  rw [h₄] at hbz
  obtain ⟨hzero, k₅, h₅⟩ := word_zeros hbz
  rw [hzero, h₅, List.drop_zero, parseIndex] at hindex
  simp only [Option.bind_eq_bind, Option.bind_eq_some_iff] at hindex
  obtain ⟨ac, hac, aborted, haborted, bc, hbc, offsets, hoffsets, lengths, -, buf, -, hfields⟩ := hindex
  obtain ⟨hnone, k₆, h₆⟩ := word_zeros hac
  rw [hnone, h₆] at haborted
  cases haborted
  obtain ⟨hnone, -, -⟩ := word_zeros hbc
  rw [hnone] at hoffsets
  cases hoffsets
  rw [← Option.some.inj heq, ← Option.some.inj hfields]

/-! ## The file -/

theorem wordAt_skip {before r : Bytes} {k : ℕ} (h : before.length = k) (p : ℕ) :
    wordAt (before ++ r) (k + p) = wordAt r p := by
  rw [wordAt, wordAt, ← List.drop_drop, List.drop_left' h]

theorem halfAt_skip {before r : Bytes} {k : ℕ} (h : before.length = k) (p : ℕ) :
    halfAt (before ++ r) (k + p) = halfAt r p := by
  rw [halfAt, halfAt, ← List.drop_drop, List.drop_left' h]

theorem wordAt_zero (n : ℕ) : wordAt (leBytes 4 n ++ rest) 0 = n % 2 ^ 32 := by
  rw [wordAt, List.drop_zero, List.take_left' (length_leBytes 4 n), ofLe_leBytes_mod]
  rfl

theorem halfAt_zero (n : ℕ) : halfAt (leBytes 2 n ++ rest) 0 = n % 2 ^ 16 := by
  rw [halfAt, List.drop_zero, List.take_left' (length_leBytes 2 n), ofLe_leBytes_mod]
  rfl

section File

variable {f : SSTableFile}

/-- The bytes up to the filter area. -/
def frontBytes (f : SSTableFile) : Bytes := header f.entryCount (keyLengths f) ++ f.blocks.flatMap blockBytes

theorem length_frontBytes (f : SSTableFile) : (frontBytes f).length = filterOffset f := by
  rw [frontBytes, List.length_append, length_header, length_keyLengths, filterOffset]

/-- The filter area with its checksum. -/
def checkedArea (f : SSTableFile) : Bytes := filterArea f ++ leBytes 4 (crc32 (filterArea f))

theorem length_checkedArea (f : SSTableFile) : (checkedArea f).length = (filterArea f).length + 4 := by
  rw [checkedArea, List.length_append, length_leBytes]

theorem fileBytes_split (f : SSTableFile) : fileBytes f =
    frontBytes f ++ (checkedArea f ++ (leBytes 8 (filterOffset f) ++ leBytes 4 Config.sstableFooterMagic)) := by
  rw [fileBytes, frontBytes, checkedArea, footer]
  simp only [List.append_assoc]

theorem length_fileBytes (f : SSTableFile) :
    (fileBytes f).length = filterOffset f + (filterArea f).length + 16 := by
  rw [fileBytes_split, List.length_append, List.length_append, length_frontBytes, length_checkedArea]
  simp only [List.length_append, length_leBytes]
  omega

theorem filterOffset_ge (f : SSTableFile) : 24 ≤ filterOffset f := Nat.le_add_right 24 _

theorem footer_fields (f : SSTableFile) : readFilterOffset (fileBytes f) = readBack (filterOffset f) ∧
    wordAt (fileBytes f) ((fileBytes f).length - 4) = Config.sstableFooterMagic := by
  have hsplit : fileBytes f = (frontBytes f ++ checkedArea f) ++ (leBytes 4 (filterOffset f) ++
      (leBytes 4 (filterOffset f / 2 ^ 32) ++ (leBytes 4 Config.sstableFooterMagic ++ []))) := by
    rw [fileBytes_split, show leBytes 8 (filterOffset f) = leBytes 4 (filterOffset f) ++
      leBytes 4 (filterOffset f / 256 ^ 4) from leBytes_add 4 4 _]
    simp only [List.append_assoc, List.append_nil]
    rfl
  have hfront : (frontBytes f ++ checkedArea f).length = (fileBytes f).length - 12 := by
    rw [List.length_append, length_frontBytes, length_checkedArea, length_fileBytes]
    omega
  have hlength := length_fileBytes f
  have hlow := wordAt_skip (r := leBytes 4 (filterOffset f) ++
    (leBytes 4 (filterOffset f / 2 ^ 32) ++ (leBytes 4 Config.sstableFooterMagic ++ []))) hfront
  rw [← hsplit] at hlow
  refine ⟨?_, ?_⟩
  · rw [readFilterOffset, show (fileBytes f).length - 8 = (fileBytes f).length - 12 + (4 + 0) by omega, hlow,
      ← Nat.add_zero ((fileBytes f).length - 12), hlow, wordAt_zero, wordAt_skip (length_leBytes 4 _), wordAt_zero]
    rfl
  · rw [show (fileBytes f).length - 4 = (fileBytes f).length - 12 + (4 + (4 + 0)) by omega, hlow,
      wordAt_skip (length_leBytes 4 _), wordAt_skip (length_leBytes 4 _), wordAt_zero]
    rfl

theorem header_fields (f : SSTableFile) : wordAt (fileBytes f) 0 = Config.sstableMagic ∧
    wordAt (fileBytes f) 4 = Config.sstableVersion ∧ wordAt (fileBytes f) 12 = f.entryCount % 2 ^ 32 ∧
    halfAt (fileBytes f) 20 = f.minKey.length % 2 ^ 16 ∧ halfAt (fileBytes f) 22 = f.maxKey.length % 2 ^ 16 := by
  have hsplit : fileBytes f = leBytes 4 Config.sstableMagic ++ (leBytes 4 Config.sstableVersion ++
      (leBytes 4 Config.sstableBlockSize ++ (leBytes 4 f.entryCount ++ ([Config.compressionNone, 0, 0, 0] ++
        (leBytes 2 f.minKey.length ++ (leBytes 2 f.maxKey.length ++
          (f.blocks.flatMap blockBytes ++ (filterArea f ++ footer f)))))))) := by
    rw [fileBytes, header, keyLengths]
    simp only [List.append_assoc, List.cons_append, List.nil_append]
  have hword : ∀ n : ℕ, (leBytes 4 n).length = 4 := length_leBytes 4
  rw [hsplit]
  refine ⟨?_, ?_, ?_, ?_, ?_⟩
  · rw [wordAt_zero]
    rfl
  · rw [← Nat.add_zero 4, wordAt_skip (hword _), wordAt_zero]
    rfl
  · rw [show 12 = 4 + (4 + (4 + 0)) from rfl, wordAt_skip (hword _), wordAt_skip (hword _), wordAt_skip (hword _),
      wordAt_zero]
  · rw [show 20 = 4 + (4 + (4 + (4 + (4 + 0)))) from rfl, halfAt_skip (hword _), halfAt_skip (hword _),
      halfAt_skip (hword _), halfAt_skip (hword _), halfAt_skip (k := 4) rfl, halfAt_zero]
  · rw [show 22 = 4 + (4 + (4 + (4 + (4 + (2 + 0))))) from rfl, halfAt_skip (hword _), halfAt_skip (hword _),
      halfAt_skip (hword _), halfAt_skip (hword _), halfAt_skip (k := 4) rfl, halfAt_skip (length_leBytes 2 _), halfAt_zero]

/-- The checks of a file that is shorter than `2 ^ 63` bytes, if its filter offset is read back. -/
theorem opens_fileBytes (hlen : (fileBytes f).length < 2 ^ 63) (hkept : Kept (filterOffset f)) :
    Opens (fileBytes f) ∧ filterBuffer (fileBytes f) = checkedArea f := by
  have hlength := length_fileBytes f
  have hge := filterOffset_ge f
  obtain ⟨hoffset, hfooter⟩ := footer_fields f
  rw [(readBack_eq_iff (by omega)).mpr hkept] at hoffset
  have hsize : readFilterSize (fileBytes f) = (checkedArea f).length := by
    rw [readFilterSize, hoffset, length_checkedArea, hlength]
    omega
  obtain ⟨hmagic, hversion, -⟩ := header_fields f
  refine ⟨⟨by omega, hmagic, hversion, hfooter, ?_⟩, ?_⟩
  · rw [hsize, length_checkedArea]
    omega
  · have hahead : InputStream.Ahead ⟨fileBytes f, filterOffset f, false⟩ (checkedArea f) := by
      refine ⟨rfl, ?_⟩
      show _ <+: (fileBytes f).drop (filterOffset f)
      rw [fileBytes_split, List.drop_left' (length_frontBytes f)]
      exact List.prefix_append _ _
    rw [filterBuffer, hoffset, decide_eq_false (by omega), hahead.readZeroed hsize.symm]

/-- Otherwise the buffer stays as it is made. -/
theorem filterBuffer_of_not_kept (hkept : ¬ Kept (filterOffset f)) :
    filterBuffer (fileBytes f) = List.replicate (readFilterSize (fileBytes f)) 0 := by
  obtain ⟨hoffset, -⟩ := footer_fields f
  have hlarge : 2 ^ 63 ≤ readBack (filterOffset f) := by
    rw [Kept, not_or, Nat.not_lt] at hkept
    rw [readBack, joinWords_of_ge hkept.1 (Nat.mod_lt _ (Nat.two_pow_pos 32)) (Nat.mod_lt _ (Nat.two_pow_pos 32))]
    omega
  rw [filterBuffer, hoffset, decide_eq_true hlarge]
  rfl

theorem not_mismatch (f : SSTableFile) : ¬ Mismatch (checkedArea f) := by
  rintro ⟨-, hne⟩
  have hlen : (checkedArea f).length - 4 = (filterArea f).length + 0 := by
    rw [length_checkedArea]
    omega
  have hword : wordAt (checkedArea f) ((filterArea f).length + 0) = crc32 (filterArea f) := by
    rw [checkedArea, wordAt_skip rfl, ← List.append_nil (leBytes 4 _), wordAt_zero, Nat.mod_eq_of_lt (crc32_lt _)]
  rw [hlen, hword, Nat.add_zero, checkedArea, List.take_left] at hne
  exact hne rfl

/-- The filter area, with the lengths that were written. -/
theorem checkedArea_split (f : SSTableFile) : checkedArea f =
    f.minKey ++ (f.maxKey ++ (leBytes 4 f.bloom.bits ++ (leBytes 4 f.bloom.hashCount ++
      (leBytes 4 ((f.bloom.bits + 7) / 8) ++ (bloomData f.bloom ++
        (indexBytes f.abortedBatchTs (blockOffsets f) f.firstKeys ++ leBytes 4 (crc32 (filterArea f)))))))) := by
  have hbloom : (bloomData f.bloom).length = (f.bloom.bits + 7) / 8 := by
    rw [bloomData, List.length_map, List.length_range]
  have hoffsets : (blockOffsets f).length = f.blocks.length := by
    rw [blockOffsets, List.length_map, List.length_range]
  rw [checkedArea, indexBytes, hoffsets, ← hbloom]
  generalize crc32 (filterArea f) = crc
  rw [filterArea]
  simp only [List.append_assoc]

theorem length_bloomData (b : BloomFilter) : (bloomData b).length = (b.bits + 7) / 8 := by
  rw [bloomData, List.length_map, List.length_range]

/-- An entry takes at least 17 bytes. -/
theorem entries_length_le (f : SSTableFile) : 17 * f.entries.length ≤ (fileBytes f).length := by
  have hblock : ∀ b : List KeyValuePair, 17 * b.length ≤ (blockBytes b).length := by
    intro b
    have hpayload := blockPayload_length_ge b
    rw [blockBytes, List.length_append, List.length_cons, List.length_append]
    omega
  have hall := mul_sum_le_flatMap hblock f.blocks
  rw [← List.length_flatten] at hall
  rw [length_fileBytes, filterOffset, SSTableFile.entries]
  omega

end File

/-! ## What is read back -/

/-- The metadata tells the counts, the keys, the places of the blocks, the aborted timestamps and the filter of the file. -/
structure Describes (f : SSTableFile) (md : FileMetadata) : Prop where
  entryCount : md.entryCount = f.entryCount
  minKey : md.minKey = f.minKey
  maxKey : md.maxKey = f.maxKey
  offsets : md.blockOffsets = blockOffsets f
  firstKeys : ∀ i key, f.firstKeys[i]? = some key → md.firstKey i = key
  aborted : ∀ t, t ∈ md.abortedBatchTs ↔ t ∈ f.abortedBatchTs
  bloom : md.bloom = ⟨f.bloom.bits, f.bloom.hashCount, bloomData f.bloom⟩

/-- The sizes that `ReadMetadata` copes with. -/
structure MetadataCondition (f : SSTableFile) : Prop where
  entryCount : f.entryCount < 2 ^ 31
  minKey : f.minKey.length < 2 ^ 16
  maxKey : f.maxKey.length < 2 ^ 16
  firstKeys : ∀ key ∈ f.firstKeys, key.length < 2 ^ 16
  bloom : f.bloom.bits < 2 ^ 32
  abortedCount : f.abortedBatchTs.length < 2 ^ 32
  aborted : ∀ t ∈ f.abortedBatchTs, Kept t
  filterOffset : Kept (filterOffset f)
  offsets : ∀ o ∈ blockOffsets f, Kept o

theorem parse_lengths {buf : Bytes} {minkl maxkl : ℕ} {m : FilterFields} (h : parse buf minkl maxkl = some m) :
    m.minKey.length = minkl ∧ m.maxKey.length = maxkl := by
  rw [parse] at h
  simp only [Option.bind_eq_bind, Option.bind_eq_some_iff] at h
  obtain ⟨minKey, hmin, maxKey, hmax, _, -, _, -, _, -, _, -, _, -, heq⟩ := h
  rw [← Option.some.inj heq]
  exact ⟨(Scan.readN_eq_some hmin).2, (Scan.readN_eq_some hmax).2⟩

section Describes

variable {f : SSTableFile} (hf : f.WellFormed) (hlen : (fileBytes f).length < 2 ^ 63) (hbits : 0 < f.bloom.bits)
  (hhash : f.bloom.hashCount < 2 ^ 32)

include hf hlen in
/-- The count of entries is read as a signed word. -/
theorem entryCount_lt_of_read (h : widen (wordAt (fileBytes f) 12) = f.entryCount) : f.entryCount < 2 ^ 31 := by
  obtain ⟨-, -, hcount, -⟩ := header_fields f
  have hle := entries_length_le f
  rw [← hf.entryCount] at hle
  have hmod := Nat.mod_lt f.entryCount (Nat.two_pow_pos 32)
  rw [hcount] at h
  rcases Nat.lt_or_ge (f.entryCount % 2 ^ 32) (2 ^ 31) with hlt | hge
  · rw [widen_of_lt hlt] at h
    omega
  · rw [widen_of_ge hge hmod] at h
    omega

/-- Without a filter offset that is read back no block is found, though there are some. -/
theorem filterOffset_kept_of_read {m : FilterFields} {minkl maxkl : ℕ}
    (hparse : parse (filterBuffer (fileBytes f)) minkl maxkl = some m)
    (h : m.index.blockOffsets.length = f.blocks.length) : Kept (filterOffset f) := by
  by_contra hbad
  rw [filterBuffer_of_not_kept hbad] at hparse
  rw [parse_zeros hparse] at h
  have hblocks : f.blocks = [] := List.length_eq_zero_iff.mp h.symm
  refine hbad (.inl ?_)
  rw [filterOffset, hblocks]
  decide

theorem metadataOf_entryCount (filepath : String) (data : Bytes) (m : FilterFields) :
    (metadataOf filepath data m).entryCount = widen (wordAt data 12) := rfl

include hf hlen hbits in
theorem condition_of_describes {filepath : String} {md : FileMetadata}
    (hread : readMetadata filepath (fileBytes f) = .returned md) (h : Describes f md)
    (hnodup : f.abortedBatchTs.Nodup) : MetadataCondition f := by
  obtain ⟨-, -, m, hparse, rfl⟩ := readMetadata_eq_returned.mp hread
  have hcount := entryCount_lt_of_read hf hlen ((metadataOf_entryCount filepath (fileBytes f) m).symm.trans h.entryCount)
  have hoffsetsLen : (blockOffsets f).length = f.blocks.length := by rw [blockOffsets, List.length_map, List.length_range]
  have hkept := filterOffset_kept_of_read hparse ((congrArg List.length h.offsets).trans hoffsetsLen)
  obtain ⟨-, hbuffer⟩ := opens_fileBytes hlen hkept
  obtain ⟨-, -, -, hminkl, hmaxkl⟩ := header_fields f
  rw [hbuffer, hminkl, hmaxkl] at hparse
  -- the lengths of the smallest and the largest key
  obtain ⟨hmin, hmax⟩ := parse_lengths hparse
  have hminKey : m.minKey = f.minKey := h.minKey
  have hmaxKey : m.maxKey = f.maxKey := h.maxKey
  rw [hminKey] at hmin
  rw [hmaxKey] at hmax
  rw [← hmin, ← hmax, checkedArea_split, parse_keys] at hparse
  simp only [Option.bind_eq_some_iff] at hparse
  obtain ⟨bloom, hbloom, index, hindex, heq⟩ := hparse
  obtain rfl := Option.some.inj heq
  -- the filter
  have hbloomEq : bloom = ⟨f.bloom.bits, f.bloom.hashCount, bloomData f.bloom⟩ := h.bloom
  have hbitsLt : f.bloom.bits < 2 ^ 32 := by
    rw [readBloom] at hbloom
    split at hbloom
    · obtain ⟨_, -, hraw⟩ := Option.map_eq_some_iff.mp hbloom
      have hbb : f.bloom.bits % 2 ^ 32 = f.bloom.bits := congrArg RawBloom.bits (hraw.trans hbloomEq)
      exact hbb ▸ Nat.mod_lt _ (Nat.two_pow_pos 32)
    · have hbb : 0 = f.bloom.bits := congrArg RawBloom.bits ((Option.some.inj hbloom).trans hbloomEq)
      exact absurd hbb (Nat.ne_of_lt hbits)
  have hsize : (f.bloom.bits + 7) / 8 < 2 ^ 32 := by omega
  rw [Nat.mod_eq_of_lt hsize, List.drop_left' (length_bloomData f.bloom)] at hindex
  -- the aborted timestamps
  have hset : ∀ t, t ∈ index.abortedBatchTs ↔ t ∈ f.abortedBatchTs := h.aborted
  rw [parseIndex_aborted hindex] at hset
  have hlength : f.abortedBatchTs.length < 2 ^ 32 := by
    by_contra hge
    have hsub := List.Nodup.length_le_of_subset hnodup fun t ht => (hset t).mpr ht
    rw [List.length_map, List.length_take, Nat.min_eq_left (Nat.mod_le _ _)] at hsub
    have hmod := Nat.mod_lt f.abortedBatchTs.length (Nat.two_pow_pos 32)
    omega
  have haborted : ∀ t ∈ f.abortedBatchTs, Kept t := by
    intro t ht
    obtain ⟨t', -, rfl⟩ := List.mem_map.mp ((hset t).mpr ht)
    exact readBack_kept t'
  -- the offsets and the first keys
  have hblocks := blocks_length_le hf
  rw [← hf.entryCount] at hblocks
  have hkeysLen : f.firstKeys.length = (blockOffsets f).length := by
    rw [hoffsetsLen]
    exact List.length_map ..
  rw [parseIndex_indexBytes hlength (by omega) hkeysLen] at hindex
  obtain rfl := Option.some.inj hindex
  have hoffsets : (blockOffsets f).map readBack = blockOffsets f := h.offsets
  have hminLt : f.minKey.length < 2 ^ 16 := by omega
  have hmaxLt : f.maxKey.length < 2 ^ 16 := by omega
  refine ⟨hcount, hminLt, hmaxLt, ?_, hbitsLt, hlength, haborted, hkept, ?_⟩
  · intro key hkey
    obtain ⟨i, hi⟩ := List.getElem?_of_mem hkey
    have hfirst : FileMetadata.firstKeyIn (f.firstKeys.flatMap firstKeyBytes) i = key := h.firstKeys i key hi
    rw [FileMetadata.firstKeyIn_flatMap f.firstKeys i hi] at hfirst
    have htaken := congrArg List.length hfirst
    rw [List.length_take_of_le (Nat.mod_le _ _)] at htaken
    exact htaken ▸ Nat.mod_lt _ (Nat.two_pow_pos 16)
  · intro o ho
    rw [← hoffsets] at ho
    obtain ⟨o', -, rfl⟩ := List.mem_map.mp ho
    exact readBack_kept o'

theorem blockOffset_le (f : SSTableFile) : ∀ o ∈ blockOffsets f, o ≤ filterOffset f := by
  intro o ho
  obtain ⟨i, -, rfl⟩ := List.mem_map.mp ho
  rw [blockOffset, filterOffset]
  conv_rhs => rw [← List.take_append_drop i f.blocks]
  rw [List.flatMap_append, List.length_append]
  omega

theorem map_readBack {ts : List ℕ} (h : ∀ t ∈ ts, t < 2 ^ 64 ∧ Kept t) : ts.map readBack = ts := by
  conv_rhs => rw [← List.map_id ts]
  exact List.map_congr_left fun t ht => (readBack_eq_iff (h t ht).1).mpr (h t ht).2

/-- The fields of the filter area of a file. -/
def fieldsOf (f : SSTableFile) : FilterFields where
  minKey := f.minKey
  maxKey := f.maxKey
  bloom := ⟨f.bloom.bits, f.bloom.hashCount, bloomData f.bloom⟩
  index := ⟨f.abortedBatchTs, blockOffsets f, f.firstKeys.map fun key => key.length % 2 ^ 16,
    f.firstKeys.flatMap firstKeyBytes⟩

/-- The fields with the numbers of eight bytes as they are read back. -/
def fieldsReadBack (f : SSTableFile) : FilterFields :=
  { fieldsOf f with
    index := ⟨f.abortedBatchTs.map readBack, (blockOffsets f).map readBack,
      f.firstKeys.map fun key => key.length % 2 ^ 16, f.firstKeys.flatMap firstKeyBytes⟩ }

/-- The counts and lengths of the filter area are read back. -/
structure Parsed (f : SSTableFile) : Prop where
  entryCount : f.entryCount < 2 ^ 32
  minKey : f.minKey.length < 2 ^ 16
  maxKey : f.maxKey.length < 2 ^ 16
  bloom : f.bloom.bits < 2 ^ 32
  abortedCount : f.abortedBatchTs.length < 2 ^ 32

include hf hlen hbits hhash in
theorem readMetadata_of_parsed (h : Parsed f) (hkept : Kept (filterOffset f)) (filepath : String) :
    readMetadata filepath (fileBytes f) = .returned (metadataOf filepath (fileBytes f) (fieldsReadBack f)) := by
  obtain ⟨hopens, hbuffer⟩ := opens_fileBytes hlen hkept
  obtain ⟨-, -, -, hminkl, hmaxkl⟩ := header_fields f
  have hblocks := blocks_length_le hf
  rw [← hf.entryCount] at hblocks
  have hentries := h.entryCount
  have hoffsetsLen : (blockOffsets f).length = f.blocks.length := by rw [blockOffsets, List.length_map, List.length_range]
  have hkeysLen : f.firstKeys.length = (blockOffsets f).length := by
    rw [hoffsetsLen]
    exact List.length_map ..
  have hbits32 := h.bloom
  have hsize : (f.bloom.bits + 7) / 8 < 2 ^ 32 := by omega
  rw [Nat.mod_eq_of_lt h.minKey] at hminkl
  rw [Nat.mod_eq_of_lt h.maxKey] at hmaxkl
  have hbloom : readBloom f.bloom.bits f.bloom.hashCount ((f.bloom.bits + 7) / 8)
      (bloomData f.bloom ++ (indexBytes f.abortedBatchTs (blockOffsets f) f.firstKeys ++
        leBytes 4 (crc32 (filterArea f)))) = some ⟨f.bloom.bits, f.bloom.hashCount, bloomData f.bloom⟩ := by
    rw [readBloom, if_pos (by omega), readN_append_of_length (length_bloomData f.bloom)]
    rfl
  have hparse : parse (checkedArea f) f.minKey.length f.maxKey.length = some (fieldsReadBack f) := by
    rw [checkedArea_split, parse_keys, Nat.mod_eq_of_lt hbits32, Nat.mod_eq_of_lt hhash, Nat.mod_eq_of_lt hsize, hbloom,
      List.drop_left' (length_bloomData f.bloom), Option.bind_some,
      parseIndex_indexBytes h.abortedCount (by omega) hkeysLen]
    rfl
  refine readMetadata_eq_returned.mpr ⟨hopens, ?_, fieldsReadBack f, ?_, rfl⟩
  · rw [hbuffer]
    exact not_mismatch f
  · rw [hbuffer, hminkl, hmaxkl]
    exact hparse

include hf hlen hbits hhash in
theorem readMetadata_of_condition (h : MetadataCondition f) (hts : ∀ t ∈ f.abortedBatchTs, t < 2 ^ 64) (filepath : String) :
    readMetadata filepath (fileBytes f) = .returned (metadataOf filepath (fileBytes f) (fieldsOf f)) := by
  have hparsed : Parsed f := ⟨Nat.lt_trans h.entryCount (by decide), h.minKey, h.maxKey, h.bloom, h.abortedCount⟩
  have hlength := length_fileBytes f
  have hoffsets : (blockOffsets f).map readBack = blockOffsets f := map_readBack fun o ho => by
    have hle := blockOffset_le f o ho
    exact ⟨by omega, h.offsets o ho⟩
  have haborted := map_readBack fun t ht => ⟨hts t ht, h.aborted t ht⟩
  have hfields : fieldsReadBack f = fieldsOf f := by
    rw [fieldsReadBack, hoffsets, haborted]
    rfl
  rw [readMetadata_of_parsed hf hlen hbits hhash hparsed h.filterOffset filepath, hfields]

include hf hlen hbits hhash in
theorem read_of_condition (h : MetadataCondition f) (hts : ∀ t ∈ f.abortedBatchTs, t < 2 ^ 64) (filepath : String) :
    ∃ md, readMetadata filepath (fileBytes f) = .returned md ∧ Describes f md := by
  obtain ⟨-, -, hcount, -⟩ := header_fields f
  have hentries := h.entryCount
  refine ⟨_, readMetadata_of_condition hf hlen hbits hhash h hts filepath, ?_, rfl, rfl, rfl, ?_, fun t => Iff.rfl, rfl⟩
  · rw [metadataOf_entryCount, hcount, Nat.mod_eq_of_lt (by omega), widen_of_lt hentries]
  · intro i key hi
    show FileMetadata.firstKeyIn (f.firstKeys.flatMap firstKeyBytes) i = key
    rw [FileMetadata.firstKeyIn_flatMap f.firstKeys i hi,
      Nat.mod_eq_of_lt (h.firstKeys key (List.mem_of_getElem? hi)), List.take_length]

end Describes

theorem ofKeys_sizing (sizing : ℕ → ℕ × ℕ) (n : ℕ) (keys : List Bytes) :
    (BloomFilter.ofKeys sizing n keys).bits = (sizing n).1 ∧ (BloomFilter.ofKeys sizing n keys).hashCount = (sizing n).2 :=
  BloomFilter.foldl_add_bits keys ⟨(sizing n).1, (sizing n).2, []⟩

/-- What `ReadMetadata` returns for a file of `Write` describes it, exactly if all sizes are ones that it copes with. The
constructor of the filter gives it at least 64 bits and at most 30 hash functions. -/
theorem readMetadata_write_iff (sizing : ℕ → ℕ × ℕ) (es : List KeyValuePair) (aborted : List ℕ) (filepath : String)
    (hsizing : ∀ n, 64 ≤ (sizing n).1 ∧ (sizing n).2 ≤ 30)
    (hlen : (fileBytes (SSTableFile.write sizing es aborted)).length < 2 ^ 63) (hnodup : aborted.Nodup)
    (hts : ∀ t ∈ aborted, t < 2 ^ 64) :
    (∃ md, readMetadata filepath (fileBytes (SSTableFile.write sizing es aborted)) = .returned md ∧
        Describes (SSTableFile.write sizing es aborted) md) ↔
      MetadataCondition (SSTableFile.write sizing es aborted) := by
  have hf := SSTableFile.write_wellFormed sizing es aborted
  obtain ⟨hbits, hhash⟩ := ofKeys_sizing sizing (if es.isEmpty then 1 else es.length) (es.map KeyValuePair.key)
  obtain ⟨hsixty, hthirty⟩ := hsizing (if es.isEmpty then 1 else es.length)
  have hpos : 0 < (SSTableFile.write sizing es aborted).bloom.bits := by
    rw [SSTableFile.write, hbits]
    exact Nat.lt_of_lt_of_le (by decide) hsixty
  have hword : (SSTableFile.write sizing es aborted).bloom.hashCount < 2 ^ 32 := by
    rw [SSTableFile.write, hhash]
    exact Nat.lt_of_le_of_lt hthirty (by decide)
  refine ⟨?_, fun h => read_of_condition hf hlen hpos hword h hts filepath⟩
  rintro ⟨md, hread, h⟩
  exact condition_of_describes hf hlen hpos hread h hnodup

/-- A file with one entry and one aborted timestamp. -/
def abortedFile (t : ℕ) : SSTableFile := SSTableFile.write (fun _ => (64, 1)) [⟨[1], [], 1, false⟩] [t]

theorem readMetadata_abortedFile :
    (∃ md, readMetadata "a.sst" (fileBytes (abortedFile 7)) = .returned md ∧ Describes (abortedFile 7) md) ↔
      MetadataCondition (abortedFile 7) :=
  readMetadata_write_iff (fun _ => (64, 1)) [⟨[1], [], 1, false⟩] [7] "a.sst" (fun _ => by decide) (by decide) (by decide)
    (by decide)

theorem aborted_timestamp_lost :
    ¬ ∃ md, readMetadata "a.sst" (fileBytes (abortedFile (2 ^ 31))) = .returned md ∧
      Describes (abortedFile (2 ^ 31)) md := by
  rintro ⟨md, hread, h⟩
  have hcondition := condition_of_describes (SSTableFile.write_wellFormed _ _ _) (by decide) (by decide) hread h (by decide)
  exact absurd (hcondition.aborted (2 ^ 31) List.mem_cons_self) (by decide)

end Kvdb.SSTableBytes
