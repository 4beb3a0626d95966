import Kvdb.SSTable.Format
import Kvdb.Lib.InputStream
import Kvdb.Lib.Scan

/-! # Reading the metadata of a file (`SSTable::ReadMetadata`)

The filter area is read into a buffer, and every field is taken from where the pointer stands. Nothing checks that the
buffer reaches that far: `parse` is `none` where a byte behind its end would be accessed. The words are put together by a
helper that returns a signed integer of 32 bits, so that a word is extended with its sign where it becomes part of a
wider one. Allocations do not fail, but a vector cannot be asked for more than `2 ^ 63 - 1` bytes. -/
namespace Kvdb.SSTableBytes
set_option autoImplicit false

open LittleEndian Crc32
open Scan (readN)

/-! ## Words -/

/-- What the helper `r32` returns for a word. -/
def signed (w : ℕ) : ℤ := if w < 2 ^ 31 then w else (w : ℤ) - 2 ^ 32

/-- Its conversion to an unsigned integer of 64 bits. -/
def widen (w : ℕ) : ℕ := (signed w % 2 ^ 64).toNat

/-- `uint64_t(r32(p)) | (uint64_t(r32(p + 4)) << 32)`. -/
def joinWords (lo hi : ℕ) : ℕ := (widen lo ||| widen hi <<< 32) % 2 ^ 64

/-- The word at `p`. -/
def wordAt (data : Bytes) (p : ℕ) : ℕ := ofLe ((data.drop p).take 4)

def halfAt (data : Bytes) (p : ℕ) : ℕ := ofLe ((data.drop p).take 2)

/-- The word in front, and what follows it. -/
def word (p : Bytes) : Option (ℕ × Bytes) := (readN 4 p).map fun r => (ofLe r.1, r.2)

/-- So many words of eight bytes. -/
def words64 : ℕ → Bytes → Option (List ℕ × Bytes)
  | 0, p => some ([], p)
  | k + 1, p => do
    let lo ← word p
    let hi ← word lo.2
    let r ← words64 k hi.2
    return (joinWords lo.1 hi.1 :: r.1, r.2)

/-! ## The filter area -/

/-- `BloomFilter` with its bits as bytes. -/
structure RawBloom where
  bits : ℕ
  hashCount : ℕ
  bytes : Bytes
  deriving DecidableEq, Repr

/-- `FromRaw`, where there are bytes of a filter at all; the filter takes as many bytes as its bits need. -/
def readBloom (bits hashCount size : ℕ) (p : Bytes) : Option RawBloom :=
  if 0 < size then (readN ((bits + 7) / 8) p).map fun r => ⟨bits, hashCount, r.1⟩ else some ⟨0, 0, []⟩

/-- The lengths of so many first keys, which are passed over without a look at them. -/
def firstKeyLengths : ℕ → Bytes → Option (List ℕ)
  | 0, _ => some []
  | k + 1, p => do
    let w ← (readN 2 p).map fun r => (ofLe r.1, r.2)
    let ls ← firstKeyLengths k (w.2.drop w.1)
    return w.1 :: ls

/-- The bytes of first keys of these lengths. -/
def firstKeysSize (lengths : List ℕ) : ℕ := (lengths.map fun n => 2 + n).sum

/-- What follows the filter: the aborted timestamps, the offsets of the blocks and their first keys. -/
structure IndexFields where
  abortedBatchTs : List ℕ
  blockOffsets : List ℕ
  keyLengths : List ℕ
  firstKeyBuf : Bytes
  deriving DecidableEq, Repr

def parseIndex (p : Bytes) : Option IndexFields := do
  let ac ← word p
  let aborted ← words64 ac.1 ac.2
  let bc ← word aborted.2
  let offsets ← words64 bc.1 bc.2
  let lengths ← firstKeyLengths bc.1 offsets.2
  let buf ← readN (firstKeysSize lengths) offsets.2
  return ⟨aborted.1, offsets.1, lengths, buf.1⟩

/-- What is taken from the filter area. -/
structure FilterFields where
  minKey : Bytes
  maxKey : Bytes
  bloom : RawBloom
  index : IndexFields
  deriving DecidableEq, Repr

/-- The fields of the filter area, for the lengths of the smallest and the largest key. -/
def parse (buf : Bytes) (minkl maxkl : ℕ) : Option FilterFields := do
  let minKey ← readN minkl buf
  let maxKey ← readN maxkl minKey.2
  let bb ← word maxKey.2
  let bh ← word bb.2
  let bz ← word bh.2
  let bloom ← readBloom bb.1 bh.1 bz.1 bz.2
  let index ← parseIndex (bz.2.drop bz.1)
  return ⟨minKey.1, maxKey.1, bloom, index⟩

/-! ## `ReadMetadata` -/

/-- `Metadata` as it is read from a file. -/
structure FileMetadata where
  filepath : String
  entryCount : ℕ
  minKeyLen : ℕ
  maxKeyLen : ℕ
  fileSize : ℕ
  minKey : Bytes
  maxKey : Bytes
  bloom : RawBloom
  blockOffsets : List ℕ
  firstKeyBuf : Bytes
  firstKeyOffsets : List ℕ
  abortedBatchTs : List ℕ
  deriving DecidableEq, Repr

namespace FileMetadata

/-- `FirstKey`. -/
def firstKeyIn : Bytes → ℕ → Bytes
  | buf, 0 => if buf.isEmpty then [] else (buf.drop 2).take (halfAt buf 0)
  | buf, i + 1 => if buf.isEmpty then [] else firstKeyIn (buf.drop (2 + halfAt buf 0)) i

def firstKey (m : FileMetadata) (i : ℕ) : Bytes := firstKeyIn m.firstKeyBuf i

end FileMetadata

/-- What is thrown: a `runtime_error` with its text, or the `length_error` of a vector. -/
inductive MetadataError where
  | runtime (text : String)
  | length
  deriving DecidableEq, Repr

/-- A call throws, accesses a byte outside of its buffer, or returns. -/
inductive Outcome (α : Type) where
  | threw (e : MetadataError)
  | outside
  | returned (a : α)
  deriving DecidableEq, Repr

/-- `filter_off`. -/
def readFilterOffset (data : Bytes) : ℕ :=
  joinWords (wordAt data (data.length - 12)) (wordAt data (data.length - 8))

/-- `filter_size`. -/
def readFilterSize (data : Bytes) : ℕ :=
  (((data.length : ℤ) - readFilterOffset data - 12) % 2 ^ 64).toNat

/-- The buffer after `file.read`; an offset from `2 ^ 63` on is negative for `seekg`, which fails then. -/
def filterBuffer (data : Bytes) : Bytes :=
  (InputStream.readZeroed (readFilterSize data) ⟨data, readFilterOffset data, decide (2 ^ 63 ≤ readFilterOffset data)⟩).1

/-- The smallest and the largest of the lengths, from `UINT32_MAX` and from 0 on. -/
def minLength (lengths : List ℕ) : ℕ := lengths.foldl (fun m n => if n < m then n else m) (2 ^ 32 - 1)

def maxLength (lengths : List ℕ) : ℕ := lengths.foldl (fun m n => if m < n then n else m) 0

/-- Where the first keys begin, as words of 32 bits. -/
def keyOffsets (lengths : List ℕ) : List ℕ :=
  (List.range lengths.length).map fun i => firstKeysSize (lengths.take i) % 2 ^ 32

/-- What is returned for the fields of the filter area. -/
def metadataOf (filepath : String) (data : Bytes) (m : FilterFields) : FileMetadata where
  filepath := filepath
  entryCount := widen (wordAt data 12)
  minKeyLen := if minLength m.index.keyLengths = 2 ^ 32 - 1 then 0 else minLength m.index.keyLengths
  maxKeyLen := maxLength m.index.keyLengths
  fileSize := data.length
  minKey := m.minKey
  maxKey := m.maxKey
  bloom := m.bloom
  blockOffsets := m.index.blockOffsets
  firstKeyBuf := m.index.firstKeyBuf
  firstKeyOffsets := keyOffsets m.index.keyLengths
  abortedBatchTs := m.index.abortedBatchTs

/-- The checksum at the end of the filter area is not the one of the bytes before it. -/
def Mismatch (buf : Bytes) : Prop := 4 ≤ buf.length ∧ crc32 (buf.take (buf.length - 4)) ≠ wordAt buf (buf.length - 4)

instance (buf : Bytes) : Decidable (Mismatch buf) := inferInstanceAs (Decidable (_ ∧ _))

/-- `ReadMetadata` without a cache. -/
def readMetadata (filepath : String) (data : Bytes) : Outcome FileMetadata :=
  if data.length < 24 + 12 then .threw (.runtime ("SSTable too small: " ++ filepath))
  else if wordAt data 0 ≠ Config.sstableMagic then .threw (.runtime ("Bad magic: " ++ filepath))
  else if wordAt data 4 ≠ Config.sstableVersion then .threw (.runtime ("Bad version: " ++ filepath))
  else if signed (wordAt data 4) < 6 then .threw (.runtime ("Unsupported SSTable version: " ++ filepath))
  else if wordAt data (data.length - 4) ≠ Config.sstableFooterMagic then
    .threw (.runtime ("Bad footer magic: " ++ filepath))
  else if 2 ^ 63 - 1 < readFilterSize data then .threw .length
  else
    match parse (filterBuffer data) (halfAt data 20) (halfAt data 22) with
    | none => .outside
    | some m =>
      if Mismatch (filterBuffer data) then .threw (.runtime ("MetaCRC mismatch: " ++ filepath))
      else .returned (metadataOf filepath data m)

/-! ## When all accesses are inside the buffer -/

/-- The first keys, which are walked over by their lengths. -/
def FirstKeysFit : ℕ → Bytes → Prop
  | 0, _ => True
  | k + 1, p => 2 + halfAt p 0 ≤ p.length ∧ FirstKeysFit k (p.drop (2 + halfAt p 0))

/-- The counts of aborted timestamps and of blocks, what they count, and the first keys end inside the buffer; `a` is where
the count of aborted timestamps stands and `b` where the count of blocks does. -/
structure IndexFits (buf : Bytes) (a b : ℕ) : Prop where
  blocks : b = a + 4 + 8 * wordAt buf a
  offsets : b + 4 + 8 * wordAt buf b ≤ buf.length
  walk : FirstKeysFit (wordAt buf b) (buf.drop (b + 4 + 8 * wordAt buf b))

/-- So do the fields before them; `s` is where the sizes of the filter stand. -/
structure Fits (buf : Bytes) (s : ℕ) : Prop where
  sizes : s + 12 ≤ buf.length
  bloom : 0 < wordAt buf (s + 8) → s + 12 + (wordAt buf s + 7) / 8 ≤ buf.length
  index : ∃ b, IndexFits buf (s + 12 + wordAt buf (s + 8)) b

/-- The checks of the header and the footer, and of the size of the buffer. -/
structure Opens (data : Bytes) : Prop where
  size : 24 + 12 ≤ data.length
  magic : wordAt data 0 = Config.sstableMagic
  version : wordAt data 4 = Config.sstableVersion
  footer : wordAt data (data.length - 4) = Config.sstableFooterMagic
  buffer : readFilterSize data < 2 ^ 63

variable {buf p : Bytes} {k n : ℕ}

theorem readN_drop_eq_some {r : Bytes × Bytes} :
    readN n (buf.drop k) = some r ↔ n ≤ buf.length - k ∧ r = ((buf.drop k).take n, buf.drop (k + n)) := by
  rw [readN, List.length_drop, List.drop_drop]
  split
  · next hle => exact ⟨fun h => ⟨hle, (Option.some.inj h).symm⟩, fun h => congrArg some h.2.symm⟩
  · next hlt => exact ⟨fun h => (by cases h), fun h => absurd h.1 hlt⟩

theorem word_drop_eq_some {r : ℕ × Bytes} :
    word (buf.drop k) = some r ↔ k + 4 ≤ buf.length ∧ r = (wordAt buf k, buf.drop (k + 4)) := by
  rw [word, Option.map_eq_some_iff]
  simp only [readN_drop_eq_some]
  refine ⟨?_, fun h => ⟨_, ⟨by omega, rfl⟩, h.2.symm⟩⟩
  rintro ⟨_, ⟨hle, rfl⟩, rfl⟩
  exact ⟨by omega, rfl⟩

/-- The words of eight bytes from `k` on. -/
def words64At (buf : Bytes) (k : ℕ) : ℕ → List ℕ
  | 0 => []
  | c + 1 => joinWords (wordAt buf k) (wordAt buf (k + 4)) :: words64At buf (k + 8) c

theorem words64_drop_eq_some {c : ℕ} {r : List ℕ × Bytes} : words64 c (buf.drop k) = some r ↔
    (0 < c → k + 8 * c ≤ buf.length) ∧ r = (words64At buf k c, buf.drop (k + 8 * c)) := by
  induction c generalizing k r with
  | zero => exact ⟨fun h => ⟨fun h => absurd h (lt_irrefl 0), (Option.some.inj h).symm⟩, fun h => congrArg some h.2.symm⟩
  | succ c ih =>
    rw [words64]
    simp only [Option.bind_eq_bind, Option.bind_eq_some_iff, word_drop_eq_some]
    refine ⟨?_, ?_⟩
    · rintro ⟨_, ⟨hlo, rfl⟩, hrest⟩
      simp only [word_drop_eq_some] at hrest
      obtain ⟨_, ⟨hhi, rfl⟩, hrest⟩ := hrest
      simp only [ih] at hrest
      obtain ⟨_, ⟨hle, rfl⟩, heq⟩ := hrest
      refine ⟨fun _ => by omega, ?_⟩
      rw [← Option.some.inj heq, show k + 8 * (c + 1) = k + 4 + 4 + 8 * c by omega]
      rfl
    · rintro ⟨hle, rfl⟩
      have hle := hle (Nat.succ_pos c)
      refine ⟨_, ⟨by omega, rfl⟩, ?_⟩
      simp only [word_drop_eq_some]
      refine ⟨_, ⟨by omega, rfl⟩, ?_⟩
      simp only [ih]
      refine ⟨_, ⟨fun _ => by omega, rfl⟩, ?_⟩
      rw [show k + 8 * (c + 1) = k + 4 + 4 + 8 * c by omega]
      rfl

theorem firstKeyLengths_iff (c : ℕ) (p : Bytes) :
    FirstKeysFit c p ↔ ∃ ls, firstKeyLengths c p = some ls ∧ firstKeysSize ls ≤ p.length := by
  induction c generalizing p with
  | zero => exact ⟨fun _ => ⟨[], rfl, Nat.zero_le _⟩, fun _ => trivial⟩
  | succ c ih =>
    rw [FirstKeysFit, ih, firstKeyLengths]
    rcases Nat.lt_or_ge p.length 2 with hshort | hlong
    · rw [Scan.readN_eq_none hshort]
      simp only [Option.map_none, Option.bind_eq_bind, Option.bind_none, reduceCtorEq, false_and, exists_false, iff_false]
      omega
    · have hread : readN 2 p = some (p.take 2, p.drop 2) := if_pos hlong
      rw [hread]
      simp only [Option.map_some, Option.bind_eq_bind, Option.bind_some, List.drop_drop]
      rw [show ofLe (p.take 2) = halfAt p 0 from rfl]
      refine ⟨?_, ?_⟩
      · rintro ⟨hle, ls, hls, hsize⟩
        refine ⟨halfAt p 0 :: ls, by rw [hls]; rfl, ?_⟩
        rw [List.length_drop] at hsize
        rw [firstKeysSize, List.map_cons, List.sum_cons]
        rw [firstKeysSize] at hsize
        omega
      · rintro ⟨ls, hls, hsize⟩
        obtain ⟨ls', hls', heq⟩ := Option.bind_eq_some_iff.mp hls
        obtain rfl := Option.some.inj heq
        rw [firstKeysSize, List.map_cons, List.sum_cons] at hsize
        refine ⟨by omega, ls', hls', ?_⟩
        rw [List.length_drop, firstKeysSize]
        omega

theorem readBloom_isSome_iff (bits hashCount size : ℕ) (h : k ≤ buf.length) :
    (∃ r, readBloom bits hashCount size (buf.drop k) = some r) ↔ (0 < size → k + (bits + 7) / 8 ≤ buf.length) := by
  rw [readBloom]
  split
  · next hpos =>
    simp only [Option.map_eq_some_iff, readN_drop_eq_some]
    refine ⟨?_, fun hle => ⟨_, _, ⟨?_, rfl⟩, rfl⟩⟩
    · rintro ⟨_, _, ⟨hle, -⟩, -⟩ -
      omega
    · have hle := hle hpos
      omega
  · next hzero => exact ⟨fun _ hpos => absurd hpos hzero, fun _ => ⟨_, rfl⟩⟩

theorem parseIndex_isSome_iff {a : ℕ} : (∃ m, parseIndex (buf.drop a) = some m) ↔ ∃ b, IndexFits buf a b := by
  rw [parseIndex]
  simp only [Option.bind_eq_bind, Option.bind_eq_some_iff, word_drop_eq_some]
  refine ⟨?_, ?_⟩
  · rintro ⟨m, _, ⟨hac, rfl⟩, h⟩
    simp only [words64_drop_eq_some] at h
    obtain ⟨_, ⟨haborted, rfl⟩, h⟩ := h
    simp only [word_drop_eq_some] at h
    obtain ⟨_, ⟨hbc, rfl⟩, h⟩ := h
    simp only [words64_drop_eq_some] at h
    obtain ⟨_, ⟨hoffsets, rfl⟩, lengths, hlengths, h⟩ := h
    simp only [readN_drop_eq_some] at h
    obtain ⟨_, ⟨hkeys, -⟩, -⟩ := h
    refine ⟨_, rfl, ?_, ?_⟩
    · rcases Nat.eq_zero_or_pos (wordAt buf (a + 4 + 8 * wordAt buf a)) with hzero | hpos
      · rw [hzero]
        exact hbc
      · exact hoffsets hpos
    · rw [firstKeyLengths_iff]
      exact ⟨lengths, hlengths, by rw [List.length_drop]; exact hkeys⟩
  · rintro ⟨b, hb, hoffsets, hwalk⟩
    obtain ⟨lengths, hlengths, hkeys⟩ := (firstKeyLengths_iff _ _).mp hwalk
    rw [List.length_drop] at hkeys
    refine ⟨⟨words64At buf (a + 4) (wordAt buf a), words64At buf (b + 4) (wordAt buf b), lengths,
      (buf.drop (b + 4 + 8 * wordAt buf b)).take (firstKeysSize lengths)⟩, _, ⟨by omega, rfl⟩, ?_⟩
    subst hb
    simp only [words64_drop_eq_some]
    refine ⟨_, ⟨fun _ => by omega, rfl⟩, ?_⟩
    simp only [word_drop_eq_some]
    refine ⟨_, ⟨by omega, rfl⟩, ?_⟩
    simp only [words64_drop_eq_some]
    refine ⟨_, ⟨fun _ => hoffsets, rfl⟩, lengths, hlengths, ?_⟩
    simp only [readN_drop_eq_some]
    exact ⟨_, ⟨hkeys, rfl⟩, rfl⟩

/-- The parts of the filter area one after the other. -/
theorem parse_isSome_iff (minkl maxkl : ℕ) : (∃ m, parse buf minkl maxkl = some m) ↔ Fits buf (minkl + maxkl) := by
  have hbuf : ∀ n, readN n buf = readN n (buf.drop 0) := fun n => by rw [List.drop_zero]
  rw [parse, hbuf]
  simp only [Option.bind_eq_bind, Option.bind_eq_some_iff, readN_drop_eq_some]
  refine ⟨?_, ?_⟩
  · rintro ⟨m, _, ⟨hmin, rfl⟩, h⟩
    simp only [readN_drop_eq_some, Nat.zero_add] at h
    obtain ⟨_, ⟨hmax, rfl⟩, h⟩ := h
    simp only [word_drop_eq_some] at h
    obtain ⟨_, ⟨hbb, rfl⟩, h⟩ := h
    simp only [word_drop_eq_some] at h
    obtain ⟨_, ⟨hbh, rfl⟩, h⟩ := h
    simp only [word_drop_eq_some] at h
    obtain ⟨_, ⟨hbz, rfl⟩, bloom, hbloom, index, hindex, -⟩ := h
    simp only [List.drop_drop] at hindex
    exact ⟨by omega, (readBloom_isSome_iff _ _ _ (by omega)).mp ⟨bloom, hbloom⟩, parseIndex_isSome_iff.mp ⟨index, hindex⟩⟩
  · rintro ⟨hsizes, hbloom, hindex⟩
    obtain ⟨bloom, hbloom⟩ := (readBloom_isSome_iff _ (wordAt buf (minkl + maxkl + 4)) _ hsizes).mpr hbloom
    obtain ⟨index, hindex⟩ := parseIndex_isSome_iff.mpr hindex
    refine ⟨⟨(buf.drop 0).take minkl, (buf.drop minkl).take maxkl, bloom, index⟩, _, ⟨by omega, rfl⟩, ?_⟩
    simp only [readN_drop_eq_some, Nat.zero_add]
    refine ⟨_, ⟨by omega, rfl⟩, ?_⟩
    simp only [word_drop_eq_some]
    refine ⟨_, ⟨by omega, rfl⟩, ?_⟩
    simp only [word_drop_eq_some]
    refine ⟨_, ⟨by omega, rfl⟩, ?_⟩
    simp only [word_drop_eq_some]
    refine ⟨_, ⟨by omega, rfl⟩, bloom, hbloom, index, ?_, rfl⟩
    rw [List.drop_drop]
    exact hindex

/-- Behind the checks the filter area is parsed. -/
theorem readMetadata_of_opens {data : Bytes} (h : Opens data) (filepath : String) : readMetadata filepath data =
    match parse (filterBuffer data) (halfAt data 20) (halfAt data 22) with
    | none => .outside
    | some m =>
      if Mismatch (filterBuffer data) then .threw (.runtime ("MetaCRC mismatch: " ++ filepath))
      else .returned (metadataOf filepath data m) := by
  have hsize := h.size
  have hbuffer := h.buffer
  rw [readMetadata, if_neg (by omega), if_neg (by simpa using h.magic), if_neg (by simpa using h.version), h.version,
    if_neg (by decide), if_neg (by simpa using h.footer), if_neg (by omega)]

/-- One of the checks throws otherwise. -/
theorem readMetadata_of_not_opens {data : Bytes} (h : ¬ Opens data) (filepath : String) :
    ∃ e, readMetadata filepath data = .threw e := by
  rw [readMetadata]
  by_cases hsize : data.length < 24 + 12
  · exact ⟨_, if_pos hsize⟩
  rw [if_neg hsize]
  by_cases hmagic : wordAt data 0 = Config.sstableMagic
  case neg => exact ⟨_, if_pos hmagic⟩
  rw [if_neg (by simpa using hmagic)]
  by_cases hversion : wordAt data 4 = Config.sstableVersion
  case neg => exact ⟨_, if_pos hversion⟩
  rw [if_neg (by simpa using hversion), hversion, if_neg (by decide)]
  by_cases hfooter : wordAt data (data.length - 4) = Config.sstableFooterMagic
  case neg => exact ⟨_, if_pos hfooter⟩
  rw [if_neg (by simpa using hfooter)]
  by_cases hbuffer : 2 ^ 63 - 1 < readFilterSize data
  · exact ⟨_, if_pos hbuffer⟩
  exact absurd ⟨by omega, hmagic, hversion, hfooter, by omega⟩ h

theorem readMetadata_eq_returned {filepath : String} {data : Bytes} {md : FileMetadata} :
    readMetadata filepath data = .returned md ↔ Opens data ∧ ¬ Mismatch (filterBuffer data) ∧
      ∃ m, parse (filterBuffer data) (halfAt data 20) (halfAt data 22) = some m ∧ md = metadataOf filepath data m := by
  by_cases hopens : Opens data
  · rw [readMetadata_of_opens hopens, and_iff_right hopens]
    cases parse (filterBuffer data) (halfAt data 20) (halfAt data 22) with
    | none => simp
    | some m =>
      simp only [Option.some.injEq, exists_eq_left']
      split
      · next hmismatch => simp [hmismatch]
      · next hmatch => simp [hmatch, eq_comm]
  · obtain ⟨e, he⟩ := readMetadata_of_not_opens hopens filepath
    rw [he]
    exact iff_of_false (by simp) fun h => hopens h.1

/-- `ReadMetadata` throws or accesses bytes of its buffer only, exactly if one of the checks before the buffer fails or all
fields of the filter area end inside it. -/
theorem readMetadata_inside_iff (filepath : String) (data : Bytes) :
    readMetadata filepath data ≠ .outside ↔
      (Opens data → Fits (filterBuffer data) (halfAt data 20 + halfAt data 22)) := by
  rw [← parse_isSome_iff]
  by_cases hopens : Opens data
  · rw [readMetadata_of_opens hopens]
    cases parse (filterBuffer data) (halfAt data 20) (halfAt data 22) with
    | none => simp [hopens]
    | some m =>
      simp only [Option.some.injEq, exists_eq', implies_true, iff_true]
      split <;> simp
  · obtain ⟨e, he⟩ := readMetadata_of_not_opens hopens filepath
    rw [he]
    exact iff_of_true (by simp) fun h => absurd h hopens

/-- A header and a footer with nothing between them. -/
def bareFile : Bytes := header 0 (List.replicate 8 0) ++ (leBytes 8 24 ++ leBytes 4 Config.sstableFooterMagic)

theorem readMetadata_bareFile : readMetadata "bare.sst" bareFile = .outside := by decide

end Kvdb.SSTableBytes
