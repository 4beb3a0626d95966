import Kvdb.SSTable.Format

/-! # Entries inside a block (`block.hpp`)

A `Block` is a cursor over the payload of a block. `Seek` walks over the length words from the front or from where the
cursor stands, `Read` decodes the entry at the cursor; at the end of the payload both stop early, and `Read` leaves in
its result what it has decoded by then. -/
namespace Kvdb.SSTableBytes
set_option autoImplicit false

open LittleEndian

/-- `Block`. -/
structure Block where
  data : Bytes
  pos : ℕ
  count : ℕ
  idx : ℕ
  deriving DecidableEq, Repr

namespace Block

/-- `Block()`. -/
def empty : Block := ⟨[], 0, 0, 0⟩

def slice (data : Bytes) (pos n : ℕ) : Bytes := (data.drop pos).take n

/-- `ReadU32LE`. -/
def readU32 (data : Bytes) (pos : ℕ) : ℕ := ofLe (slice data pos 4)

def ofData (data : Bytes) : Block := ⟨data, 4, if 4 ≤ data.length then readU32 data 0 else 0, 0⟩

/-- The loop of `Seek`, for so many entries. What is added behind the value length is a word of 32 bits. -/
def seekLoop : ℕ → Block → Block
  | 0, b => b
  | k + 1, b =>
    if b.pos + 4 ≤ b.data.length then
      let p := b.pos + 4 + readU32 b.data b.pos
      if b.data.length < p + 4 then { b with pos := p }
      else seekLoop k { b with pos := p + 4 + (readU32 b.data p + 9) % 2 ^ 32, idx := b.idx + 1 }
    else b

/-- `Seek`. -/
def seek (idx : ℕ) (b : Block) : Block :=
  let b := if idx < b.idx then { b with pos := 4, idx := 0 } else b
  seekLoop (idx - b.idx) b

/-- `Read`: whether an entry was read, and `out` as it is then. -/
def read (b : Block) (out : KeyValuePair) : Bool × KeyValuePair × Block :=
  if b.count ≤ b.idx ∨ b.data.length < b.pos + 4 then (false, out, b)
  else
    let kl := readU32 b.data b.pos
    let p := b.pos + 4
    if b.data.length < p + kl then (false, out, { b with pos := p })
    else
      let out := { out with key := slice b.data p kl }
      let p := p + kl
      if b.data.length < p + 4 then (false, out, { b with pos := p })
      else
        let vl := readU32 b.data p
        let p := p + 4
        if b.data.length < p + vl then (false, out, { b with pos := p })
        else
          let out := { out with value := slice b.data p vl }
          let p := p + vl
          if b.data.length < p + 8 + 1 then (false, out, { b with pos := p })
          else
            (true, { out with timestamp := ofLe (slice b.data p 8),
                              isTombstone := decide ((b.data.getD (p + 8) 0).toNat % 2 = 1) },
              { b with pos := p + 8 + 1, idx := b.idx + 1 })

/-- `Seek(i)` followed by `Read`. -/
def readAt (i : ℕ) (b : Block) (out : KeyValuePair) : Bool × KeyValuePair × Block := (b.seek i).read out

theorem seekLoop_count (k : ℕ) (b : Block) : (b.seekLoop k).count = b.count := by
  induction k generalizing b with
  | zero => rfl
  | succ k ih =>
    rw [seekLoop]
    split
    · simp only []
      split
      · rfl
      · rw [ih]
    · rfl

theorem read_count (b : Block) (out : KeyValuePair) : (b.read out).2.2.count = b.count := by
  unfold read
  simp only []
  repeat' split
  all_goals rfl

theorem seek_count (i : ℕ) (b : Block) : (b.seek i).count = b.count := by
  rw [seek, seekLoop_count]
  split
  · rfl
  · rfl

theorem readAt_count (i : ℕ) (b : Block) (out : KeyValuePair) : (b.readAt i out).2.2.count = b.count := by
  rw [readAt, read_count, seek_count]

end Block

/-! ## The cursor in a stored block -/

variable {sb : StoredBlock} {b : Block} {i j : ℕ} {e : StoredEntry}

/-- The bytes of the payload before entry `i`. -/
def entryOffset (sb : StoredBlock) (i : ℕ) : ℕ := 4 + ((sb.entries.take i).flatMap StoredEntry.bytes).length

/-- The cursor stands at entry `i`. -/
structure CursorIn (sb : StoredBlock) (i : ℕ) (b : Block) : Prop where
  data : b.data = sb.payload
  pos : b.pos = entryOffset sb i
  idx : b.idx = i

/-- It stands there, and the word in front of the entries is their number. -/
structure CursorAt (sb : StoredBlock) (i : ℕ) (b : Block) : Prop extends CursorIn sb i b where
  count : b.count = sb.entries.length

theorem payload_split (he : sb.entries[i]? = some e) : ∃ before after, sb.payload = before ++ (e.bytes ++ after) ∧
    before.length = entryOffset sb i ∧ entryOffset sb (i + 1) = entryOffset sb i + e.bytes.length := by
  obtain ⟨hlt, hget⟩ := List.getElem?_eq_some_iff.mp he
  refine ⟨leBytes 4 sb.entries.length ++ (sb.entries.take i).flatMap StoredEntry.bytes,
    (sb.entries.drop (i + 1)).flatMap StoredEntry.bytes, ?_, ?_, ?_⟩
  · have hall : sb.entries = sb.entries.take i ++ e :: sb.entries.drop (i + 1) := by
      rw [← hget, ← List.drop_eq_getElem_cons hlt, List.take_append_drop]
    rw [StoredBlock.payload, List.append_assoc]
    congr 1
    conv_lhs => rw [hall]
    rw [List.flatMap_append, List.flatMap_cons]
  · rw [List.length_append, length_leBytes, entryOffset]
  · rw [entryOffset, entryOffset, List.take_add_one, he, List.flatMap_append, List.length_append]
    simp [Nat.add_assoc]

theorem slice_at {data before mid after : Bytes} {p n : ℕ} (h : data = before ++ (mid ++ after))
    (hp : before.length = p) (hn : mid.length = n) : Block.slice data p n = mid := by
  subst h hp hn
  rw [Block.slice, List.drop_left, List.take_left]

theorem readU32_at {data before after : Bytes} {p n : ℕ} (h : data = before ++ (leBytes 4 n ++ after))
    (hp : before.length = p) : Block.readU32 data p = n % 2 ^ 32 := by
  rw [Block.readU32, slice_at h hp (length_leBytes 4 n), ofLe_leBytes_mod]
  rfl

/-- The words and bytes of an entry that stands at `p`. -/
structure EntryFields (data : Bytes) (p : ℕ) (e : StoredEntry) : Prop where
  keyLength : Block.readU32 data p = e.key.length
  key : Block.slice data (p + 4) e.key.length = e.key
  valueLength : Block.readU32 data (p + 4 + e.key.length) = e.value.length
  value : Block.slice data (p + 4 + e.key.length + 4) e.value.length = e.value
  timestamp : Block.slice data (p + 4 + e.key.length + 4 + e.value.length) 8 = leBytes 8 e.timestamp
  flag : data.getD (p + 4 + e.key.length + 4 + e.value.length + 8) 0 = e.flag
  fit : p + 4 + e.key.length + 4 + e.value.length + 8 + 1 ≤ data.length

theorem entryFields {data before after : Bytes} {p : ℕ} (h : data = before ++ (e.bytes ++ after))
    (hp : before.length = p) (hk : e.key.length < 2 ^ 32) (hv : e.value.length < 2 ^ 32) : EntryFields data p e := by
  rw [StoredEntry.bytes, StoredEntry.valueBytes] at h
  simp only [List.append_assoc] at h
  have h₁ : data = (before ++ leBytes 4 e.key.length) ++ (e.key ++ (leBytes 4 e.value.length ++ (e.value ++
      (leBytes 8 e.timestamp ++ ([e.flag] ++ after))))) := by
    rw [h]
    simp only [List.append_assoc]
  have h₂ : data = (before ++ leBytes 4 e.key.length ++ e.key) ++ (leBytes 4 e.value.length ++ (e.value ++
      (leBytes 8 e.timestamp ++ ([e.flag] ++ after)))) := by
    rw [h]
    simp only [List.append_assoc]
  have h₃ : data = (before ++ leBytes 4 e.key.length ++ e.key ++ leBytes 4 e.value.length) ++ (e.value ++
      (leBytes 8 e.timestamp ++ ([e.flag] ++ after))) := by
    rw [h]
    simp only [List.append_assoc]
  have h₄ : data = (before ++ leBytes 4 e.key.length ++ e.key ++ leBytes 4 e.value.length ++ e.value) ++
      (leBytes 8 e.timestamp ++ ([e.flag] ++ after)) := by
    rw [h]
    simp only [List.append_assoc]
  have h₅ : data = (before ++ leBytes 4 e.key.length ++ e.key ++ leBytes 4 e.value.length ++ e.value ++
      leBytes 8 e.timestamp) ++ ([e.flag] ++ after) := by
    rw [h]
    simp only [List.append_assoc]
  refine ⟨(readU32_at h hp).trans (Nat.mod_eq_of_lt hk), slice_at h₁ ?_ rfl,
    (readU32_at h₂ ?_).trans (Nat.mod_eq_of_lt hv), slice_at h₃ ?_ rfl,
    slice_at h₄ ?_ (length_leBytes 8 _), ?_, ?_⟩
  · simp only [List.length_append, length_leBytes, hp]
  · simp only [List.length_append, length_leBytes, hp]
  · simp only [List.length_append, length_leBytes, hp]
  · simp only [List.length_append, length_leBytes, hp]
  · have hlen : (before ++ leBytes 4 e.key.length ++ e.key ++ leBytes 4 e.value.length ++ e.value ++
        leBytes 8 e.timestamp).length = p + 4 + e.key.length + 4 + e.value.length + 8 := by
      simp only [List.length_append, length_leBytes, hp]
    rw [List.getD_eq_getElem?_getD, ← hlen, h₅, List.getElem?_append_right (Nat.le_refl _), Nat.sub_self]
    rfl
  · rw [h₅]
    simp only [List.length_append, length_leBytes, hp, List.length_singleton]
    omega

/-- The entry that the cursor stands at. -/
theorem CursorIn.entryFields (hb : CursorIn sb i b) (h : sb.Steps) (he : sb.entries[i]? = some e) :
    EntryFields b.data b.pos e := by
  obtain ⟨before, after, hsplit, hbefore, -⟩ := payload_split he
  obtain ⟨hk, hv, -⟩ := h e (List.mem_of_getElem? he)
  exact SSTableBytes.entryFields (hb.data.trans hsplit) (hbefore.trans hb.pos.symm) hk (by omega)

theorem cursorIn_ofData (sb : StoredBlock) : CursorIn sb 0 (Block.ofData sb.payload) := ⟨rfl, rfl, rfl⟩

theorem count_ofData (sb : StoredBlock) : (Block.ofData sb.payload).count = sb.entries.length % 2 ^ 32 := by
  have hlen : 4 ≤ sb.payload.length := by
    rw [StoredBlock.payload, List.length_append, length_leBytes]
    omega
  have hsplit : sb.payload = [] ++ (leBytes 4 sb.entries.length ++ sb.entries.flatMap StoredEntry.bytes) := rfl
  rw [Block.ofData]
  simp only []
  rw [if_pos hlen]
  exact readU32_at hsplit rfl

theorem cursorAt_ofData (h : sb.Fits) : CursorAt sb 0 (Block.ofData sb.payload) :=
  ⟨cursorIn_ofData sb, (count_ofData sb).trans (Nat.mod_eq_of_lt h.count)⟩

/-- One round of `Seek`. -/
theorem CursorIn.seekLoop_succ (hb : CursorIn sb j b) (h : sb.Steps) (he : sb.entries[j]? = some e) (k : ℕ) :
    ∃ b', CursorIn sb (j + 1) b' ∧ b.seekLoop (k + 1) = b'.seekLoop k := by
  obtain ⟨-, -, -, -, hnext⟩ := payload_split he
  have hentry := hb.entryFields h he
  have hfit := hentry.fit
  have hword : (e.value.length + 9) % 2 ^ 32 = e.value.length + 9 :=
    Nat.mod_eq_of_lt (h e (List.mem_of_getElem? he)).2.1
  rw [StoredEntry.length_bytes] at hnext
  refine ⟨{ b with
    pos := b.pos + 4 + e.key.length + 4 + (e.value.length + 9)
    idx := b.idx + 1 }, ?_, ?_⟩
  · refine ⟨hb.data, ?_, congrArg (· + 1) hb.idx⟩
    show b.pos + 4 + e.key.length + 4 + (e.value.length + 9) = entryOffset sb (j + 1)
    rw [hnext, hb.pos]
    omega
  · rw [Block.seekLoop, if_pos (by omega)]
    simp only [hentry.keyLength, hentry.valueLength, hword]
    rw [if_neg (by omega)]

theorem CursorIn.seekLoop (hb : CursorIn sb j b) (h : sb.Steps) (k : ℕ) (hk : j + k ≤ sb.entries.length) :
    CursorIn sb (j + k) (b.seekLoop k) := by
  induction k generalizing j b with
  | zero => exact hb
  | succ k ih =>
    have hlt : j < sb.entries.length := by omega
    obtain ⟨b', hb', hloop⟩ := hb.seekLoop_succ h (List.getElem?_eq_getElem hlt) k
    rw [hloop, show j + (k + 1) = j + 1 + k by omega]
    exact ih hb' (by omega)

/-- `Seek` finds an entry before or behind the cursor. -/
theorem CursorIn.seek (hb : CursorIn sb j b) (h : sb.Steps) (hi : i ≤ sb.entries.length) :
    CursorIn sb i (b.seek i) := by
  have hreset : ∃ j', j' ≤ i ∧ CursorIn sb j' (if i < b.idx then { b with pos := 4, idx := 0 } else b) := by
    split
    · exact ⟨0, Nat.zero_le i, hb.data, rfl, rfl⟩
    · next hle =>
      rw [hb.idx] at hle
      exact ⟨j, Nat.le_of_not_lt hle, hb⟩
  obtain ⟨j', hle, hb'⟩ := hreset
  have hloop := hb'.seekLoop h (i - j') (by omega)
  rw [Nat.add_sub_cancel' hle] at hloop
  rw [Block.seek, hb'.idx]
  exact hloop

theorem CursorIn.read (hb : CursorIn sb i b) (h : sb.Steps) (he : sb.entries[i]? = some e) (hi : i < b.count)
    (out : KeyValuePair) : ∃ b', b.read out = (true, e.pair, b') ∧ CursorIn sb (i + 1) b' := by
  obtain ⟨-, -, -, -, hnext⟩ := payload_split he
  obtain ⟨-, -, hts⟩ := h e (List.mem_of_getElem? he)
  have hentry := hb.entryFields h he
  have hfit := hentry.fit
  rw [StoredEntry.length_bytes] at hnext
  refine ⟨{ b with
    pos := b.pos + 4 + e.key.length + 4 + e.value.length + 8 + 1
    idx := b.idx + 1 }, ?_, hb.data, ?_, congrArg (· + 1) hb.idx⟩
  · rw [Block.read, if_neg (by rw [hb.idx]; omega)]
    simp only [hentry.keyLength]
    rw [if_neg (by omega), if_neg (by omega)]
    simp only [hentry.valueLength]
    rw [if_neg (by omega), if_neg (by omega), hentry.key, hentry.value, hentry.timestamp, hentry.flag,
      ofLe_leBytes hts]
    rfl
  · show b.pos + 4 + e.key.length + 4 + e.value.length + 8 + 1 = entryOffset sb (i + 1)
    rw [hnext, hb.pos]
    omega

/-- Entry `i` is read from wherever the cursor stands. -/
theorem CursorIn.readAt (hb : CursorIn sb j b) (h : sb.Steps) (he : sb.entries[i]? = some e) (hi : i < b.count)
    (out : KeyValuePair) : ∃ b', b.readAt i out = (true, e.pair, b') ∧ CursorIn sb (i + 1) b' := by
  have hseek := hb.seek h (Nat.le_of_lt (List.getElem?_eq_some_iff.mp he).1)
  exact hseek.read h he (by rwa [Block.seek_count]) out

theorem CursorAt.readAt (hb : CursorAt sb j b) (h : sb.Fits) (he : sb.entries[i]? = some e) (out : KeyValuePair) :
    ∃ b', b.readAt i out = (true, e.pair, b') ∧ CursorAt sb (i + 1) b' := by
  have hi := (List.getElem?_eq_some_iff.mp he).1
  obtain ⟨b', hread, hb'⟩ := hb.toCursorIn.readAt h.steps he (by rwa [hb.count]) out
  have hcount := Block.readAt_count i b out
  rw [hread] at hcount
  exact ⟨b', hread, hb', hcount.trans hb.count⟩

end Kvdb.SSTableBytes
