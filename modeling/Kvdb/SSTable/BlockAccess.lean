import Kvdb.SSTable.BlockCursor

/-! # The bytes that a `Block` accesses (`block.hpp`)

`Block` reads a string through a pointer. Here every byte is asked for by its place and the calls are undefined when one
of them is outside the string. -/
namespace Kvdb.SSTableBytes
set_option autoImplicit false

open LittleEndian

namespace Block

/-! ## Reading through the pointer -/

/-- `n` bytes from `pos` on. -/
def access (data : Bytes) (pos : ℕ) : ℕ → Option Bytes
  | 0 => some []
  | n + 1 => do
    let b ← data[pos]?
    let bs ← access data (pos + 1) n
    return b :: bs

/-- `ReadU32LE(data_ + pos)`. -/
def accessU32 (data : Bytes) (pos : ℕ) : Option ℕ := (access data pos 4).map ofLe

/-- `Block(data, size)`. -/
def accessOfData (data : Bytes) : Option Block :=
  if 4 ≤ data.length then do
    let count ← accessU32 data 0
    return ⟨data, 4, count, 0⟩
  else some ⟨data, 4, 0, 0⟩

/-- The loop of `Seek`. -/
def accessSeekLoop : ℕ → Block → Option Block
  | 0, b => some b
  | k + 1, b =>
    if b.pos + 4 ≤ b.data.length then do
      let kl ← accessU32 b.data b.pos
      let p := b.pos + 4 + kl
      if b.data.length < p + 4 then return { b with pos := p }
      else do
        let vl ← accessU32 b.data p
        accessSeekLoop k { b with
          pos := p + 4 + (vl + 9) % 2 ^ 32
          idx := b.idx + 1 }
    else some b

/-- `Seek`. -/
def accessSeek (idx : ℕ) (b : Block) : Option Block :=
  let b := if idx < b.idx then { b with pos := 4, idx := 0 } else b
  accessSeekLoop (idx - b.idx) b

/-- `Read`. -/
def accessRead (b : Block) (out : KeyValuePair) : Option (Bool × KeyValuePair × Block) :=
  if b.count ≤ b.idx ∨ b.data.length < b.pos + 4 then some (false, out, b)
  else do
    let kl ← accessU32 b.data b.pos
    let p := b.pos + 4
    if b.data.length < p + kl then return (false, out, { b with pos := p })
    else do
      let key ← access b.data p kl
      let out := { out with key := key }
      let p := p + kl
      if b.data.length < p + 4 then return (false, out, { b with pos := p })
      else do
        let vl ← accessU32 b.data p
        let p := p + 4
        if b.data.length < p + vl then return (false, out, { b with pos := p })
        else do
          let value ← access b.data p vl
          let out := { out with value := value }
          let p := p + vl
          if b.data.length < p + 8 + 1 then return (false, out, { b with pos := p })
          else do
            let timestamp ← access b.data p 8
            let flag ← b.data[p + 8]?
            return (true, { out with timestamp := ofLe timestamp, isTombstone := decide (flag.toNat % 2 = 1) },
              { b with pos := p + 8 + 1, idx := b.idx + 1 })

/-! ## No access is outside -/

theorem access_eq {data : Bytes} {pos n : ℕ} (h : pos + n ≤ data.length) :
    access data pos n = some (slice data pos n) := by
  induction n generalizing pos with
  | zero => rw [access, slice, List.take_zero]
  | succ n ih =>
    have hlt : pos < data.length := by omega
    rw [access, List.getElem?_eq_getElem hlt, ih (by omega), slice, slice, List.drop_eq_getElem_cons hlt,
      List.take_succ_cons]
    rfl

theorem accessU32_eq {data : Bytes} {pos : ℕ} (h : pos + 4 ≤ data.length) :
    accessU32 data pos = some (readU32 data pos) := by
  rw [accessU32, access_eq h, Option.map_some, readU32]

theorem accessOfData_eq (data : Bytes) : accessOfData data = some (ofData data) := by
  rw [accessOfData, ofData]
  split
  · next h =>
    rw [accessU32_eq (by omega)]
    rfl
  · rfl

theorem accessSeekLoop_eq (k : ℕ) (b : Block) : accessSeekLoop k b = some (seekLoop k b) := by
  induction k generalizing b with
  | zero => rfl
  | succ k ih =>
    rw [accessSeekLoop, seekLoop]
    split
    · next h =>
      rw [accessU32_eq h]
      simp only [Option.bind_eq_bind, Option.bind_some]
      split
      · rfl
      · next hword =>
        rw [accessU32_eq (by omega), Option.bind_some, ih]
    · rfl

theorem accessSeek_eq (idx : ℕ) (b : Block) : accessSeek idx b = some (b.seek idx) := accessSeekLoop_eq _ _

theorem accessRead_eq (b : Block) (out : KeyValuePair) : accessRead b out = some (b.read out) := by
  rw [accessRead, read]
  split
  · rfl
  · next hfirst =>
    rw [accessU32_eq (by omega)]
    simp only [Option.bind_eq_bind, Option.bind_some]
    split
    · rfl
    · next hkey =>
      rw [access_eq (by omega), Option.bind_some]
      split
      · rfl
      · next hword =>
        rw [accessU32_eq (by omega), Option.bind_some]
        split
        · rfl
        · next hvalue =>
          rw [access_eq (by omega), Option.bind_some]
          split
          · rfl
          · next htime =>
            have hlt : b.pos + 4 + readU32 b.data b.pos + 4 + readU32 b.data (b.pos + 4 + readU32 b.data b.pos) + 8 <
                b.data.length := by omega
            rw [access_eq (by omega), List.getD_eq_getElem?_getD, List.getElem?_eq_getElem hlt]
            rfl

/-! ## Calls in any order -/

inductive Call where
  | seek (idx : ℕ)
  | read (out : KeyValuePair)

def Call.access : Call → Block → Option Block
  | .seek idx, b => accessSeek idx b
  | .read out, b => (accessRead b out).map fun r => r.2.2

/-- The calls `cs`, one after another. -/
def accessCalls : List Call → Block → Option Block
  | [], b => some b
  | c :: cs, b => do
    let b ← c.access b
    accessCalls cs b

/-- `Seek(i)` followed by `Read`. -/
def accessReadAt (i : ℕ) (b : Block) (out : KeyValuePair) : Option (Bool × KeyValuePair × Block) := do
  let b ← accessSeek i b
  accessRead b out

theorem accessReadAt_eq (i : ℕ) (b : Block) (out : KeyValuePair) : accessReadAt i b out = some (b.readAt i out) := by
  rw [accessReadAt, accessSeek_eq]
  exact accessRead_eq _ out

/-- What holds of a block and is kept by `Seek` and `Read` holds after any calls, none of which is outside. -/
theorem accessCalls_keep {P : Block → Prop} (hseek : ∀ idx b, P b → P (b.seek idx))
    (hread : ∀ out b, P b → P (b.read out).2.2) (cs : List Call) {b : Block} (hb : P b) :
    ∃ b', accessCalls cs b = some b' ∧ P b' := by
  induction cs generalizing b with
  | nil => exact ⟨b, rfl, hb⟩
  | cons c cs ih =>
    have hcall : ∃ b', c.access b = some b' ∧ P b' := by
      cases c with
      | seek idx => exact ⟨b.seek idx, accessSeek_eq idx b, hseek idx b hb⟩
      | read out => exact ⟨(b.read out).2.2, by rw [Call.access, accessRead_eq, Option.map_some], hread out b hb⟩
    obtain ⟨b', hstep, hb'⟩ := hcall
    obtain ⟨b'', hrest, hb''⟩ := ih hb'
    refine ⟨b'', ?_, hb''⟩
    rw [accessCalls, hstep]
    exact hrest

/-! ## The position -/

theorem readU32_lt (data : Bytes) (pos : ℕ) : readU32 data pos < 2 ^ 32 :=
  (ofLe_lt _).trans_le (Nat.pow_le_pow_right (by decide) (List.length_take_le 4 _))

/-- The position is less than a word behind the end, so that `size_t` holds it. -/
structure Near (bytes : Bytes) (b : Block) : Prop where
  data : b.data = bytes
  pos : b.pos < bytes.length + 4 + 2 ^ 32

variable {bytes : Bytes} {b : Block}

theorem Near.seekLoop (hb : Near bytes b) (k : ℕ) : Near bytes (b.seekLoop k) := by
  induction k generalizing b with
  | zero => exact hb
  | succ k ih =>
    have hlen := congrArg List.length hb.data
    have hkl := readU32_lt b.data b.pos
    have hvl := Nat.mod_lt (readU32 b.data (b.pos + 4 + readU32 b.data b.pos) + 9) (show 2 ^ 32 > 0 by decide)
    rw [Block.seekLoop]
    split
    · simp only []
      split
      · exact ⟨hb.data, by simp only []; omega⟩
      · exact ih ⟨hb.data, by simp only []; omega⟩
    · exact hb

theorem Near.seek (hb : Near bytes b) (idx : ℕ) : Near bytes (b.seek idx) := by
  rw [Block.seek]
  refine Near.seekLoop ?_ _
  split
  · exact ⟨hb.data, by simp only []; omega⟩
  · exact hb

theorem Near.read (hb : Near bytes b) (out : KeyValuePair) : Near bytes (b.read out).2.2 := by
  have hlen := congrArg List.length hb.data
  have hpos := hb.pos
  rw [Block.read]
  split
  · exact hb
  · simp only []
    split
    · exact ⟨hb.data, by simp only []; omega⟩
    · split
      · exact ⟨hb.data, by simp only []; omega⟩
      · split
        · exact ⟨hb.data, by simp only []; omega⟩
        · split
          · exact ⟨hb.data, by simp only []; omega⟩
          · exact ⟨hb.data, by simp only []; omega⟩

/-! ## Blocks as `FreezeBlock` writes them -/

/-- The cursor stands at one of the entries or behind the last one. -/
structure Aligned (sb : StoredBlock) (b : Block) : Prop where
  count : b.count = sb.entries.length % 2 ^ 32
  cursor : ∃ j ≤ sb.entries.length, CursorIn sb j b

variable {sb : StoredBlock} {j : ℕ}

/-- `Seek` goes as far as it can. -/
theorem seekLoop_within (h : sb.Steps) (hj : j ≤ sb.entries.length) (hb : CursorIn sb j b) (k : ℕ) :
    ∃ j' ≤ sb.entries.length, CursorIn sb j' (b.seekLoop k) := by
  induction k generalizing j b with
  | zero => exact ⟨j, hj, hb⟩
  | succ k ih =>
    rcases Nat.eq_or_lt_of_le hj with hend | hlt
    · have hlen : b.data.length < b.pos + 4 := by
        rw [hb.data, hb.pos, hend, entryOffset, List.take_length, StoredBlock.payload, List.length_append, length_leBytes]
        omega
      refine ⟨j, hj, ?_⟩
      rwa [Block.seekLoop, if_neg (by omega)]
    · obtain ⟨b', hb', hloop⟩ := hb.seekLoop_succ h (List.getElem?_eq_getElem hlt) k
      rw [hloop]
      exact ih hlt hb'

theorem Aligned.seek (h : sb.Steps) (hb : Aligned sb b) (idx : ℕ) : Aligned sb (b.seek idx) := by
  obtain ⟨j, hj, hcursor⟩ := hb.cursor
  have hreset : ∃ j' ≤ sb.entries.length, CursorIn sb j' (if idx < b.idx then { b with pos := 4, idx := 0 } else b) := by
    split
    · exact ⟨0, Nat.zero_le _, hcursor.data, rfl, rfl⟩
    · exact ⟨j, hj, hcursor⟩
  obtain ⟨j', hj', hcursor'⟩ := hreset
  exact ⟨(seek_count idx b).trans hb.count, seekLoop_within h hj' hcursor' _⟩

theorem Aligned.read (h : sb.Steps) (hb : Aligned sb b) (out : KeyValuePair) : Aligned sb (b.read out).2.2 := by
  obtain ⟨j, hj, hcursor⟩ := hb.cursor
  refine ⟨(read_count b out).trans hb.count, ?_⟩
  rcases Nat.lt_or_ge j b.count with hlt | hge
  · have hj' : j < sb.entries.length := hlt.trans_le (hb.count ▸ Nat.mod_le _ _)
    obtain ⟨b', hread, hb'⟩ := hcursor.read h (List.getElem?_eq_getElem hj') hlt out
    rw [hread]
    exact ⟨j + 1, hj', hb'⟩
  · rw [Block.read, if_pos (.inl (by rwa [hcursor.idx]))]
    exact ⟨j, hj, hcursor⟩

theorem aligned_ofData (sb : StoredBlock) : Aligned sb (Block.ofData sb.payload) :=
  ⟨count_ofData sb, 0, Nat.zero_le _, cursorIn_ofData sb⟩

/-- `Block` never leaves its string, and in a block of `FreezeBlock` every entry is found after any calls. -/
theorem block_calls :
    (∀ (bytes : Bytes) (cs : List Call),
      ∃ b, (accessOfData bytes).bind (accessCalls cs) = some b ∧ b.pos < bytes.length + 4 + 2 ^ 32) ∧
    ∀ entries : List KeyValuePair,
      (∀ e ∈ entries, e.key.length < 2 ^ 32 ∧ e.value.length ≤ Config.maxKeyValuePairBytes ∧ e.timestamp < 2 ^ 64) →
      ∀ (cs : List Call) (i : ℕ) (out : KeyValuePair), i < (Block.ofData (blockPayload entries)).count →
        ∃ e b b', entries[i]? = some e ∧ (accessOfData (blockPayload entries)).bind (accessCalls cs) = some b ∧
          accessReadAt i b out = some (true, e, b') := by
  refine ⟨fun bytes cs => ?_, fun entries hentries cs i out hi => ?_⟩
  · rw [accessOfData_eq, Option.bind_some]
    have hnear : Near bytes (Block.ofData bytes) := ⟨rfl, by simp only [Block.ofData]; omega⟩
    obtain ⟨b, hcalls, hb⟩ := accessCalls_keep (P := Near bytes) (fun idx _ hb => hb.seek idx)
      (fun out _ hb => hb.read out) cs hnear
    exact ⟨b, hcalls, hb.pos⟩
  · have hsteps : (StoredBlock.ofPairs entries).Steps := by
      intro e he
      obtain ⟨x, hx, rfl⟩ := List.mem_map.mp he
      obtain ⟨hk, hv, hts⟩ := hentries x hx
      exact ⟨hk, (Nat.add_le_add_right hv 9).trans_lt (by decide), hts⟩
    have haligned := aligned_ofData (StoredBlock.ofPairs entries)
    have hcount := haligned.count
    rw [StoredBlock.ofPairs_payload] at haligned hcount
    have hlen : i < entries.length := by
      have hle : i < (StoredBlock.ofPairs entries).entries.length := hi.trans_le (hcount ▸ Nat.mod_le _ _)
      rwa [StoredBlock.ofPairs, List.length_map] at hle
    obtain ⟨b, hcalls, hb⟩ := accessCalls_keep (P := Aligned (StoredBlock.ofPairs entries))
      (fun idx _ hb => hb.seek hsteps idx) (fun out _ hb => hb.read hsteps out) cs haligned
    obtain ⟨j, -, hcursor⟩ := hb.cursor
    have he : (StoredBlock.ofPairs entries).entries[i]? = some (StoredEntry.ofPair entries[i]) := by
      rw [StoredBlock.ofPairs, List.getElem?_map, List.getElem?_eq_getElem hlen]
      rfl
    obtain ⟨b', hread, -⟩ := hcursor.readAt hsteps he (by rwa [hb.count, ← hcount]) out
    refine ⟨entries[i], b, b', List.getElem?_eq_getElem hlen, ?_, ?_⟩
    · rw [accessOfData_eq]
      exact hcalls
    · rw [accessReadAt_eq, hread, StoredEntry.ofPair_pair]

/-- The second of two entries after a walk behind the end and a read that fails. -/
theorem block_calls_twoEntries : ∃ e b b',
    [(⟨[1], [2, 3], 4, false⟩ : KeyValuePair), ⟨[5], [], 6, true⟩][1]? = some e ∧
      (accessOfData (blockPayload [⟨[1], [2, 3], 4, false⟩, ⟨[5], [], 6, true⟩])).bind
        (accessCalls [.seek 9, .read ⟨[], [], 0, false⟩]) = some b ∧
      accessReadAt 1 b ⟨[], [], 0, false⟩ = some (true, e, b') :=
  block_calls.2 [⟨[1], [2, 3], 4, false⟩, ⟨[5], [], 6, true⟩] (by decide) [.seek 9, .read ⟨[], [], 0, false⟩] 1
    ⟨[], [], 0, false⟩ (by decide)

end Block

end Kvdb.SSTableBytes
