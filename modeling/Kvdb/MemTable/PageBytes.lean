import Kvdb.Lib.LittleEndian
import Kvdb.Lib.Region
import Kvdb.MemTable.Tree
import Mathlib.Data.Nat.Bitwise

/-! # The bytes of a leaf page (`bptree.hpp`)

The slot directory grows from the header upwards, and the records from the end of the page downwards. A slot has the
place of its record in 16 bits, as well as the two lengths, and the length of the value shares its word with the
tombstone flag and with the mark of a value that is kept elsewhere. -/
namespace Kvdb.PageBytes
set_option autoImplicit false

open LittleEndian Region
open LeafPage (slotSize)

def largeValFlag : ℕ := 0x7FFF
def tombstoneBit : ℕ := 0x8000
def slotBase : ℕ := 24

/-- `Slot(i)`. -/
def slot (i : ℕ) : ℕ := slotBase + i * slotSize

/-- What a record has behind its key. -/
inductive StoredValue where
  | inline (value : Bytes)
  | blob (handle : ℕ)
  deriving DecidableEq, Repr

namespace StoredValue

def bytes : StoredValue → Bytes
  | .inline value => value
  | .blob handle => leBytes 8 handle

/-- `val_sz`. -/
def size : StoredValue → ℕ
  | .inline value => value.length
  | .blob _ => 8

/-- The length as `SetSlot` gets it. -/
def lengthWord : StoredValue → ℕ
  | .inline value => value.length % 2 ^ 16
  | .blob _ => largeValFlag

end StoredValue

/-- An entry as the readers decode it. -/
structure PageEntry where
  key : Bytes
  value : StoredValue
  timestamp : ℕ
  isTombstone : Bool
  deriving DecidableEq, Repr

namespace PageEntry

/-- `rec_sz`. -/
def recSize (e : PageEntry) : ℕ := e.key.length + e.value.size

/-- The limits that the callers keep to, and the widths of the words. -/
structure Fits (e : PageEntry) : Prop where
  key : e.key.length ≤ Config.maxKeyBytes
  inline : ∀ v, e.value = .inline v → v.length ≤ Config.pageSize / 2
  handle : ∀ h, e.value = .blob h → h < 2 ^ 64
  timestamp : e.timestamp < 2 ^ 64

end PageEntry

/-- A `LeafPage` with its bytes; `raw` begins with the header, whose fields stand beside it. -/
structure LeafBytes where
  count : ℕ
  dataStart : ℕ
  slotEnd : ℕ
  raw : ℕ → UInt8

/-- `SetSlot`. -/
def setSlot (raw : ℕ → UInt8) (i off klen vlen ts : ℕ) (tomb : Bool) : ℕ → UInt8 :=
  let ev := if tomb then vlen ||| tombstoneBit else vlen
  write (write (write (write raw (slot i) (leBytes 2 off)) (slot i + 2) (leBytes 2 klen)) (slot i + 4) (leBytes 2 ev))
    (slot i + 6) (leBytes 8 ts)

namespace LeafBytes

/-- A new page, in a memory with any contents. -/
def empty (raw : ℕ → UInt8) : LeafBytes := ⟨0, Config.pageSize, slotBase, raw⟩

def offset (p : LeafBytes) (i : ℕ) : ℕ := ofLe (read p.raw (slot i) 2)
def keyLen (p : LeafBytes) (i : ℕ) : ℕ := ofLe (read p.raw (slot i + 2) 2)

/-- The word that `ValLen` and `IsTombstone` share. -/
def valWord (p : LeafBytes) (i : ℕ) : ℕ := ofLe (read p.raw (slot i + 4) 2)

def valLen (p : LeafBytes) (i : ℕ) : ℕ := p.valWord i &&& 0x7FFF

def isTombstone (p : LeafBytes) (i : ℕ) : Bool :=
  decide (p.valWord i ≠ largeValFlag) && decide (p.valWord i &&& tombstoneBit ≠ 0)

def timestamp (p : LeafBytes) (i : ℕ) : ℕ := ofLe (read p.raw (slot i + 6) 8)

def free (p : LeafBytes) : ℕ := if p.slotEnd < p.dataStart then p.dataStart - p.slotEnd else 0

/-- The end of `InsertEntry` and of `CopyEntry`, when the record has been written at `recOff`: the slots from `pos` on
make room for another one. -/
def addSlot (p : LeafBytes) (raw : ℕ → UInt8) (pos recOff klen vlen ts : ℕ) (tomb : Bool) : LeafBytes where
  count := p.count + 1
  dataStart := recOff
  slotEnd := p.slotEnd + slotSize
  raw := setSlot (if pos < p.count then move raw (slot (pos + 1)) (slot pos) ((p.count - pos) * slotSize) else raw)
    pos recOff klen vlen ts tomb

/-- `InsertEntry`, with what it returns. -/
def insertEntry (p : LeafBytes) (pos : ℕ) (e : PageEntry) : LeafBytes × Bool :=
  let recSz := e.key.length + e.value.size
  if p.free < recSz + slotSize then (p, false)
  else
    let recOff := (p.dataStart - recSz) % 2 ^ 16
    (p.addSlot (write (write p.raw recOff e.key) (recOff + e.key.length) e.value.bytes) pos recOff
      (e.key.length % 2 ^ 16) e.value.lengthWord e.timestamp e.isTombstone, true)

/-- `CopyEntry`, from another page. -/
def copyEntry (src : LeafBytes) (i : ℕ) (p : LeafBytes) (pos : ℕ) : LeafBytes :=
  let blob := src.valLen i = largeValFlag
  let klen := src.keyLen i
  let vlen := if blob then 8 else src.valLen i
  let recSz := klen + vlen
  if p.free < recSz + slotSize then p
  else
    let recOff := (p.dataStart - recSz) % 2 ^ 16
    let ev := if src.isTombstone i then (if blob then largeValFlag ||| tombstoneBit else vlen ||| tombstoneBit)
      else if blob then largeValFlag else vlen
    p.addSlot (write p.raw recOff (read src.raw (src.offset i) recSz)) pos recOff klen ev (src.timestamp i) false

/-- The entry at a slot, as the readers of the page decode it. -/
def entryAt (p : LeafBytes) (i : ℕ) : PageEntry where
  key := read p.raw (p.offset i) (p.keyLen i)
  value :=
    if p.valLen i = largeValFlag then .blob (ofLe (read p.raw (p.offset i + p.keyLen i) 8))
    else .inline (read p.raw (p.offset i + p.keyLen i) (p.valLen i))
  timestamp := p.timestamp i
  isTombstone := p.isTombstone i

def entries (p : LeafBytes) : List PageEntry := (List.range p.count).map p.entryAt

/-- The size of a record by its slot. -/
def recSize (p : LeafBytes) (i : ℕ) : ℕ := p.keyLen i + if p.valLen i = largeValFlag then 8 else p.valLen i

end LeafBytes

/-! ## The words of a slot -/

/-- The word of the value, with the flag that `SetSlot` sets. -/
def flagWord (vlen : ℕ) (tomb : Bool) : ℕ := if tomb then vlen ||| tombstoneBit else vlen

theorem flagWord_eq {vlen : ℕ} (h : vlen < 2 ^ 15) (tomb : Bool) : flagWord vlen tomb = 2 ^ 15 * tomb.toNat + vlen := by
  cases tomb with
  | false => simp [flagWord]
  | true =>
    rw [flagWord, if_pos rfl, Bool.toNat_true, Nat.two_pow_add_eq_or_of_lt h, Nat.mul_one, Nat.or_comm]
    rfl

/-- The length is in the low bits. -/
theorem flagWord_len {vlen : ℕ} (h : vlen < 2 ^ 15) (tomb : Bool) : flagWord vlen tomb &&& 0x7FFF = vlen := by
  have hmask : flagWord vlen tomb &&& (2 ^ 15 - 1) = flagWord vlen tomb % 2 ^ 15 := Nat.and_two_pow_sub_one_eq_mod ..
  rw [flagWord_eq h, Nat.mul_add_mod, Nat.mod_eq_of_lt h] at hmask
  rw [flagWord_eq h]
  exact hmask

/-- The mark of a blob is not taken for the flag, and does not hide it. -/
theorem flagWord_tombstone {vlen : ℕ} (h : vlen < 2 ^ 15) (tomb : Bool) :
    (decide (flagWord vlen tomb ≠ largeValFlag) && decide (flagWord vlen tomb &&& tombstoneBit ≠ 0)) = tomb := by
  have hbit : flagWord vlen tomb &&& 2 ^ 15 = ((flagWord vlen tomb).testBit 15).toNat * 2 ^ 15 := Nat.and_two_pow ..
  have hword := flagWord_eq h tomb
  have htest : (flagWord vlen tomb).testBit 15 = tomb := by
    rw [hword, Nat.testBit_two_pow_mul_add _ h]
    cases tomb <;> rfl
  have hflag : flagWord vlen tomb &&& tombstoneBit = tomb.toNat * 2 ^ 15 := by
    rw [show tombstoneBit = 2 ^ 15 from rfl, hbit, htest]
  rw [hflag]
  cases tomb with
  | false => simp
  | true =>
    have hother : flagWord vlen true ≠ largeValFlag := by
      rw [hword, Bool.toNat_true]
      unfold largeValFlag
      omega
    simp [hother]

/-- The bytes of a slot. -/
def slotBytes (off klen word ts : ℕ) : Bytes := leBytes 2 off ++ (leBytes 2 klen ++ (leBytes 2 word ++ leBytes 8 ts))

theorem length_slotBytes (off klen word ts : ℕ) : (slotBytes off klen word ts).length = slotSize := by
  simp [slotBytes, slotSize]

theorem setSlot_eq (raw : ℕ → UInt8) (i off klen vlen ts : ℕ) (tomb : Bool) :
    setSlot raw i off klen vlen ts tomb = write raw (slot i) (slotBytes off klen (flagWord vlen tomb) ts) := by
  have hklen := write_append raw (slot i) (leBytes 2 off) (leBytes 2 klen)
  have hword := write_append raw (slot i) (leBytes 2 off ++ leBytes 2 klen) (leBytes 2 (flagWord vlen tomb))
  have hts := write_append raw (slot i) (leBytes 2 off ++ leBytes 2 klen ++ leBytes 2 (flagWord vlen tomb)) (leBytes 8 ts)
  simp only [List.length_append, length_leBytes, Nat.reduceAdd] at hklen hword hts
  unfold setSlot
  simp only []
  rw [hklen]
  show write (write _ _ (leBytes 2 (flagWord vlen tomb))) _ _ = _
  rw [hword, hts, slotBytes]
  simp only [List.append_assoc]

namespace LeafBytes

/-- What the bytes of a slot are read as. -/
theorem fields_of_slot {p : LeafBytes} {i off klen word ts : ℕ}
    (h : read p.raw (slot i) slotSize = slotBytes off klen word ts) (hoff : off < 2 ^ 16) (hklen : klen < 2 ^ 16)
    (hword : word < 2 ^ 16) (hts : ts < 2 ^ 64) :
    p.offset i = off ∧ p.keyLen i = klen ∧ p.valWord i = word ∧ p.timestamp i = ts := by
  have hsplit : read p.raw (slot i) slotSize = read p.raw (slot i) 2 ++ (read p.raw (slot i + 2) 2 ++
      (read p.raw (slot i + 4) 2 ++ read p.raw (slot i + 6) 8)) := by
    rw [show slotSize = 2 + (2 + (2 + 8)) from rfl, read_add, read_add, read_add]
  rw [hsplit, slotBytes] at h
  obtain ⟨h1, h⟩ := List.append_inj h (by simp)
  obtain ⟨h2, h⟩ := List.append_inj h (by simp)
  obtain ⟨h3, h4⟩ := List.append_inj h (by simp)
  rw [offset, keyLen, valWord, timestamp, h1, h2, h3, h4]
  exact ⟨ofLe_leBytes hoff, ofLe_leBytes hklen, ofLe_leBytes hword, ofLe_leBytes hts⟩

/-- The fields of a slot are those of another one with the same bytes. -/
theorem fields_congr {p q : LeafBytes} {i j : ℕ} (h : read q.raw (slot j) slotSize = read p.raw (slot i) slotSize) :
    q.offset j = p.offset i ∧ q.keyLen j = p.keyLen i ∧ q.valWord j = p.valWord i ∧ q.timestamp j = p.timestamp i := by
  have hbyte : ∀ a n, a + n ≤ slotSize → read q.raw (slot j + a) n = read p.raw (slot i + a) n := by
    intro a n hle
    refine read_congr fun k hk => ?_
    rw [Nat.add_assoc, Nat.add_assoc]
    exact eq_of_read h (by omega)
  refine ⟨congrArg ofLe (hbyte 0 2 (by decide)), congrArg ofLe (hbyte 2 2 (by decide)),
    congrArg ofLe (hbyte 4 2 (by decide)), congrArg ofLe (hbyte 6 8 (by decide))⟩

/-- The entries of two slots are the same if the lengths, the flags, the timestamps and the bytes of the records are. -/
theorem entryAt_congr {p q : LeafBytes} {i j : ℕ} (hkey : q.keyLen j = p.keyLen i) (hval : q.valLen j = p.valLen i)
    (htomb : q.isTombstone j = p.isTombstone i) (hts : q.timestamp j = p.timestamp i)
    (hrec : read q.raw (q.offset j) (p.recSize i) = read p.raw (p.offset i) (p.recSize i)) :
    q.entryAt j = p.entryAt i := by
  rw [recSize, read_add, read_add] at hrec
  obtain ⟨hleft, hright⟩ := List.append_inj hrec (by simp)
  rw [entryAt, entryAt, hkey, hval, htomb, hts, hleft]
  by_cases hblob : p.valLen i = largeValFlag
  · rw [if_pos hblob] at hright
    rw [if_pos hblob, if_pos hblob, hright]
  · rw [if_neg hblob] at hright
    rw [if_neg hblob, if_neg hblob, hright]

/-! ## Another slot -/

theorem slot_mono {i j : ℕ} (h : i < j) : slot i + slotSize ≤ slot j := by
  have hmul : i * slotSize + slotSize ≤ j * slotSize := by
    rw [← Nat.succ_mul]
    exact Nat.mul_le_mul_right slotSize h
  unfold slot
  omega

theorem slot_le {i j : ℕ} (h : i ≤ j) : slot i ≤ slot j := Nat.add_le_add_left (Nat.mul_le_mul_right slotSize h) slotBase

section AddSlot

variable {p : LeafBytes} {raw : ℕ → UInt8} {pos recOff klen vlen ts : ℕ} {tomb : Bool}

theorem addSlot_raw (x : ℕ) : (p.addSlot raw pos recOff klen vlen ts tomb).raw x =
    write (if pos < p.count then move raw (slot (pos + 1)) (slot pos) ((p.count - pos) * slotSize) else raw) (slot pos)
      (slotBytes recOff klen (flagWord vlen tomb) ts) x := congrFun (setSlot_eq ..) x

theorem addSlot_here : read (p.addSlot raw pos recOff klen vlen ts tomb).raw (slot pos) slotSize =
    slotBytes recOff klen (flagWord vlen tomb) ts := by
  rw [read_congr fun k _ => addSlot_raw (slot pos + k), ← length_slotBytes recOff klen (flagWord vlen tomb) ts]
  exact read_write ..

/-- Below the new slot the directory is unchanged. -/
theorem addSlot_below {j : ℕ} (hj : j < pos) :
    read (p.addSlot raw pos recOff klen vlen ts tomb).raw (slot j) slotSize = read raw (slot j) slotSize := by
  refine read_congr fun k hk => ?_
  have hslot := slot_mono hj
  have hnext : slot pos ≤ slot (pos + 1) := slot_le (Nat.le_succ pos)
  rw [addSlot_raw, write_before _ _ (by omega)]
  split
  · exact move_outside raw (.inl (by omega))
  · rfl

/-- The slots from its place on have moved up by one. -/
theorem addSlot_above {j : ℕ} (hj : pos ≤ j) (hcount : j < p.count) :
    read (p.addSlot raw pos recOff klen vlen ts tomb).raw (slot (j + 1)) slotSize = read raw (slot j) slotSize := by
  refine read_congr fun k hk => ?_
  have hslot : slot pos + slotSize ≤ slot (j + 1) := slot_mono (Nat.lt_succ_of_le hj)
  obtain ⟨d, rfl⟩ := Nat.exists_eq_add_of_le hj
  have hto : slot (pos + d + 1) = slot (pos + 1) + d * slotSize := by
    unfold slot
    ring
  have hfrom : slot (pos + d) = slot pos + d * slotSize := by
    unfold slot
    ring
  have hroom : (d + 1) * slotSize ≤ (p.count - pos) * slotSize := Nat.mul_le_mul_right slotSize (by omega)
  rw [Nat.succ_mul] at hroom
  rw [addSlot_raw, write_behind _ (by rw [length_slotBytes]; omega), if_pos (by omega), hto, hfrom, Nat.add_assoc,
    Nat.add_assoc]
  exact move_inside raw _ _ (by omega)

/-- Nothing behind the directory is touched. -/
theorem addSlot_behind {o n : ℕ} (hpos : pos ≤ p.count) (ho : slot (p.count + 1) ≤ o) :
    read (p.addSlot raw pos recOff klen vlen ts tomb).raw o n = read raw o n := by
  refine read_congr fun k _ => ?_
  have hslot : slot pos + slotSize ≤ slot (p.count + 1) := slot_mono (Nat.lt_succ_of_le hpos)
  rw [addSlot_raw, write_behind _ (by rw [length_slotBytes]; omega)]
  split
  · have hend : slot (pos + 1) + (p.count - pos) * slotSize = slot (p.count + 1) := by
      obtain ⟨d, hd⟩ := Nat.exists_eq_add_of_le hpos
      rw [hd, Nat.add_sub_cancel_left]
      unfold slot
      ring
    exact move_outside raw (.inr (by omega))
  · rfl

end AddSlot

/-! ## Pages in order -/

/-- The directory ends before the records, and each record lies between them and the end of the page. -/
structure Separate (p : LeafBytes) : Prop where
  slotEnd : p.slotEnd = slot p.count
  below : p.slotEnd ≤ p.dataStart
  top : p.dataStart ≤ Config.pageSize
  records : ∀ i < p.count, p.dataStart ≤ p.offset i ∧ p.offset i + p.recSize i ≤ Config.pageSize

theorem separate_empty (raw : ℕ → UInt8) : (empty raw).Separate :=
  ⟨rfl, (by decide : slotBase ≤ Config.pageSize), Nat.le_refl _, fun _ hi => absurd hi (Nat.not_lt_zero _)⟩

theorem entries_eq_insertIdx {p q : LeafBytes} {pos : ℕ} (hcount : q.count = p.count + 1) (hpos : pos ≤ p.count)
    (hlow : ∀ j < pos, q.entryAt j = p.entryAt j)
    (hhigh : ∀ j < p.count, pos ≤ j → q.entryAt (j + 1) = p.entryAt j) :
    q.entries = p.entries.insertIdx pos (q.entryAt pos) := by
  refine List.ext_getElem? fun j => ?_
  have hlen : p.entries.length = p.count := by rw [entries, List.length_map, List.length_range]
  have hget : ∀ (r : LeafBytes) (i : ℕ), i < r.count → r.entries[i]? = some (r.entryAt i) := by
    intro r i hi
    rw [entries, List.getElem?_map, List.getElem?_range hi, Option.map_some]
  rcases Nat.lt_or_ge j q.count with hj | hj
  · rw [hget q j hj]
    rcases Nat.lt_trichotomy j pos with hlt | rfl | hgt
    · rw [List.getElem?_insertIdx_of_lt hlt, hget p j (by omega), hlow j hlt]
    · rw [List.getElem?_insertIdx_self, if_pos (by omega)]
    · obtain ⟨i, rfl⟩ := Nat.exists_eq_add_one_of_ne_zero (Nat.ne_of_gt (Nat.zero_lt_of_lt hgt))
      rw [List.getElem?_insertIdx_of_gt hgt, Nat.add_sub_cancel, hget p i (by omega), hhigh i (by omega) (by omega)]
  · have hq : q.entries.length = q.count := by rw [entries, List.length_map, List.length_range]
    rw [List.getElem?_eq_none (by omega), List.getElem?_eq_none (by rw [List.length_insertIdx, if_pos (by omega)]; omega)]

/-- An entry whose slot has the same bytes, and whose record has not been touched. -/
theorem entryAt_kept {p q : LeafBytes} {i j : ℕ} (hslot : read q.raw (slot j) slotSize = read p.raw (slot i) slotSize)
    (hrec : ∀ o n, p.dataStart ≤ o → read q.raw o n = read p.raw o n) (hoff : p.dataStart ≤ p.offset i) :
    q.entryAt j = p.entryAt i ∧ q.offset j = p.offset i ∧ q.recSize j = p.recSize i := by
  obtain ⟨hoffset, hkey, hword, hts⟩ := fields_congr hslot
  have hval : q.valLen j = p.valLen i := by rw [valLen, valLen, hword]
  have htomb : q.isTombstone j = p.isTombstone i := by rw [isTombstone, isTombstone, hword]
  refine ⟨entryAt_congr hkey hval htomb hts ?_, hoffset, ?_⟩
  · rw [hoffset]
    exact hrec _ _ hoff
  · rw [recSize, recSize, hkey, hval]

/-- A record below the others, and its slot: the page stays in order, and the entries are those of before with one more. -/
theorem Separate.addSlot {p q : LeafBytes} (h : p.Separate) {pos recOff klen vlen ts : ℕ} {tomb : Bool} {bs : Bytes}
    (hq : q = p.addSlot (write p.raw recOff bs) pos recOff klen vlen ts tomb) (hpos : pos ≤ p.count)
    (hbs : recOff + bs.length = p.dataStart) (hroom : p.slotEnd + slotSize ≤ recOff) (hklen : klen < 2 ^ 16)
    (hword : flagWord vlen tomb < 2 ^ 16) (hts : ts < 2 ^ 64)
    (hsize : q.keyLen pos = klen → q.valWord pos = flagWord vlen tomb → q.recSize pos = bs.length) :
    q.Separate ∧ q.entries = p.entries.insertIdx pos (q.entryAt pos) ∧
      (q.offset pos = recOff ∧ q.keyLen pos = klen ∧ q.valWord pos = flagWord vlen tomb ∧ q.timestamp pos = ts) ∧
      read q.raw recOff bs.length = bs := by
  have htop := h.top
  have hend := h.slotEnd
  have hsmall : recOff < 2 ^ 16 := by
    have hpage : Config.pageSize = 4096 := rfl
    omega
  have hnext : slot (p.count + 1) = p.slotEnd + slotSize := by
    rw [hend]
    unfold slot
    ring
  have hbehind : ∀ o n, recOff ≤ o → read q.raw o n = read (write p.raw recOff bs) o n := by
    intro o n ho
    rw [hq]
    exact addSlot_behind hpos (by omega)
  have hold : ∀ o n, p.dataStart ≤ o → read q.raw o n = read p.raw o n := by
    intro o n ho
    rw [hbehind o n (by omega)]
    exact read_write_of_disjoint _ (.inr (by omega))
  have hdir : ∀ j < p.count, read (write p.raw recOff bs) (slot j) slotSize = read p.raw (slot j) slotSize := by
    intro j hj
    have hslot := slot_mono hj
    exact read_write_of_disjoint _ (.inl (by omega))
  have hlow : ∀ j < pos, q.entryAt j = p.entryAt j ∧ q.offset j = p.offset j ∧ q.recSize j = p.recSize j := by
    intro j hj
    refine entryAt_kept ?_ hold (h.records j (by omega)).1
    rw [hq, addSlot_below hj, hdir j (by omega)]
  have hhigh : ∀ j < p.count, pos ≤ j →
      q.entryAt (j + 1) = p.entryAt j ∧ q.offset (j + 1) = p.offset j ∧ q.recSize (j + 1) = p.recSize j := by
    intro j hj hle
    refine entryAt_kept ?_ hold (h.records j hj).1
    rw [hq, addSlot_above hle hj, hdir j hj]
  have hhere : read q.raw (slot pos) slotSize = slotBytes recOff klen (flagWord vlen tomb) ts := by
    rw [hq]
    exact addSlot_here
  have hfields := fields_of_slot hhere hsmall hklen hword hts
  have hrecord := hsize hfields.2.1 hfields.2.2.1
  have hcount : q.count = p.count + 1 := by rw [hq]; rfl
  have hstart : q.dataStart = recOff := by rw [hq]; rfl
  have hslots : q.slotEnd = p.slotEnd + slotSize := by rw [hq]; rfl
  refine ⟨⟨by rw [hcount, hnext, hslots], by omega, by omega, fun i hi => ?_⟩,
    entries_eq_insertIdx hcount hpos (fun j hj => (hlow j hj).1) (fun j hj hle => (hhigh j hj hle).1), hfields, ?_⟩
  · rw [hstart]
    rcases Nat.lt_trichotomy i pos with hlt | rfl | hgt
    · obtain ⟨-, hoffset, hsz⟩ := hlow i hlt
      have hrec := h.records i (by omega)
      rw [hoffset, hsz]
      omega
    · rw [hfields.1, hrecord]
      omega
    · obtain ⟨j, rfl⟩ := Nat.exists_eq_add_one_of_ne_zero (Nat.ne_of_gt (Nat.zero_lt_of_lt hgt))
      obtain ⟨-, hoffset, hsz⟩ := hhigh j (by omega) (by omega)
      have hrec := h.records j (by omega)
      rw [hoffset, hsz]
      omega
  · rw [hbehind _ _ (Nat.le_refl _)]
    exact read_write ..

/-! ## `InsertEntry` and `CopyEntry` -/

theorem value_of_word {p : LeafBytes} {i vlen : ℕ} {tomb : Bool} (h : p.valWord i = flagWord vlen tomb)
    (hvlen : vlen < 2 ^ 15) : p.valLen i = vlen ∧ p.isTombstone i = tomb := by
  rw [valLen, isTombstone, h]
  exact ⟨flagWord_len hvlen tomb, flagWord_tombstone hvlen tomb⟩

theorem flagWord_lt {vlen : ℕ} (h : vlen < 2 ^ 15) (tomb : Bool) : flagWord vlen tomb < 2 ^ 16 := by
  have hle := Bool.toNat_le tomb
  rw [flagWord_eq h]
  omega

theorem Separate.free_eq {p : LeafBytes} (h : p.Separate) : p.free = p.dataStart - p.slotEnd := by
  have hbelow := h.below
  unfold free
  split <;> omega

theorem Separate.recOff_eq {p : LeafBytes} (h : p.Separate) (n : ℕ) : (p.dataStart - n) % 2 ^ 16 = p.dataStart - n := by
  have htop : p.dataStart ≤ 4096 := h.top
  exact Nat.mod_eq_of_lt (by omega)

/-- The length word of a value within the limits stands for its size, and only a blob has the mark. -/
theorem lengthWord_of_fits {e : PageEntry} (h : e.Fits) : e.value.lengthWord < 2 ^ 15 ∧
    (if e.value.lengthWord = largeValFlag then 8 else e.value.lengthWord) = e.value.size := by
  cases hvalue : e.value with
  | inline v =>
    have hle : v.length ≤ 2048 := h.inline v hvalue
    have hword : (StoredValue.inline v).lengthWord = v.length := Nat.mod_eq_of_lt (by omega)
    have hmark : v.length ≠ largeValFlag := by
      unfold largeValFlag
      omega
    rw [hword, if_neg hmark]
    exact ⟨by omega, rfl⟩
  | blob b => exact ⟨(by decide : largeValFlag < 2 ^ 15), rfl⟩

theorem length_bytes (v : StoredValue) : v.bytes.length = v.size := by
  cases v with
  | inline v => rfl
  | blob b => exact length_leBytes 8 b

/-- A record with the words of its slot is decoded to the entry. -/
theorem entryAt_of_record {q : LeafBytes} {i : ℕ} {e : PageEntry} (he : e.Fits) (hkey : q.keyLen i = e.key.length)
    (hval : q.valLen i = e.value.lengthWord) (htomb : q.isTombstone i = e.isTombstone) (hts : q.timestamp i = e.timestamp)
    (hrec : read q.raw (q.offset i) (e.key.length + e.value.bytes.length) = e.key ++ e.value.bytes) :
    q.entryAt i = e := by
  rw [read_add] at hrec
  obtain ⟨hleft, hright⟩ := List.append_inj hrec (length_read ..)
  obtain ⟨key, value, ts, tomb⟩ := e
  rw [entryAt, hkey, hval, htomb, hts, hleft]
  simp only [] at hright ⊢
  cases value with
  | inline v =>
    have hle : v.length ≤ 2048 := he.inline v rfl
    have hword : (StoredValue.inline v).lengthWord = v.length := Nat.mod_eq_of_lt (by omega)
    have hmark : v.length ≠ largeValFlag := by
      unfold largeValFlag
      omega
    rw [hword, if_neg hmark]
    exact congrArg (fun bs => PageEntry.mk key (.inline bs) ts tomb) hright
  | blob b =>
    have hhandle : ofLe (leBytes 8 b) = b := ofLe_leBytes (he.handle b rfl)
    have hmark : (StoredValue.blob b).lengthWord = largeValFlag := rfl
    have hsame : read q.raw (q.offset i + key.length) 8 = leBytes 8 b := by
      rw [length_bytes] at hright
      exact hright
    rw [hmark, if_pos rfl, hsame, hhandle]

theorem insertEntry_done {p : LeafBytes} (h : p.Separate) {pos : ℕ} {e : PageEntry} (hpos : pos ≤ p.count) (he : e.Fits)
    (hroom : e.recSize + slotSize ≤ p.free) : (p.insertEntry pos e).2 = true ∧ (p.insertEntry pos e).1.Separate ∧
      (p.insertEntry pos e).1.entries = p.entries.insertIdx pos e := by
  have hkeylen : e.key.length ≤ 1024 := he.key
  obtain ⟨hword, hsize⟩ := lengthWord_of_fits he
  have hbytes := length_bytes e.value
  have hrecSize : e.recSize = e.key.length + e.value.size := rfl
  have hbelow := h.below
  rw [h.free_eq] at hroom
  have hins : p.insertEntry pos e = (p.addSlot (write p.raw (p.dataStart - e.recSize) (e.key ++ e.value.bytes)) pos
      (p.dataStart - e.recSize) e.key.length e.value.lengthWord e.timestamp e.isTombstone, true) := by
    rw [insertEntry, h.free_eq, if_neg (by omega), h.recOff_eq, Nat.mod_eq_of_lt (show e.key.length < 2 ^ 16 by omega)]
    simp only [write_append]
    rfl
  rw [hins]
  generalize hq : p.addSlot (write p.raw (p.dataStart - e.recSize) (e.key ++ e.value.bytes)) pos
    (p.dataStart - e.recSize) e.key.length e.value.lengthWord e.timestamp e.isTombstone = q
  obtain ⟨hsep, hentries, ⟨hoff, hkey, hvalWord, hts⟩, hrec⟩ := h.addSlot hq.symm hpos
    (by rw [List.length_append]; omega) (by omega) (by omega) (flagWord_lt hword _) he.timestamp
    (fun hkey hvalWord => by rw [recSize, hkey, (value_of_word hvalWord hword).1, hsize, List.length_append, hbytes])
  obtain ⟨hval, htomb⟩ := value_of_word hvalWord hword
  refine ⟨rfl, hsep, ?_⟩
  rw [hentries, entryAt_of_record he hkey hval htomb hts]
  rw [hoff, ← List.length_append]
  exact hrec

theorem insertEntry_full {p : LeafBytes} {pos : ℕ} {e : PageEntry} (hfull : p.free < e.recSize + slotSize) :
    p.insertEntry pos e = (p, false) := if_pos hfull

theorem copyEntry_done {src p : LeafBytes} (h : p.Separate) {i pos : ℕ} (hpos : pos ≤ p.count)
    (hroom : src.recSize i + slotSize ≤ p.free) : (copyEntry src i p pos).Separate ∧
      (copyEntry src i p pos).entries = p.entries.insertIdx pos (src.entryAt i) := by
  have hkeylen : src.keyLen i < 2 ^ 16 := by
    have hlt := ofLe_lt (read src.raw (slot i + 2) 2)
    rwa [length_read] at hlt
  have hword : src.valLen i < 2 ^ 15 := Nat.and_lt_two_pow _ (by decide)
  have hstamp : src.timestamp i < 2 ^ 64 := by
    have hlt := ofLe_lt (read src.raw (slot i + 6) 8)
    rwa [length_read] at hlt
  have hbelow := h.below
  rw [h.free_eq] at hroom
  have hcopy : copyEntry src i p pos = p.addSlot (write p.raw (p.dataStart - src.recSize i)
      (read src.raw (src.offset i) (src.recSize i))) pos (p.dataStart - src.recSize i) (src.keyLen i)
      (flagWord (src.valLen i) (src.isTombstone i)) (src.timestamp i) false := by
    have hsz : src.keyLen i + (if src.valLen i = largeValFlag then 8 else src.valLen i) = src.recSize i := rfl
    rw [copyEntry, hsz, h.free_eq, if_neg (by omega), h.recOff_eq, flagWord]
    by_cases hblob : src.valLen i = largeValFlag
    · simp only [hblob, if_true]
    · simp only [hblob, if_false]
  rw [hcopy]
  have hplain : flagWord (flagWord (src.valLen i) (src.isTombstone i)) false = flagWord (src.valLen i) (src.isTombstone i) :=
    rfl
  generalize hq : p.addSlot (write p.raw (p.dataStart - src.recSize i)
      (read src.raw (src.offset i) (src.recSize i))) pos (p.dataStart - src.recSize i) (src.keyLen i)
      (flagWord (src.valLen i) (src.isTombstone i)) (src.timestamp i) false = q
  obtain ⟨hsep, hentries, ⟨hoff, hkey, hvalWord, hts⟩, hrec⟩ := h.addSlot hq.symm hpos
    (by rw [length_read]; omega) (by omega) hkeylen (hplain ▸ flagWord_lt hword _) hstamp
    (fun hkey hvalWord => by rw [recSize, hkey, (value_of_word (hvalWord.trans hplain) hword).1, length_read]; rfl)
  obtain ⟨hval, htomb⟩ := value_of_word (hvalWord.trans hplain) hword
  refine ⟨hsep, ?_⟩
  rw [hentries, entryAt_congr hkey hval htomb hts]
  rw [length_read] at hrec
  rw [hoff]
  exact hrec

theorem copyEntry_full {src p : LeafBytes} {i pos : ℕ} (hfull : p.free < src.recSize i + slotSize) :
    copyEntry src i p pos = p := if_pos hfull

/-! ## The pages of the tree -/

/-- The pages that insertions and copies make of an empty one, whatever its memory held. -/
inductive Reached : LeafBytes → Prop
  | empty (raw : ℕ → UInt8) : Reached (empty raw)
  | insert {p : LeafBytes} {pos : ℕ} {e : PageEntry} (hp : Reached p) (hpos : pos ≤ p.count) (he : e.Fits) :
      Reached (p.insertEntry pos e).1
  | copy {src p : LeafBytes} {i pos : ℕ} (hsrc : Reached src) (hp : Reached p) (hi : i < src.count) (hpos : pos ≤ p.count) :
      Reached (copyEntry src i p pos)

theorem Reached.separate {p : LeafBytes} (h : Reached p) : p.Separate := by
  induction h with
  | empty raw => exact separate_empty raw
  | @insert p pos e _ hpos he ih =>
    rcases Nat.lt_or_ge p.free (e.recSize + slotSize) with hfull | hroom
    · rw [insertEntry_full hfull]
      exact ih
    · exact (insertEntry_done ih hpos he hroom).2.1
  | @copy src p i pos _ _ _ hpos _ ih =>
    rcases Nat.lt_or_ge p.free (src.recSize i + slotSize) with hfull | hroom
    · rw [copyEntry_full hfull]
      exact ih
    · exact (copyEntry_done ih hpos hroom).1

/-- The slots and the records of a page do not overlap; an insertion fails exactly if there is no room, and then the page is
as before; else, as a copy from another page does, it inserts the entry among those of the page. -/
theorem page_spec {p : LeafBytes} (h : Reached p) : p.Separate ∧
    (∀ pos ≤ p.count, ∀ e : PageEntry, e.Fits →
      ((p.insertEntry pos e).2 = false ↔ p.free < e.recSize + slotSize) ∧
      ((p.insertEntry pos e).2 = false → (p.insertEntry pos e).1 = p) ∧
      ((p.insertEntry pos e).2 = true → (p.insertEntry pos e).1.entries = p.entries.insertIdx pos e)) ∧
    ∀ src, Reached src → ∀ i < src.count, ∀ pos ≤ p.count,
      (p.free < src.recSize i + slotSize ∧ copyEntry src i p pos = p) ∨
      (src.recSize i + slotSize ≤ p.free ∧ (copyEntry src i p pos).entries = p.entries.insertIdx pos (src.entryAt i)) := by
  have hsep := h.separate
  refine ⟨hsep, fun pos hpos e he => ?_, fun src _ i _ pos hpos => ?_⟩
  · rcases Nat.lt_or_ge p.free (e.recSize + slotSize) with hfull | hroom
    · rw [insertEntry_full hfull]
      exact ⟨⟨fun _ => hfull, fun _ => rfl⟩, fun _ => rfl, nofun⟩
    · obtain ⟨hdone, -, hentries⟩ := insertEntry_done hsep hpos he hroom
      rw [hdone]
      exact ⟨⟨nofun, fun hfull => absurd hroom (Nat.not_le_of_lt hfull)⟩, nofun, fun _ => hentries⟩
  · rcases Nat.lt_or_ge p.free (src.recSize i + slotSize) with hfull | hroom
    · exact .inl ⟨hfull, copyEntry_full hfull⟩
    · exact .inr ⟨hroom, (copyEntry_done hsep hpos hroom).2⟩

/-- A page with one entry. -/
def onePage : LeafBytes := ((empty fun _ => 0).insertEntry 0 ⟨[1], .inline [2], 3, false⟩).1

theorem onePage_takes_blob : onePage.Separate ∧ (onePage.insertEntry 1 ⟨[1], .blob 7, 4, true⟩).1.entries =
    [⟨[1], .inline [2], 3, false⟩, ⟨[1], .blob 7, 4, true⟩] := by
  have hinline : (PageEntry.mk [1] (.inline [2]) 3 false).Fits :=
    ⟨by decide, fun v hv => by cases hv; decide, nofun, by decide⟩
  have hblob : (PageEntry.mk [1] (.blob 7) 4 true).Fits :=
    ⟨by decide, nofun, fun b hb => by cases hb; decide, by decide⟩
  obtain ⟨hsep, hinsert, -⟩ := page_spec (Reached.insert (Reached.empty fun _ => 0) (Nat.zero_le 0) hinline)
  obtain ⟨-, -, hentries⟩ := hinsert 1 (by decide) _ hblob
  exact ⟨hsep, (hentries (by decide)).trans (by decide)⟩

end LeafBytes

/-! ## The slots of the model of the tree -/

namespace PageEntry

variable (blobs : ℕ → Bytes)

/-- The version that an entry has, when `blobs` are the values behind the handles. -/
def version (e : PageEntry) : KeyValuePair where
  key := e.key
  value :=
    match e.value with
    | .inline v => v
    | .blob b => blobs b
  timestamp := e.timestamp
  isTombstone := e.isTombstone

/-- The values in blobs are those that are too large for a page. -/
def Marked (e : PageEntry) : Prop :=
  match e.value with
  | .inline v => LeafPage.largeValue v = false
  | .blob b => LeafPage.largeValue (blobs b) = true

variable {blobs}

theorem Marked.recSize {e : PageEntry} (h : e.Marked blobs) : LeafPage.recSize (e.version blobs) = e.recSize := by
  obtain ⟨key, value, ts, tomb⟩ := e
  cases value with
  | inline v =>
    have hsmall : LeafPage.largeValue v = false := h
    simp only [LeafPage.recSize, version, PageEntry.recSize, StoredValue.size, hsmall, Bool.false_eq_true, if_false]
  | blob b =>
    have hlarge : LeafPage.largeValue (blobs b) = true := h
    simp only [LeafPage.recSize, version, PageEntry.recSize, StoredValue.size, hlarge, if_true]

end PageEntry

namespace LeafBytes

/-- The page by its slots. -/
def page (blobs : ℕ → Bytes) (p : LeafBytes) : LeafPage := ⟨p.entries.map (PageEntry.version blobs)⟩

theorem length_entries (p : LeafBytes) : p.entries.length = p.count := by rw [entries, List.length_map, List.length_range]

theorem recSize_entryAt (p : LeafBytes) (i : ℕ) : (p.entryAt i).recSize = p.recSize i := by
  rw [PageEntry.recSize, entryAt, recSize, length_read]
  by_cases hblob : p.valLen i = largeValFlag
  · rw [if_pos hblob, if_pos hblob, StoredValue.size]
  · rw [if_neg hblob, if_neg hblob, StoredValue.size, length_read]

/-- The records fill the page from `data_start` on. -/
structure Filled (p : LeafBytes) : Prop extends p.Separate where
  sum : p.dataStart + (p.entries.map PageEntry.recSize).sum = Config.pageSize

theorem filled_empty (raw : ℕ → UInt8) : (empty raw).Filled := ⟨separate_empty raw, rfl⟩

/-- One record more below the others. -/
theorem Filled.sum_insertIdx {p : LeafBytes} (h : p.Filled) {pos n : ℕ} {e : PageEntry} (hpos : pos ≤ p.count)
    (hsize : e.recSize = n) (hle : n ≤ p.dataStart) :
    p.dataStart - n + ((p.entries.insertIdx pos e).map PageEntry.recSize).sum = Config.pageSize := by
  have hsum := h.sum
  have hpos' : pos ≤ p.entries.length := by rwa [length_entries]
  have hperm := (List.perm_insertIdx e p.entries hpos').map PageEntry.recSize
  rw [hperm.sum_eq, List.map_cons, List.sum_cons]
  omega

theorem Filled.insertEntry {p : LeafBytes} (h : p.Filled) {pos : ℕ} {e : PageEntry} (hpos : pos ≤ p.count) (he : e.Fits) :
    (p.insertEntry pos e).1.Filled := by
  rcases Nat.lt_or_ge p.free (e.recSize + slotSize) with hfull | hroom
  · rw [insertEntry_full hfull]
    exact h
  · obtain ⟨-, hsep, hentries⟩ := insertEntry_done h.toSeparate hpos he hroom
    have hstart : (p.insertEntry pos e).1.dataStart = p.dataStart - e.recSize := by
      rw [LeafBytes.insertEntry,
        if_neg (show ¬ p.free < e.key.length + e.value.size + slotSize from Nat.not_lt_of_le hroom), h.recOff_eq]
      rfl
    rw [h.free_eq] at hroom
    refine ⟨hsep, ?_⟩
    rw [hstart, hentries]
    exact h.sum_insertIdx hpos rfl (by omega)

theorem Filled.copyEntry {src p : LeafBytes} (h : p.Filled) {i pos : ℕ} (hpos : pos ≤ p.count) :
    (copyEntry src i p pos).Filled := by
  rcases Nat.lt_or_ge p.free (src.recSize i + slotSize) with hfull | hroom
  · rw [copyEntry_full hfull]
    exact h
  · obtain ⟨hsep, hentries⟩ := copyEntry_done h.toSeparate hpos hroom
    have hstart : (LeafBytes.copyEntry src i p pos).dataStart = p.dataStart - src.recSize i := by
      rw [LeafBytes.copyEntry, if_neg (show ¬ p.free < src.keyLen i + (if src.valLen i = largeValFlag then 8 else src.valLen i) +
        slotSize from Nat.not_lt_of_le hroom), h.recOff_eq]
      rfl
    rw [h.free_eq] at hroom
    refine ⟨hsep, ?_⟩
    rw [hstart, hentries]
    exact h.sum_insertIdx hpos (recSize_entryAt src i) (by omega)

theorem Reached.filled {p : LeafBytes} (h : Reached p) : p.Filled := by
  induction h with
  | empty raw => exact filled_empty raw
  | insert _ hpos he ih => exact ih.insertEntry hpos he
  | copy _ _ _ hpos _ ih => exact ih.copyEntry hpos

/-- What an entry takes of a page. -/
def cost (e : PageEntry) : ℕ := e.recSize + slotSize

theorem sum_cost (es : List PageEntry) : (es.map cost).sum = (es.map PageEntry.recSize).sum + es.length * slotSize := by
  induction es with
  | nil => rfl
  | cons e es ih =>
    rw [List.map_cons, List.sum_cons, ih, List.map_cons, List.sum_cons, List.length_cons, Nat.succ_mul, cost]
    omega

/-- What is free is what the entries leave of the 4072 bytes behind the header. -/
theorem Filled.free_add {p : LeafBytes} (h : p.Filled) : p.free + (p.entries.map cost).sum = 4072 := by
  have hsum := h.sum
  have hbelow := h.below
  have hslots : p.slotEnd = 24 + p.count * slotSize := h.slotEnd
  have hpage : Config.pageSize = 4096 := rfl
  rw [sum_cost, length_entries, h.free_eq]
  omega

theorem Filled.free_page {blobs : ℕ → Bytes} {p : LeafBytes} (h : p.Filled) (hmarked : ∀ e ∈ p.entries, e.Marked blobs) :
    (p.page blobs).free = p.free := by
  have hsizes : (p.entries.map (PageEntry.version blobs)).map (fun e => LeafPage.recSize e + slotSize) =
      p.entries.map cost := by
    rw [List.map_map]
    exact List.map_congr_left fun e he => congrArg (· + slotSize) (hmarked e he).recSize
  have hfree := h.free_add
  rw [LeafPage.free, page, hsizes]
  omega

/-- The bytes of the page are inserted into as the slots of the model are. -/
theorem Filled.insertEntry_refines {blobs : ℕ → Bytes} {p : LeafBytes} (h : p.Filled)
    (hmarked : ∀ x ∈ p.entries, x.Marked blobs) {pos : ℕ} (hpos : pos ≤ p.count) {e : PageEntry} (he : e.Fits)
    (hentry : e.Marked blobs) :
    (p.page blobs).insertEntry pos (e.version blobs) =
      if (p.insertEntry pos e).2 then some ((p.insertEntry pos e).1.page blobs) else none := by
  rw [LeafPage.insertEntry, h.free_page hmarked, hentry.recSize]
  rcases Nat.lt_or_ge p.free (e.recSize + slotSize) with hfull | hroom
  · rw [if_pos hfull, insertEntry_full hfull]
    rfl
  · obtain ⟨hdone, -, hentries⟩ := insertEntry_done h.toSeparate hpos he hroom
    have hslots : (p.insertEntry pos e).1.page blobs = ⟨(p.page blobs).slots.insertIdx pos (e.version blobs)⟩ := by
      rw [page, hentries, List.map_insertIdx]
      rfl
    rw [if_neg (Nat.not_lt_of_le hroom), hdone, if_pos rfl, hslots]

end LeafBytes

end Kvdb.PageBytes
