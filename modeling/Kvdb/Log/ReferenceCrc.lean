import Kvdb.Log.BurstErrors

/-! # The checksum against its polynomial (`crc32.hpp`)

`crc32.hpp` has a table for the polynomial 0xEDB88320. One entry of it is wrong in two bits, so that the checksum is the
one that the polynomial gives, taken bit by bit, and what becomes of these two bits from each place where that entry is
looked up. -/
namespace Kvdb.Crc32
set_option autoImplicit false

open ShiftRegister

/-! ## Bit by bit -/

/-- A byte goes into the register, and its eight bits leave it. -/
def shiftByte (r : BitVec 32) (b : UInt8) : BitVec 32 := (shift polynomial)^[8] (r ^^^ BitVec.ofNat 32 b.toNat)

def shiftBytes (r : BitVec 32) (data : Bytes) : BitVec 32 := data.foldl shiftByte r

/-- The checksum of the polynomial. -/
def standard (data : Bytes) : BitVec 32 := shiftBytes (BitVec.allOnes 32) data ^^^ BitVec.allOnes 32

/-! ## The wrong entry -/

/-- The bits in which the entry of an index is wrong. -/
def wrongBits (i : ℕ) : BitVec 32 := if i = 187 then 0x6000 else 0

/-- What the wrong bits of the entries that are looked up have become at the end. -/
def deviation : UInt32 → Bytes → BitVec 32
  | _, [] => 0
  | value, b :: bs =>
    (shift polynomial)^[8 * bs.length] (wrongBits (indexOf value b)) ^^^ deviation (updateByte value b) bs

/-- How often the wrong entry is looked up. -/
def hits : UInt32 → Bytes → ℕ
  | _, [] => 0
  | value, b :: bs => (if indexOf value b = 187 then 1 else 0) + hits (updateByte value b) bs

theorem shiftBytes_xor (r s : BitVec 32) (data : Bytes) :
    shiftBytes (r ^^^ s) data = shiftBytes r data ^^^ (shift polynomial)^[8 * data.length] s := by
  induction data generalizing r s with
  | nil => rfl
  | cons b bs ih =>
    have hbyte : shiftByte (r ^^^ s) b = shiftByte r b ^^^ (shift polynomial)^[8] s := by
      have hswap : r ^^^ s ^^^ BitVec.ofNat 32 b.toNat = r ^^^ BitVec.ofNat 32 b.toNat ^^^ s := by
        rw [BitVec.xor_assoc, BitVec.xor_comm s, BitVec.xor_assoc]
      rw [shiftByte, shiftByte, hswap, iterate_shift_xor]
    have hcount : 8 * (b :: bs).length = 8 * bs.length + 8 := by
      rw [List.length_cons]
      omega
    rw [shiftBytes, List.foldl_cons, hbyte, hcount, Function.iterate_add_apply]
    exact ih ..

theorem wrongBits_toNat (i : ℕ) : (wrongBits i).toNat = if i = 187 then 0x6000 else 0 := by
  rw [wrongBits]
  split <;> rfl

/-- The byte that leaves the register is the index, and its remainder comes back. -/
theorem shiftByte_eq (value : UInt32) (b : UInt8) :
    shiftByte value.toBitVec b = (value.toBitVec ^^^ BitVec.ofNat 32 b.toNat) >>> 8 ^^^ remainder (indexOf value b) := by
  refine iterate_shift_split polynomial (fun i hi => ?_) fun i hi => ?_
  · rw [BitVec.getLsbD_ofNat, BitVec.getLsbD_xor, BitVec.getLsbD_ofNat, indexOf, show 256 = 2 ^ 8 from rfl,
      Nat.testBit_mod_two_pow, Nat.testBit_xor, decide_eq_true (show i < 32 by omega), decide_eq_true hi]
    simp only [Bool.true_and]
    rfl
  · rw [BitVec.getLsbD_ofNat, Nat.testBit_lt_two_pow (lt_two_pow (indexOf_lt value b) hi), Bool.and_false]

/-- One byte of `Update` is the eight shifts but for the wrong bits. -/
theorem updateByte_toBitVec (value : UInt32) (b : UInt8) :
    (updateByte value b).toBitVec = shiftByte value.toBitVec b ^^^ wrongBits (indexOf value b) := by
  have hb : (BitVec.ofNat 32 b.toNat).toNat = b.toNat := by
    rw [BitVec.toNat_ofNat]
    exact Nat.mod_eq_of_lt (Nat.lt_trans (UInt8.toNat_lt b) (by decide))
  have hhigh : (value.toNat ^^^ b.toNat) >>> 8 = value.toNat / 256 := by
    rw [Nat.shiftRight_xor_distrib, Nat.shiftRight_eq_div_pow, Nat.shiftRight_eq_div_pow,
      Nat.div_eq_of_lt (UInt8.toNat_lt b), Nat.xor_zero]
  refine BitVec.eq_of_toNat_eq ?_
  rw [shiftByte_eq, BitVec.toNat_xor, BitVec.toNat_xor, BitVec.toNat_ushiftRight, BitVec.toNat_xor, hb, wrongBits_toNat,
    Nat.xor_assoc, ← entryAt_eq (indexOf_lt value b)]
  show (updateByte value b).toNat = (value.toNat ^^^ b.toNat) >>> 8 ^^^ _
  rw [hhigh, updateByte_toNat]

/-- `Update` is the register's run and the deviation. -/
theorem update_toBitVec (value : UInt32) (data : Bytes) :
    (update value data).toBitVec = shiftBytes value.toBitVec data ^^^ deviation value data := by
  induction data generalizing value with
  | nil => exact (BitVec.xor_zero).symm
  | cons b bs ih =>
    rw [update, List.foldl_cons, ← update, ih, updateByte_toBitVec, shiftBytes_xor, deviation, BitVec.xor_assoc]
    rfl

theorem wrongBits_of_ne {i : ℕ} (h : i ≠ 187) : wrongBits i = 0#32 := if_neg h

theorem deviation_of_no_hit {value : UInt32} {data : Bytes} (h : hits value data = 0) : deviation value data = 0#32 := by
  induction data generalizing value with
  | nil => rfl
  | cons b bs ih =>
    rw [hits, Nat.add_eq_zero_iff] at h
    have hne : indexOf value b ≠ 187 := fun heq => by simp [heq] at h
    rw [deviation, ih h.2, wrongBits_of_ne hne, BitVec.xor_zero, iterate_shift_zero]

/-- The two bits of a single one never cancel. -/
theorem deviation_of_one_hit {value : UInt32} {data : Bytes} (h : hits value data = 1) : deviation value data ≠ 0#32 := by
  have hpoly : polynomial.getLsbD (32 - 1) = true := by decide
  induction data generalizing value with
  | nil => cases h
  | cons b bs ih =>
    rw [hits] at h
    rw [deviation]
    by_cases heq : indexOf value b = 187
    · rw [if_pos heq] at h
      rw [deviation_of_no_hit (by omega), BitVec.xor_zero, heq]
      intro hzero
      have hbits := eq_zero_of_iterate hpoly hzero
      exact absurd hbits (by decide)
    · rw [if_neg heq, Nat.zero_add] at h
      rw [wrongBits_of_ne heq, iterate_shift_zero, BitVec.zero_xor]
      exact ih h

theorem crc32_toBitVec (data : Bytes) : BitVec.ofNat 32 (crc32 data) = standard data ^^^ deviation 0xFFFFFFFF data := by
  have hofNat : BitVec.ofNat 32 (crc32 data) = (finalize (update 0xFFFFFFFF data)).toBitVec := BitVec.ofNat_toNat ..
  rw [hofNat, finalize, UInt32.toBitVec_xor, update_toBitVec, standard, BitVec.xor_assoc, BitVec.xor_assoc,
    BitVec.xor_comm (deviation ..)]
  rfl

/-- The checksum is that of the polynomial exactly when the wrong bits cancel. They do if the wrong entry is never looked
up, and do not if it is looked up once. -/
theorem crc32_eq_standard (data : Bytes) :
    (crc32 data = (standard data).toNat ↔ deviation 0xFFFFFFFF data = 0#32) ∧
      (hits 0xFFFFFFFF data = 0 → crc32 data = (standard data).toNat) ∧
      (hits 0xFFFFFFFF data = 1 → crc32 data ≠ (standard data).toNat) := by
  have hmain := crc32_toBitVec data
  have hiff : crc32 data = (standard data).toNat ↔ deviation 0xFFFFFFFF data = 0#32 := by
    constructor
    · intro h
      rw [h, BitVec.ofNat_toNat, BitVec.setWidth_eq] at hmain
      have hcancel := congrArg (standard data ^^^ ·) hmain
      simp only [← BitVec.xor_assoc, BitVec.xor_self, BitVec.zero_xor] at hcancel
      exact hcancel.symm
    · intro h
      rw [h, BitVec.xor_zero] at hmain
      rw [← hmain, BitVec.toNat_ofNat, Nat.mod_eq_of_lt (crc32_lt data)]
  exact ⟨hiff, fun h => hiff.mpr (deviation_of_no_hit h), fun h heq => deviation_of_one_hit h (hiff.mp heq)⟩

theorem crc32_eq_standard_wrong : hits 0xFFFFFFFF [0x44] = 1 ∧ crc32 [0x44] ≠ (standard [0x44]).toNat :=
  ⟨by decide +kernel, (crc32_eq_standard [0x44]).2.2 (by decide +kernel)⟩

end Kvdb.Crc32
