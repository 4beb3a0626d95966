import Kvdb.Log.Crc32
import Kvdb.Lib.LittleEndian
import Kvdb.Lib.ShiftRegister
import Mathlib.Data.Nat.Bitwise

/-! # Errors of at most 32 bits (`crc32.hpp`)

An entry of the table should be what eight shifts of a register with the polynomial make of its index. One entry is not,
but its top byte is right, and the top bytes are all that errors of at most 32 consecutive bits depend on. `Update` takes
the lowest bit of each byte first, and that is the order in which bits are consecutive here: bit `i` of a string of bytes
is bit `i` of its little-endian number. -/
namespace Kvdb.Crc32
set_option autoImplicit false

open LittleEndian ShiftRegister

/-! ## The table -/

def polynomial : BitVec 32 := 0xEDB88320

def entryAt (i : ℕ) : ℕ := (table.getD i 0).toNat

/-- What eight shifts make of an index. -/
def remainder (i : ℕ) : BitVec 32 := (shift polynomial)^[8] (BitVec.ofNat 32 i)

-- The entry of 187 is 0x5CB30A04, the remainder 0x5CB36A04.
theorem table_eq : table.map UInt32.toNat =
    (List.range 256).map fun i => (remainder i).toNat ^^^ if i = 187 then 0x6000 else 0 := by
  decide +kernel

theorem entryAt_eq {i : ℕ} (hi : i < 256) :
    entryAt i = (remainder i).toNat ^^^ if i = 187 then 0x6000 else 0 := by
  have h := congrArg (fun entries : List ℕ => entries[i]?) table_eq
  simp only [List.getElem?_map, List.getElem?_range hi, Option.map_some] at h
  obtain ⟨v, hv, heq⟩ := Option.map_eq_some_iff.mp h
  rw [entryAt, List.getD_eq_getElem?_getD, hv, ← heq, Option.getD_some]

/-- Every entry but one is the remainder of its index. -/
theorem entryAt_eq_iff {i : ℕ} (hi : i < 256) : entryAt i = (remainder i).toNat ↔ i ≠ 187 := by
  rw [entryAt_eq hi]
  by_cases h : i = 187
  · subst h
    decide
  · simp [h]

/-- The top byte of every entry is that of the remainder. -/
theorem entryAt_top {i : ℕ} (hi : i < 256) : entryAt i >>> 24 = (remainder i).toNat >>> 24 := by
  have hzero : (if i = 187 then 0x6000 else 0) >>> 24 = 0 := by
    split <;> rfl
  rw [entryAt_eq hi, Nat.shiftRight_xor_distrib, hzero, Nat.xor_zero]

theorem testBit_entryAt {i b : ℕ} (hi : i < 256) (hb : 24 ≤ b) : (entryAt i).testBit b = (remainder i).getLsbD b := by
  have htop := congrArg (fun n : ℕ => n.testBit (b - 24)) (entryAt_top hi)
  simp only [Nat.testBit_shiftRight, Nat.add_sub_of_le hb] at htop
  rw [htop, BitVec.testBit_toNat]

theorem lt_two_pow {i b : ℕ} (hi : i < 256) (hb : 8 ≤ b) : i < 2 ^ b :=
  Nat.lt_of_lt_of_le hi (show 2 ^ 8 ≤ 2 ^ b from Nat.pow_le_pow_right (by decide) hb)

/-- Two indices that agree in the `k` low bits have entries that differ in one of the `8 - k` top bits. -/
theorem entries_apart {i j k : ℕ} (hi : i < 256) (hj : j < 256) (hlow : (i ^^^ j) % 2 ^ k = 0)
    (hhigh : entryAt i ^^^ entryAt j < 2 ^ (24 + k)) : i = j := by
  have hpoly : polynomial.getLsbD (32 - 1) = true := by decide
  have hzero : BitVec.ofNat 32 i ^^^ BitVec.ofNat 32 j = 0#32 := by
    refine eq_zero_of_iterate_shift (n := 8) (k := k) hpoly (by decide) ?_ ?_ ?_
    · intro b hb
      rw [BitVec.getLsbD_xor, BitVec.getLsbD_ofNat, BitVec.getLsbD_ofNat, Nat.testBit_lt_two_pow (lt_two_pow hi hb),
        Nat.testBit_lt_two_pow (lt_two_pow hj hb)]
      simp
    · intro b hb
      have hbit := congrArg (fun n : ℕ => n.testBit b) hlow
      simp only [Nat.testBit_mod_two_pow, hb, decide_true, Bool.true_and, Nat.testBit_xor, Nat.zero_testBit] at hbit
      rw [BitVec.getLsbD_xor, BitVec.getLsbD_ofNat, BitVec.getLsbD_ofNat]
      cases decide (b < 32) <;> simp [hbit]
    · intro b hb
      have hbit := Nat.testBit_lt_two_pow (Nat.lt_of_lt_of_le hhigh (Nat.pow_le_pow_right Nat.zero_lt_two hb))
      rw [Nat.testBit_xor, testBit_entryAt hi (by omega), testBit_entryAt hj (by omega)] at hbit
      rw [iterate_shift_xor, BitVec.getLsbD_xor]
      exact hbit
  have heq := congrArg BitVec.toNat (BitVec.xor_eq_zero_iff.mp hzero)
  simp only [BitVec.toNat_ofNat] at heq
  omega

/-! ## One byte -/

/-- The index that `Update` looks up. -/
def indexOf (value : UInt32) (b : UInt8) : ℕ := (value.toNat ^^^ b.toNat) % 256

theorem indexOf_lt (value : UInt32) (b : UInt8) : indexOf value b < 256 := Nat.mod_lt _ (by decide)

theorem updateByte_toNat (value : UInt32) (b : UInt8) :
    (updateByte value b).toNat = value.toNat / 256 ^^^ entryAt (indexOf value b) := by
  have hmask : ∀ n, n &&& 255 = n % 256 := fun n => Nat.and_two_pow_sub_one_eq_mod n 8
  rw [updateByte, UInt32.toNat_xor, UInt32.toNat_shiftRight, UInt32.toNat_and, UInt32.toNat_xor, UInt8.toNat_toUInt32]
  rw [show (0xFF : UInt32).toNat = 255 from rfl, hmask, Nat.shiftRight_eq_div_pow]
  rfl

theorem indexOf_xor (value value' : UInt32) (b b' : UInt8) :
    indexOf value b ^^^ indexOf value' b' = (value ^^^ value').toNat % 256 ^^^ (b ^^^ b').toNat := by
  have hb : ∀ b : UInt8, b.toNat % 2 ^ 8 = b.toNat := fun b => Nat.mod_eq_of_lt (UInt8.toNat_lt b)
  rw [indexOf, indexOf, UInt32.toNat_xor, UInt8.toNat_xor, show 256 = 2 ^ 8 from rfl, Nat.xor_mod_two_pow,
    Nat.xor_mod_two_pow, Nat.xor_mod_two_pow, hb, hb]
  ac_rfl

/-- The indices agree exactly where the low bytes of the values differ as the bytes do. -/
theorem indexOf_eq_iff (value value' : UInt32) (b b' : UInt8) :
    indexOf value b = indexOf value' b' ↔ (value ^^^ value').toNat % 256 = (b ^^^ b').toNat := by
  rw [← Nat.xor_eq_zero_iff, indexOf_xor, Nat.xor_eq_zero_iff]

theorem updateByte_xor (value value' : UInt32) (b b' : UInt8) :
    (updateByte value b ^^^ updateByte value' b').toNat =
      (value ^^^ value').toNat / 256 ^^^ (entryAt (indexOf value b) ^^^ entryAt (indexOf value' b')) := by
  have hdiv : ∀ n : ℕ, n / 256 = n >>> 8 := fun n => (Nat.shiftRight_eq_div_pow n 8).symm
  rw [UInt32.toNat_xor, updateByte_toNat, updateByte_toNat, UInt32.toNat_xor, hdiv, hdiv, hdiv, Nat.shiftRight_xor_distrib]
  ac_rfl

/-! ## Any number of bytes -/

/-- The bytes with the error applied, and the error between two strings of bytes. -/
def xorBytes (bs error : Bytes) : Bytes := List.zipWith (· ^^^ ·) bs error

theorem length_xorBytes {bs error : Bytes} (h : error.length = bs.length) : (xorBytes bs error).length = bs.length := by
  rw [xorBytes, List.length_zipWith, h, Nat.min_self]

theorem xorBytes_self {bs error : Bytes} (h : error.length = bs.length) : xorBytes (xorBytes bs error) bs = error := by
  induction bs generalizing error with
  | nil => exact (List.length_eq_zero_iff.mp h).symm
  | cons b bs ih =>
    cases error with
    | nil => cases h
    | cons e error =>
      have hcancel : b ^^^ e ^^^ b = e := by rw [UInt8.xor_comm b, UInt8.xor_assoc, UInt8.xor_self, UInt8.xor_zero]
      change (b ^^^ e ^^^ b) :: xorBytes (xorBytes bs error) bs = e :: error
      rw [hcancel, ih (Nat.succ.inj h)]

theorem xorBytes_zeros (bs : Bytes) : xorBytes bs (List.replicate bs.length 0) = bs := by
  induction bs with
  | nil => rfl
  | cons b bs ih =>
    rw [List.length_cons, List.replicate_succ, xorBytes, List.zipWith_cons_cons, UInt8.xor_zero]
    exact congrArg _ ih

/-- Where an error of four bytes meets the same change of the value, the values agree behind it, and nowhere else. -/
theorem update_eq_iff {bs bs' : Bytes} (hlen : bs'.length = bs.length) (hlt : ofLe (xorBytes bs bs') < 2 ^ 32)
    (value value' : UInt32) :
    update value bs = update value' bs' ↔ (value ^^^ value').toNat = ofLe (xorBytes bs bs') := by
  induction bs generalizing bs' value value' with
  | nil =>
    obtain rfl := List.length_eq_zero_iff.mp hlen
    change value = value' ↔ (value ^^^ value').toNat = 0
    rw [UInt32.toNat_xor, Nat.xor_eq_zero_iff, UInt32.toNat_inj]
  | cons b bs ih =>
    cases bs' with
    | nil => cases hlen
    | cons b' bs' =>
      have hword : ofLe (xorBytes (b :: bs) (b' :: bs')) = (b ^^^ b').toNat + 256 * ofLe (xorBytes bs bs') := rfl
      have hbyte : (b ^^^ b').toNat < 256 := UInt8.toNat_lt _
      have hvalue := UInt32.toNat_lt (value ^^^ value')
      rw [hword] at hlt ⊢
      have hstep : update value (b :: bs) = update value' (b' :: bs') ↔
          (updateByte value b ^^^ updateByte value' b').toNat = ofLe (xorBytes bs bs') :=
        ih (Nat.succ.inj hlen) (by omega) _ _
      rw [hstep, updateByte_xor]
      constructor
      · intro heq
        have hindex : indexOf value b = indexOf value' b' := by
          refine entries_apart (k := 0) (indexOf_lt _ _) (indexOf_lt _ _) (Nat.mod_one _) ?_
          have hentry : entryAt (indexOf value b) ^^^ entryAt (indexOf value' b') =
              (value ^^^ value').toNat / 256 ^^^ ofLe (xorBytes bs bs') := by
            rw [← heq, ← Nat.xor_assoc, Nat.xor_self, Nat.zero_xor]
          rw [hentry]
          exact Nat.xor_lt_two_pow (by omega) (by omega)
        rw [hindex, Nat.xor_self, Nat.xor_zero] at heq
        have hlow := (indexOf_eq_iff value value' b b').mp hindex
        omega
      · intro heq
        have hindex : indexOf value b = indexOf value' b' := (indexOf_eq_iff value value' b b').mpr (by omega)
        rw [hindex, Nat.xor_self, Nat.xor_zero]
        omega

/-- A burst changes the value: by induction up to its first byte, and from there by the bytes behind it. -/
theorem update_burst_ne {bs error : Bytes} {start : ℕ} (hlen : error.length = bs.length) (hne : ofLe error ≠ 0)
    (hlow : ofLe error % 2 ^ start = 0) (hhigh : ofLe error < 2 ^ (start + 32)) (value : UInt32) :
    update value (xorBytes bs error) ≠ update value bs := by
  induction bs generalizing error start value with
  | nil =>
    obtain rfl := List.length_eq_zero_iff.mp hlen
    exact absurd rfl hne
  | cons b bs ih =>
    cases error with
    | nil => cases hlen
    | cons e error =>
      have hrestlen := Nat.succ.inj hlen
      have hbyte : e.toNat < 256 := UInt8.toNat_lt e
      rw [ofLe] at hne hlow hhigh
      rcases Nat.lt_or_ge start 8 with hstart | hstart
      · intro heq
        have hsmall : ofLe error < 2 ^ (24 + start) := by
          rw [show start + 32 = 8 + (24 + start) by omega, Nat.pow_add 2 8] at hhigh
          omega
        have hword : 2 ^ (24 + start) ≤ 2 ^ 32 := Nat.pow_le_pow_right Nat.zero_lt_two (by omega)
        have hself := xorBytes_self hrestlen
        have hvalues := (update_eq_iff (length_xorBytes hrestlen).symm (by rw [hself]; omega) _ _).mp heq
        rw [hself, updateByte_xor, UInt32.toNat_xor, Nat.xor_self, Nat.zero_div, Nat.zero_xor] at hvalues
        have hxor : indexOf value (b ^^^ e) ^^^ indexOf value b = e.toNat := by
          rw [indexOf_xor, UInt32.xor_self, UInt8.xor_comm b, UInt8.xor_assoc, UInt8.xor_self, UInt8.xor_zero]
          exact Nat.zero_xor _
        have hdvd : 2 ^ start ∣ 256 * ofLe error :=
          Dvd.dvd.mul_right (show 2 ^ start ∣ 2 ^ 8 from Nat.pow_dvd_pow 2 (by omega)) _
        have hindex : indexOf value (b ^^^ e) = indexOf value b := by
          refine entries_apart (k := start) (indexOf_lt _ _) (indexOf_lt _ _) ?_ (by rwa [hvalues])
          rw [hxor]
          exact Nat.mod_eq_zero_of_dvd ((Nat.dvd_add_left hdvd).mp (Nat.dvd_of_mod_eq_zero hlow))
        rw [hindex, Nat.xor_self] at hxor hvalues
        omega
      · obtain ⟨m, rfl⟩ : ∃ m, start = 8 + m := ⟨start - 8, by omega⟩
        rw [Nat.pow_add, Nat.mod_mul] at hlow
        rw [Nat.add_assoc, Nat.pow_add] at hhigh
        have hfirst : e.toNat = 0 := by omega
        have hrest : (e.toNat + 256 * ofLe error) / 2 ^ 8 = ofLe error := by omega
        have hlow' : ofLe error % 2 ^ m = 0 := by
          rw [hrest] at hlow
          omega
        have hhigh' : ofLe error < 2 ^ (m + 32) := by omega
        obtain rfl : e = 0 := UInt8.toNat_inj.mp hfirst
        have hsame : xorBytes (b :: bs) (0 :: error) = b :: xorBytes bs error := by
          rw [xorBytes, List.zipWith_cons_cons, UInt8.xor_zero]
          rfl
        rw [hsame]
        exact ih hrestlen (by omega) hlow' hhigh' (updateByte value b)

/-! ## Bursts -/

/-- Bit `i` of a string of bytes, counted from the lowest bit of the first one. -/
def bitAt (bs : Bytes) (i : ℕ) : Bool := (bs.getD (i / 8) 0).toNat.testBit (i % 8)

/-- An error that is not zero and is confined to 32 consecutive bits. -/
structure IsBurst (error : Bytes) : Prop where
  nonzero : ∃ i, bitAt error i = true
  confined : ∃ start, ∀ i, bitAt error i = true → start ≤ i ∧ i < start + 32

/-- Bytes and the same bytes with a burst applied. -/
def Damaged (bs bs' : Bytes) : Prop := ∃ error, error.length = bs.length ∧ IsBurst error ∧ bs' = xorBytes bs error

theorem bitAt_eq (bs : Bytes) (i : ℕ) : bitAt bs i = (ofLe bs).testBit i := by
  induction bs generalizing i with
  | nil => simp [bitAt, ofLe]
  | cons b bs ih =>
    have hb : b.toNat < 2 ^ 8 := UInt8.toNat_lt b
    have hsplit : ofLe (b :: bs) = 2 ^ 8 * ofLe bs + b.toNat := Nat.add_comm _ _
    rw [hsplit, Nat.testBit_two_pow_mul_add _ hb]
    rcases Nat.lt_or_ge i 8 with hi | hi
    · rw [if_pos hi, bitAt, Nat.div_eq_of_lt hi, Nat.mod_eq_of_lt hi]
      rfl
    · obtain ⟨i, rfl⟩ : ∃ k, i = k + 8 := ⟨i - 8, by omega⟩
      rw [if_neg (by omega), Nat.add_sub_cancel, ← ih, bitAt, bitAt, Nat.add_mod_right, Nat.add_div_right _ (by decide)]
      rfl

/-- As a number, the error is a multiple of a power of two and below another one, 32 bits higher. -/
theorem isBurst_iff {error : Bytes} :
    IsBurst error ↔ ofLe error ≠ 0 ∧ ∃ start, ofLe error % 2 ^ start = 0 ∧ ofLe error < 2 ^ (start + 32) := by
  constructor
  · rintro ⟨⟨i, hi⟩, start, hconf⟩
    simp only [bitAt_eq] at hi hconf
    refine ⟨fun hzero => ?_, start, Nat.eq_of_testBit_eq fun b => ?_, Nat.lt_pow_two_of_testBit _ fun b hb => ?_⟩
    · rw [hzero, Nat.zero_testBit] at hi
      cases hi
    · rw [Nat.testBit_mod_two_pow, Nat.zero_testBit, Bool.and_eq_false_iff, decide_eq_false_iff_not]
      by_contra hbit
      rw [not_or, not_not, Bool.not_eq_false] at hbit
      exact absurd (hconf b hbit.2).1 (by omega)
    · by_contra hbit
      exact absurd (hconf b (Bool.eq_true_of_not_eq_false hbit)).2 (by omega)
  · rintro ⟨hne, start, hlow, hhigh⟩
    obtain ⟨i, hi⟩ := Nat.exists_testBit_of_ne_zero hne
    refine ⟨⟨i, by rwa [bitAt_eq]⟩, start, fun b hb => ?_⟩
    rw [bitAt_eq] at hb
    constructor
    · by_contra hlt
      have hbit := congrArg (fun n : ℕ => n.testBit b) hlow
      simp only [Nat.testBit_mod_two_pow, hb, Nat.zero_testBit] at hbit
      simp [show b < start by omega] at hbit
    · by_contra hge
      have hpow : 2 ^ (start + 32) ≤ 2 ^ b := Nat.pow_le_pow_right Nat.zero_lt_two (by omega)
      rw [Nat.testBit_lt_two_pow (by omega)] at hb
      cases hb

theorem Damaged.length_eq {bs bs' : Bytes} (h : Damaged bs bs') : bs'.length = bs.length := by
  obtain ⟨error, hlen, -, rfl⟩ := h
  exact length_xorBytes hlen

theorem Damaged.update_ne {bs bs' : Bytes} (h : Damaged bs bs') (value : UInt32) : update value bs' ≠ update value bs := by
  obtain ⟨error, hlen, hburst, rfl⟩ := h
  obtain ⟨hne, start, hlow, hhigh⟩ := isBurst_iff.mp hburst
  exact update_burst_ne hlen hne hlow hhigh value

theorem Damaged.crc32_ne {bs bs' : Bytes} (h : Damaged bs bs') : crc32 bs' ≠ crc32 bs := by
  intro heq
  have hfinal := UInt32.toNat_inj.mp heq
  exact h.update_ne _ ((UInt32.xor_left_inj _).mp hfinal)

/-- The checksum is the word behind the bytes exactly if the word takes the value to that of four zeros. -/
theorem crc32_eq_ofLe_iff {bs word : Bytes} (hword : word.length = 4) :
    crc32 bs = ofLe word ↔ update 0xFFFFFFFF (bs ++ word) = update 0xFFFFFFFF [0, 0, 0, 0] := by
  have hsame : xorBytes word [0, 0, 0, 0] = word := by
    have h := xorBytes_zeros word
    rwa [hword] at h
  have hlt := ofLe_lt word
  rw [hword] at hlt
  have happend : update 0xFFFFFFFF (bs ++ word) = update (update 0xFFFFFFFF bs) word := List.foldl_append
  rw [happend, update_eq_iff (by rw [hword]; rfl) (by rwa [hsame]), hsame]
  rfl

/-- With the checksum behind the bytes, a burst of bytes and checksum is seen as well. -/
theorem Damaged.crc32_ne_ofLe {bs bs' word word' : Bytes} (h : Damaged (bs ++ word) (bs' ++ word'))
    (hword : word.length = 4) (hword' : word'.length = 4) (hcrc : crc32 bs = ofLe word) : crc32 bs' ≠ ofLe word' := by
  intro hcrc'
  rw [crc32_eq_ofLe_iff hword] at hcrc
  rw [crc32_eq_ofLe_iff hword', ← hcrc] at hcrc'
  exact h.update_ne _ hcrc'

end Kvdb.Crc32
