import Mathlib.Data.List.Basic
import Mathlib.Logic.Function.Iterate

/-! # A shift register

A register of `w` bits that divides by a polynomial over the field of two elements, with the highest power in the lowest
bit. A shift is linear, and when the polynomial has its constant term the bit that leaves the register comes back at its
top, so that zeros at the top say that only zeros have left (`low_eq_zero`). -/
namespace Kvdb.ShiftRegister
set_option autoImplicit false

variable {w : ℕ} (poly : BitVec w)

/-- The register moves down; the bit that leaves it decides whether the polynomial is subtracted. -/
def shift (r : BitVec w) : BitVec w := (r >>> 1) ^^^ (if r.getLsbD 0 then poly else 0#w)

theorem shift_xor (r s : BitVec w) : shift poly (r ^^^ s) = shift poly r ^^^ shift poly s := by
  refine BitVec.eq_of_getLsbD_eq fun i _ => ?_
  simp only [shift, BitVec.getLsbD_xor, BitVec.getLsbD_ushiftRight]
  cases r.getLsbD 0 <;> cases s.getLsbD 0 <;> simp [Bool.xor_comm, Bool.xor_left_comm]

theorem shift_of_even {r : BitVec w} (h : r.getLsbD 0 = false) : shift poly r = r >>> 1 := by
  rw [shift, h, if_neg (by decide), BitVec.xor_zero]

theorem iterate_shift_xor (n : ℕ) (r s : BitVec w) :
    (shift poly)^[n] (r ^^^ s) = (shift poly)^[n] r ^^^ (shift poly)^[n] s := by
  induction n generalizing r s with
  | zero => rfl
  | succ n ih => rw [Function.iterate_succ_apply, shift_xor, ih, Function.iterate_succ_apply, Function.iterate_succ_apply]

theorem iterate_shift_of_even {n : ℕ} {r : BitVec w} (h : ∀ i < n, r.getLsbD i = false) :
    (shift poly)^[n] r = r >>> n := by
  induction n with
  | zero => rfl
  | succ n ih =>
    have heven : (r >>> n).getLsbD 0 = false := by
      rw [BitVec.getLsbD_ushiftRight]
      exact h n (Nat.lt_succ_self n)
    rw [Function.iterate_succ_apply', ih fun i hi => h i (by omega), shift_of_even poly heven, ← BitVec.shiftRight_add]

theorem iterate_shift_zero (n : ℕ) : (shift poly)^[n] 0#w = 0#w :=
  Function.iterate_fixed (by rw [shift_of_even poly BitVec.getLsbD_zero, BitVec.zero_ushiftRight]) n

/-- The low bits that leave the register may be taken by themselves. -/
theorem iterate_shift_split {n : ℕ} {r l : BitVec w} (hlow : ∀ i < n, l.getLsbD i = r.getLsbD i)
    (hhigh : ∀ i, n ≤ i → l.getLsbD i = false) : (shift poly)^[n] r = r >>> n ^^^ (shift poly)^[n] l := by
  have hrest : (shift poly)^[n] (r ^^^ l) = (r ^^^ l) >>> n :=
    iterate_shift_of_even poly fun i hi => by rw [BitVec.getLsbD_xor, hlow i hi, Bool.xor_self]
  have hshift : (r ^^^ l) >>> n = r >>> n := BitVec.eq_of_getLsbD_eq fun i _ => by
    simp only [BitVec.getLsbD_ushiftRight, BitVec.getLsbD_xor, hhigh (n + i) (Nat.le_add_right n i), Bool.xor_false]
  have hr : r = (r ^^^ l) ^^^ l := by rw [BitVec.xor_assoc, BitVec.xor_self, BitVec.xor_zero]
  conv_lhs => rw [hr, iterate_shift_xor, hrest, hshift]

variable {poly} (hpoly : poly.getLsbD (w - 1) = true)

include hpoly

/-- The bit at the top is the one that has left. -/
theorem even_of_shift {r : BitVec w} (h : (shift poly r).getLsbD (w - 1) = false) : r.getLsbD 0 = false := by
  rw [shift, BitVec.getLsbD_xor, BitVec.getLsbD_ushiftRight, BitVec.getLsbD_of_ge r _ (by omega), Bool.false_xor] at h
  cases hr : r.getLsbD 0 with
  | false => rfl
  | true =>
    rw [hr, if_pos rfl, hpoly] at h
    cases h

/-- No other register becomes zero. -/
theorem eq_zero_of_iterate {n : ℕ} {r : BitVec w} (h : (shift poly)^[n] r = 0#w) : r = 0#w := by
  induction n generalizing r with
  | zero => exact h
  | succ n ih =>
    have hone : shift poly r = 0#w := ih h
    have heven : r.getLsbD 0 = false := even_of_shift hpoly (by rw [hone, BitVec.getLsbD_zero])
    refine BitVec.eq_of_getLsbD_eq fun i _ => ?_
    rw [BitVec.getLsbD_zero]
    cases i with
    | zero => exact heven
    | succ i =>
      rw [Nat.add_comm, ← BitVec.getLsbD_ushiftRight, ← shift_of_even poly heven, hone, BitVec.getLsbD_zero]

/-- Zeros in the `n` top bits after `n` shifts: the `n` bits that have left were zeros. -/
theorem low_eq_zero {n : ℕ} {r : BitVec w} (hn : n ≤ w)
    (h : ∀ i, w - n ≤ i → ((shift poly)^[n] r).getLsbD i = false) : ∀ i < n, r.getLsbD i = false := by
  induction n with
  | zero => exact fun i hi => absurd hi (Nat.not_lt_zero i)
  | succ n ih =>
    rw [Function.iterate_succ_apply'] at h
    have heven : ((shift poly)^[n] r).getLsbD 0 = false := even_of_shift hpoly (h _ (by omega))
    have hlow : ∀ i < n, r.getLsbD i = false := by
      refine ih (by omega) fun i hi => ?_
      obtain ⟨i, rfl⟩ : ∃ k, i = 1 + k := ⟨i - 1, by omega⟩
      rw [← BitVec.getLsbD_ushiftRight, ← shift_of_even poly heven]
      exact h i (by omega)
    intro i hi
    rcases Nat.lt_succ_iff_lt_or_eq.mp hi with hlt | rfl
    · exact hlow i hlt
    · rwa [iterate_shift_of_even poly hlow, BitVec.getLsbD_ushiftRight] at heven

/-- A word of `n` bits that is a multiple of `2 ^ k` is zero if `n` shifts leave no bit from `w - n + k` on. -/
theorem eq_zero_of_iterate_shift {n k : ℕ} {r : BitVec w} (hn : n ≤ w) (hhigh : ∀ i, n ≤ i → r.getLsbD i = false)
    (hlow : ∀ i < k, r.getLsbD i = false) (h : ∀ i, w - n + k ≤ i → ((shift poly)^[n] r).getLsbD i = false) :
    r = 0#w := by
  refine BitVec.eq_of_getLsbD_eq fun i _ => ?_
  rw [BitVec.getLsbD_zero]
  rcases Nat.lt_or_ge i k with hk | hk
  · exact hlow i hk
  rcases Nat.lt_or_ge i n with hi | hi
  · have hrest := low_eq_zero (r := (shift poly)^[k] r) hpoly (show n - k ≤ w by omega) fun i hi => by
      rw [← Function.iterate_add_apply, Nat.sub_add_cancel (by omega)]
      exact h i (by omega)
    have hbit := hrest (i - k) (by omega)
    rwa [iterate_shift_of_even poly hlow, BitVec.getLsbD_ushiftRight, Nat.add_sub_of_le hk] at hbit
  · exact hhigh i hi

end Kvdb.ShiftRegister
