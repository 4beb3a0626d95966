import Kvdb.Lib.Region
import Mathlib.Data.List.InsertIdx

/-! # Arrays with their elements in front

An array of which only a front is in use, as long as a count that stands beside it says. An insertion moves the elements
behind its place up by one, from the last one down. -/
namespace Kvdb.FixedArray
set_option autoImplicit false

open Region

variable {α : Type}

/-- The loop `for (i = n; i > pos; --i) a[i] = a[i - 1]`. -/
def shiftUp (pos : ℕ) : ℕ → (ℕ → α) → ℕ → α
  | 0, a => a
  | i + 1, a => if pos < i + 1 then shiftUp pos i (Function.update a (i + 1) (a i)) else a

/-- The element at `pos` of an array with `n` elements in use. -/
def insertAt (a : ℕ → α) (n pos : ℕ) (x : α) : ℕ → α := Function.update (shiftUp pos n a) pos x

theorem shiftUp_apply (pos n : ℕ) (a : ℕ → α) (x : ℕ) :
    shiftUp pos n a x = if pos < x ∧ x ≤ n then a (x - 1) else a x := by
  induction n generalizing a with
  | zero => rw [shiftUp, if_neg (by omega)]
  | succ n ih =>
    rw [shiftUp]
    split
    · rw [ih]
      by_cases hx : x = n + 1
      · subst hx
        rw [if_neg (by omega), if_pos (by omega), Function.update_self, Nat.add_sub_cancel]
      · rw [Function.update_of_ne hx]
        by_cases hin : pos < x ∧ x ≤ n
        · rw [if_pos hin, if_pos (by omega), Function.update_of_ne (by omega)]
        · rw [if_neg hin, if_neg (by omega)]
    · rw [if_neg (by omega)]

theorem insertAt_before (a : ℕ → α) {n pos x : ℕ} (v : α) (hx : x < pos) : insertAt a n pos v x = a x := by
  rw [insertAt, Function.update_of_ne (by omega), shiftUp_apply, if_neg (by omega)]

theorem insertAt_self (a : ℕ → α) (n pos : ℕ) (v : α) : insertAt a n pos v pos = v := Function.update_self ..

theorem insertAt_behind (a : ℕ → α) {n pos x : ℕ} (v : α) (hpos : pos ≤ x) (hx : x < n) :
    insertAt a n pos v (x + 1) = a x := by
  rw [insertAt, Function.update_of_ne (by omega), shiftUp_apply, if_pos (by omega), Nat.add_sub_cancel]

/-! ## The front as a list -/

theorem read_insertAt {b : ℕ → α} {a : ℕ → α} {n pos : ℕ} {v : α} (hpos : pos ≤ n) (hlow : ∀ x < pos, b x = a x)
    (hself : b pos = v) (hhigh : ∀ x < n, pos ≤ x → b (x + 1) = a x) :
    read b 0 (n + 1) = (read a 0 n).insertIdx pos v := by
  refine List.ext_getElem? fun j => ?_
  have hlen : (read a 0 n).length = n := length_read ..
  rcases Nat.lt_or_ge j (n + 1) with hj | hj
  · rw [getElem?_read b hj, Nat.zero_add]
    rcases Nat.lt_trichotomy j pos with hlt | rfl | hgt
    · rw [List.getElem?_insertIdx_of_lt hlt, getElem?_read a (by omega), hlow j hlt, Nat.zero_add]
    · rw [List.getElem?_insertIdx_self, if_pos (by omega), hself]
    · obtain ⟨i, rfl⟩ := Nat.exists_eq_add_one_of_ne_zero (Nat.ne_of_gt (Nat.zero_lt_of_lt hgt))
      rw [List.getElem?_insertIdx_of_gt hgt, Nat.add_sub_cancel, getElem?_read a (by omega), Nat.zero_add,
        hhigh i (by omega) (by omega)]
  · rw [List.getElem?_eq_none (by rw [length_read]; exact hj),
      List.getElem?_eq_none (by rw [List.length_insertIdx, if_pos (by omega)]; omega)]

theorem read_insertAt_self (a : ℕ → α) {n pos : ℕ} (v : α) (hpos : pos ≤ n) :
    read (insertAt a n pos v) 0 (n + 1) = (read a 0 n).insertIdx pos v :=
  read_insertAt hpos (fun _ hx => insertAt_before a v hx) (insertAt_self a n pos v)
    fun _ hx hle => insertAt_behind a v hle hx

theorem read_update (a : ℕ → α) (n i : ℕ) (v : α) : read (Function.update a i v) 0 n = (read a 0 n).set i v := by
  refine List.ext_getElem? fun j => ?_
  rw [List.getElem?_set, length_read]
  rcases Nat.lt_or_ge j n with hj | hj
  · rw [getElem?_read _ hj, getElem?_read _ hj, Nat.zero_add]
    by_cases hij : i = j
    · subst hij
      rw [Function.update_self, if_pos rfl, if_pos hj]
    · rw [Function.update_of_ne (Ne.symm hij), if_neg hij]
  · rw [List.getElem?_eq_none (by rwa [length_read])]
    split
    · rw [if_neg (by omega)]
    · rw [List.getElem?_eq_none (by rwa [length_read])]

theorem read_push (a : ℕ → α) (n : ℕ) (v : α) : read (Function.update a n v) 0 (n + 1) = read a 0 n ++ [v] := by
  have hsame : read (Function.update a n v) 0 n = read a 0 n :=
    read_congr fun k hk => Function.update_of_ne (by omega) v a
  have hlast : read (Function.update a n v) (0 + n) 1 = [v] := by
    show [Function.update a n v (0 + n + 0)] = [v]
    rw [Nat.zero_add, Nat.add_zero, Function.update_self]
  rw [read_add, hsame, hlast]

theorem getElem?_front (a : ℕ → α) (n i : ℕ) : (read a 0 n)[i]? = if i < n then some (a i) else none := by
  split
  · next hi => rw [getElem?_read a hi, Nat.zero_add]
  · next hi => rw [List.getElem?_eq_none (by rw [length_read]; omega)]

end Kvdb.FixedArray
