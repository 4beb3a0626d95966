import Mathlib.Data.List.Basic

/-! # Regions of a memory

A memory is a function from addresses. `write` is a copy into it (`memcpy`), and `move` a copy within it, by way of a
buffer, so that the two regions may overlap (`memmove`). -/
namespace Kvdb.Region
set_option autoImplicit false

variable {α : Type}

def read (m : ℕ → α) (o n : ℕ) : List α := (List.range n).map fun k => m (o + k)

def write (m : ℕ → α) (o : ℕ) (xs : List α) : ℕ → α := fun x => if o ≤ x then xs.getD (x - o) (m x) else m x

def move (m : ℕ → α) (dst src n : ℕ) : ℕ → α := write m dst (read m src n)

@[simp] theorem length_read (m : ℕ → α) (o n : ℕ) : (read m o n).length = n := by
  rw [read, List.length_map, List.length_range]

theorem read_zero (m : ℕ → α) (n : ℕ) : read m 0 n = (List.range n).map m :=
  List.map_congr_left fun k _ => congrArg m (Nat.zero_add k)

theorem getElem?_read (m : ℕ → α) {o n k : ℕ} (hk : k < n) : (read m o n)[k]? = some (m (o + k)) := by
  rw [read, List.getElem?_map, List.getElem?_range hk, Option.map_some]

/-- What is read depends on the region only. -/
theorem read_congr {m m' : ℕ → α} {o o' n : ℕ} (h : ∀ k < n, m' (o' + k) = m (o + k)) : read m' o' n = read m o n :=
  List.map_congr_left fun k hk => h k (List.mem_range.mp hk)

theorem eq_of_read {m m' : ℕ → α} {o o' n : ℕ} (h : read m' o' n = read m o n) {k : ℕ} (hk : k < n) :
    m' (o' + k) = m (o + k) := by
  have hget := congrArg (fun xs : List α => xs[k]?) h
  simp only [getElem?_read _ hk, Option.some.injEq] at hget
  exact hget

theorem read_add (m : ℕ → α) (o a b : ℕ) : read m o (a + b) = read m o a ++ read m (o + a) b := by
  simp only [read, List.range_add, List.map_append, List.map_map, Function.comp_def, Nat.add_assoc]

theorem take_read (m : ℕ → α) (o : ℕ) {k n : ℕ} (h : k ≤ n) : (read m o n).take k = read m o k := by
  rw [read, ← List.map_take, List.take_range, Nat.min_eq_left h, read]

theorem write_before (m : ℕ → α) {o x : ℕ} (xs : List α) (h : x < o) : write m o xs x = m x :=
  if_neg (Nat.not_le_of_lt h)

theorem write_behind (m : ℕ → α) {o x : ℕ} {xs : List α} (h : o + xs.length ≤ x) : write m o xs x = m x := by
  rw [write, if_pos (by omega), List.getD_eq_getElem?_getD, List.getElem?_eq_none (by omega), Option.getD_none]

theorem write_inside (m : ℕ → α) (o : ℕ) {xs : List α} {k : ℕ} (h : k < xs.length) :
    some (write m o xs (o + k)) = xs[k]? := by
  rw [write, if_pos (Nat.le_add_right o k), Nat.add_sub_cancel_left, List.getD_eq_getElem?_getD, List.getElem?_eq_getElem h,
    Option.getD_some]

theorem read_write (m : ℕ → α) (o : ℕ) (xs : List α) : read (write m o xs) o xs.length = xs := by
  refine List.ext_getElem? fun k => ?_
  rcases Nat.lt_or_ge k xs.length with hk | hk
  · rw [getElem?_read _ hk, write_inside m o hk]
  · rw [List.getElem?_eq_none (by rwa [length_read]), List.getElem?_eq_none hk]

/-- A region beside the one written to is unchanged. -/
theorem read_write_of_disjoint (m : ℕ → α) {o o' n : ℕ} {xs : List α} (h : o' + n ≤ o ∨ o + xs.length ≤ o') :
    read (write m o xs) o' n = read m o' n := by
  refine read_congr fun k hk => ?_
  rcases h with h | h
  · exact write_before m xs (by omega)
  · exact write_behind m (by omega)

/-- Two copies, one behind the other, are one. -/
theorem write_append (m : ℕ → α) (o : ℕ) (xs ys : List α) :
    write (write m o xs) (o + xs.length) ys = write m o (xs ++ ys) := by
  funext x
  rcases Nat.lt_or_ge x (o + xs.length) with hx | hx
  · rw [write_before _ ys hx]
    rcases Nat.lt_or_ge x o with ho | ho
    · rw [write_before m xs ho, write_before m (xs ++ ys) ho]
    · simp only [write, if_pos ho, List.getD_eq_getElem?_getD]
      rw [List.getElem?_append_left (by omega)]
  · have hbehind := write_behind m hx
    simp only [write, if_pos hx, if_pos (show o ≤ x by omega), List.getD_eq_getElem?_getD] at hbehind ⊢
    rw [hbehind, List.getElem?_append_right (by omega), Nat.sub_sub]

theorem move_inside (m : ℕ → α) (dst src : ℕ) {n k : ℕ} (hk : k < n) : move m dst src n (dst + k) = m (src + k) := by
  have hin : some (write m dst (read m src n) (dst + k)) = (read m src n)[k]? := write_inside m dst (by rwa [length_read])
  rw [getElem?_read m hk] at hin
  exact Option.some_inj.mp hin

theorem move_outside (m : ℕ → α) {dst src n x : ℕ} (h : x < dst ∨ dst + n ≤ x) : move m dst src n x = m x := by
  rcases h with h | h
  · exact write_before m _ h
  · exact write_behind m (by rwa [length_read])

end Kvdb.Region
