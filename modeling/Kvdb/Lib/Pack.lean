import Mathlib.Algebra.Order.Ring.Nat
import Mathlib.Algebra.BigOperators.Group.List.Basic
import Mathlib.Algebra.Order.BigOperators.Group.List

/-! # Greedy packing of a list into groups of bounded cost

A group is closed when the next element would take `base` plus the cost of the group over `limit`;
an element that is too large on its own still gets a group. This is how entries are packed into
blocks and merged entries into output files. -/
namespace Kvdb.Pack
set_option autoImplicit false

variable {α : Type} (cost : α → ℕ) (limit base : ℕ)

/-- Pack the list after the open group `cur` of cost `size`. -/
def packFrom : List α → ℕ → List α → List (List α)
  | cur, _, [] => if cur.isEmpty then [] else [cur]
  | cur, size, x :: xs =>
    if !cur.isEmpty && decide (limit < base + (size + cost x)) then cur :: packFrom [x] (cost x) xs
    else packFrom (cur ++ [x]) (size + cost x) xs

def pack (xs : List α) : List (List α) := packFrom cost limit base [] 0 xs

theorem packFrom_flatten (cur : List α) (size : ℕ) (xs : List α) :
    (packFrom cost limit base cur size xs).flatten = cur ++ xs := by
  induction xs generalizing cur size with
  | nil =>
    cases cur with
    | nil => simp [packFrom]
    | cons c cs => simp [packFrom]
  | cons x xs ih =>
    unfold packFrom
    split
    · rw [List.flatten_cons, ih]
      simp
    · rw [ih]
      simp

/-- Packing keeps the elements and their order. -/
theorem pack_flatten (xs : List α) : (pack cost limit base xs).flatten = xs := by
  rw [pack, packFrom_flatten]
  rfl

theorem packFrom_ne_nil (cur : List α) (size : ℕ) (xs : List α) :
    ∀ g ∈ packFrom cost limit base cur size xs, g ≠ [] := by
  induction xs generalizing cur size with
  | nil =>
    intro g hg
    cases cur with
    | nil => simp [packFrom] at hg
    | cons c cs =>
      simp only [packFrom, List.isEmpty_cons, Bool.false_eq_true, ↓reduceIte, List.mem_singleton] at hg
      simp [hg]
  | cons x xs ih =>
    intro g hg
    unfold packFrom at hg
    split at hg
    · next hc =>
      rcases List.mem_cons.mp hg with rfl | hg
      · intro hnil
        simp [hnil] at hc
      · exact ih [x] (cost x) g hg
    · exact ih (cur ++ [x]) (size + cost x) g hg

/-- No group is empty. -/
theorem pack_ne_nil (xs : List α) : ∀ g ∈ pack cost limit base xs, g ≠ [] :=
  packFrom_ne_nil cost limit base [] 0 xs

/-- What a group costs. -/
def total (g : List α) : ℕ := (g.map cost).sum

theorem total_cons (x : α) (g : List α) : total cost (x :: g) = cost x + total cost g := rfl

theorem total_append (g h : List α) : total cost (g ++ h) = total cost g + total cost h := by
  simp [total]

theorem cost_le_total {x : α} {g : List α} (h : x ∈ g) : cost x ≤ total cost g :=
  List.single_le_sum (fun _ _ => Nat.zero_le _) _ (List.mem_map_of_mem h)

variable {cost limit base}

/-- A group of more than one element is within the limit. -/
theorem packFrom_fits {cur : List α} {size : ℕ} (xs : List α) (hsize : size = total cost cur)
    (hcur : 2 ≤ cur.length → base + size ≤ limit) :
    ∀ g ∈ packFrom cost limit base cur size xs, 2 ≤ g.length → base + total cost g ≤ limit := by
  induction xs generalizing cur size with
  | nil =>
    intro g hg hlen
    unfold packFrom at hg
    split at hg
    · cases hg
    · rw [List.mem_singleton] at hg
      subst hg
      rw [← hsize]
      exact hcur hlen
  | cons x xs ih =>
    intro g hg hlen
    unfold packFrom at hg
    split at hg
    · rcases List.mem_cons.mp hg with rfl | hg
      · rw [← hsize]
        exact hcur hlen
      · exact ih (by simp [total]) (fun h => absurd h (by simp)) g hg hlen
    · next hopen =>
      refine ih ?_ ?_ g hg hlen
      · rw [hsize]
        simp [total]
      · intro htwo
        cases cur with
        | nil => simp at htwo
        | cons c cs => simpa using hopen

theorem pack_fits (xs : List α) :
    ∀ g ∈ pack cost limit base xs, 2 ≤ g.length → base + total cost g ≤ limit :=
  packFrom_fits xs rfl fun h => absurd h (by simp)

/-- The first group begins with the open one. -/
theorem packFrom_cons (c : α) (cs : List α) (size : ℕ) (xs : List α) :
    ∃ g gs, packFrom cost limit base (c :: cs) size xs = (c :: g) :: gs := by
  induction xs generalizing cs size with
  | nil => exact ⟨cs, [], rfl⟩
  | cons x xs ih =>
    unfold packFrom
    split
    · exact ⟨cs, _, rfl⟩
    · exact ih (cs ++ [x]) (size + cost x)

/-- `h` could not be begun in the group before it. -/
def Full (cost : α → ℕ) (limit base : ℕ) (g h : List α) : Prop :=
  ∀ y ∈ h.head?, limit < base + (total cost g + cost y)

theorem packFrom_full {cur : List α} {size : ℕ} (xs : List α) (hsize : size = total cost cur) :
    (packFrom cost limit base cur size xs).IsChain (Full cost limit base) := by
  induction xs generalizing cur size with
  | nil =>
    unfold packFrom
    split
    · exact .nil
    · exact .singleton _
  | cons x xs ih =>
    unfold packFrom
    split
    · next hclose =>
      have hrest : (packFrom cost limit base [x] (cost x) xs).IsChain (Full cost limit base) := ih (by simp [total])
      obtain ⟨g, gs, heq⟩ : ∃ g gs, packFrom cost limit base [x] (cost x) xs = (x :: g) :: gs :=
        packFrom_cons x [] (cost x) xs
      rw [heq] at hrest ⊢
      refine .cons_cons ?_ hrest
      intro y hy
      rw [List.head?_cons, Option.mem_some_iff] at hy
      subst hy
      rw [Bool.and_eq_true, decide_eq_true_eq] at hclose
      rw [← hsize]
      exact hclose.2
    · refine ih ?_
      rw [hsize]
      simp [total]

/-- A group is closed only by an element that does not fit into it. -/
theorem pack_full (xs : List α) : (pack cost limit base xs).IsChain (Full cost limit base) := packFrom_full xs rfl

/-! ## One element at a time -/

section Push

variable (cost limit base)

/-- The closed groups and the open one, after one more element. -/
def push (s : List (List α) × List α) (x : α) : List (List α) × List α :=
  if s.2 ≠ [] ∧ limit < base + (total cost s.2 + cost x) then (s.1 ++ [s.2], [x]) else (s.1, s.2 ++ [x])

/-- The groups when the open one is closed too. -/
def close (s : List (List α) × List α) : List (List α) := if s.2.isEmpty then s.1 else s.1 ++ [s.2]

theorem close_foldl_push (xs : List α) (s : List (List α) × List α) :
    close (xs.foldl (push cost limit base) s) = s.1 ++ packFrom cost limit base s.2 (total cost s.2) xs := by
  induction xs generalizing s with
  | nil =>
    rw [List.foldl_nil, close, packFrom]
    split
    · rw [List.append_nil]
    · rfl
  | cons x xs ih =>
    rw [List.foldl_cons, ih, push, packFrom]
    have hcond : (!s.2.isEmpty && decide (limit < base + (total cost s.2 + cost x))) =
        decide (s.2 ≠ [] ∧ limit < base + (total cost s.2 + cost x)) := by
      cases s.2 <;> simp
    rw [hcond]
    split
    · next h =>
      rw [if_pos (decide_eq_true h), List.append_assoc]
      rfl
    · next h =>
      rw [if_neg (by simpa using h), total_append]
      rfl

/-- `pack` as a loop. -/
theorem close_push (xs : List α) : close (xs.foldl (push cost limit base) ([], [])) = pack cost limit base xs := by
  rw [close_foldl_push]
  rfl

theorem flatten_push (xs : List α) : (close (xs.foldl (push cost limit base) ([], []))).flatten = xs := by
  rw [close_push, pack_flatten]

end Push

end Kvdb.Pack
