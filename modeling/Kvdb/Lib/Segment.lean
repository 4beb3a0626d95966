import Mathlib.Data.List.Basic

/-! # Linked lists in memory

`next` is the pointer of each cell. `Segment next s xs t` says that the cells `xs` are those met on the way from the
pointer `s` to the pointer `t`; a list that ends at the null pointer is a segment to `none`. -/
namespace Kvdb
set_option autoImplicit false

variable {α : Type}

def Segment (next : α → Option α) : Option α → List α → Option α → Prop
  | s, [], t => s = t
  | s, x :: xs, t => s = some x ∧ Segment next (next x) xs t

namespace Segment

variable {next next' : α → Option α} {s t u : Option α} {xs ys : List α} {x : α}

theorem append (h : Segment next s xs t) (h' : Segment next t ys u) : Segment next s (xs ++ ys) u := by
  induction xs generalizing s with
  | nil =>
    have hst : s = t := h
    subst hst
    exact h'
  | cons x xs ih => exact ⟨h.1, ih h.2⟩

theorem split (h : Segment next s (xs ++ ys) u) : ∃ t, Segment next s xs t ∧ Segment next t ys u := by
  induction xs generalizing s with
  | nil => exact ⟨s, rfl, h⟩
  | cons x xs ih =>
    obtain ⟨t, hxs, hys⟩ := ih h.2
    exact ⟨t, ⟨h.1, hxs⟩, hys⟩

/-- A segment depends on the pointers of its own cells. -/
theorem congr (h : Segment next s xs t) (heq : ∀ x ∈ xs, next' x = next x) : Segment next' s xs t := by
  induction xs generalizing s with
  | nil => exact h
  | cons x xs ih =>
    obtain ⟨hs, htail⟩ := h
    refine ⟨hs, ?_⟩
    rw [heq x List.mem_cons_self]
    exact ih htail fun y hy => heq y (List.mem_cons_of_mem x hy)

/-- The segment led to another pointer by its last cell. -/
theorem retarget (h : Segment next s (xs ++ [x]) t) (heq : ∀ y ∈ xs, next' y = next y) (hlast : next' x = u) :
    Segment next' s (xs ++ [x]) u := by
  obtain ⟨m, hxs, hx⟩ := h.split
  exact (hxs.congr heq).append ⟨hx.1, hlast⟩

/-- The cell in the middle of a list is replaced by the cells `ys`: those before it are led to the new cells, whose
last one has its pointer. -/
theorem splice {as bs : List α} (h : Segment next s (as ++ x :: bs) none) {s' : Option α}
    (hbefore : Segment next s as (some x) → Segment next' s' as ys.head?) (hys : Segment next' ys.head? ys (next x))
    (hafter : ∀ y ∈ bs, next' y = next y) : Segment next' s' (as ++ ys ++ bs) none := by
  obtain ⟨m, has, hxs⟩ := h.split
  obtain ⟨rfl, hbs⟩ := hxs
  exact ((hbefore has).append hys).append (hbs.congr hafter)

end Segment

end Kvdb
