import Kvdb.Lib.Segment
import Mathlib.Logic.Function.Basic
import Mathlib.Data.List.Nodup

/-! # Doubly linked lists in memory

The two pointers of every cell with the two ends of the list. A list is linked if it is met along the `next` pointers
from the head and, backwards, along the `prev` pointers from the tail. What is shown of one direction holds of the other
in the mirror. -/
namespace Kvdb
set_option autoImplicit false

structure Links (α : Type) where
  prev : α → Option α
  next : α → Option α
  head : Option α
  tail : Option α

namespace Links

variable {α : Type} [DecidableEq α]

/-- The list read from its tail. -/
def mirror (L : Links α) : Links α where
  prev := L.next
  next := L.prev
  head := L.tail
  tail := L.head

/-- The pointer to what follows `p`, or the head if there is no `p`. -/
def setNext (L : Links α) (p n : Option α) : Links α :=
  match p with
  | some x => { L with next := Function.update L.next x n }
  | none => { L with head := n }

def setPrev (L : Links α) (n p : Option α) : Links α :=
  match n with
  | some x => { L with prev := Function.update L.prev x p }
  | none => { L with tail := p }

/-- The cell is unlinked; its own pointers stay. -/
def remove (L : Links α) (e : α) : Links α :=
  let L' := L.setNext (L.prev e) (L.next e)
  L'.setPrev (L'.next e) (L'.prev e)

/-- Both pointers of a cell. -/
def setCell (L : Links α) (e : α) (p n : Option α) : Links α :=
  { L with
    prev := Function.update L.prev e p
    next := Function.update L.next e n }

/-- The cell becomes the head. -/
def pushFront (L : Links α) (e : α) : Links α :=
  let L' := L.setCell e none L.head
  { L'.setPrev L'.head (some e) with head := some e }

/-- The cell `b` takes the place of the cell `a`. -/
def rename (L : Links α) (a b : α) : Links α :=
  let L' := L.setNext (L.prev a) (some b)
  let L'' := L'.setPrev (L'.next a) (some b)
  L''.setCell b (L''.prev a) (L''.next a)

variable {L : Links α} {p n : Option α} {a b e : α} {as bs : List α}

@[simp]
theorem setNext_prev : (L.setNext p n).prev = L.prev := by
  cases p <;> rfl

@[simp]
theorem setNext_tail : (L.setNext p n).tail = L.tail := by
  cases p <;> rfl

@[simp]
theorem setPrev_next : (L.setPrev n p).next = L.next := by
  cases n <;> rfl

@[simp]
theorem setPrev_head : (L.setPrev n p).head = L.head := by
  cases n <;> rfl

theorem setNext_next_of_ne (h : p ≠ some a) : (L.setNext p n).next a = L.next a := by
  cases p with
  | none => rfl
  | some x =>
    have hne : a ≠ x := fun hax => h (by rw [hax])
    exact Function.update_of_ne hne n L.next

theorem setPrev_mirror : (L.setPrev n p).mirror = L.mirror.setNext n p := by
  cases n <;> rfl

theorem setPrev_prev_of_ne (h : n ≠ some a) : (L.setPrev n p).prev a = L.prev a := by
  have hmirror := setNext_next_of_ne (L := L.mirror) (p := n) (n := p) h
  rw [← setPrev_mirror] at hmirror
  exact hmirror

/-- The cells in front are led to another pointer by a change behind the last of them. -/
theorem setNext_leads (h : Segment L.next L.head (as ++ bs) none) (hnodup : as.Nodup) :
    Segment (L.setNext as.getLast? n).next (L.setNext as.getLast? n).head as n := by
  rcases as.eq_nil_or_concat with rfl | ⟨as, x, rfl⟩
  · rfl
  · obtain ⟨t, has, -⟩ := h.split
    rw [List.concat_eq_append] at has hnodup ⊢
    rw [List.getLast?_concat]
    have hlast : (L.setNext (some x) n).next x = n := by simp [setNext]
    refine has.retarget ?_ hlast
    intro y hy
    have hne : y ≠ x := by
      rintro rfl
      exact (List.nodup_append.mp hnodup).2.2 y hy y (List.mem_singleton_self y) rfl
    exact Function.update_of_ne hne n L.next

end Links

/-- A list met from its head starts there. -/
theorem Segment.head {α : Type} {next : α → Option α} {s : Option α} {xs : List α} (h : Segment next s xs none) :
    s = xs.head? := by
  cases xs with
  | nil => exact h
  | cons x xs => exact h.1

/-- The links hold the list `xs`. -/
structure Linked {α : Type} (L : Links α) (xs : List α) : Prop where
  nodup : xs.Nodup
  forward : Segment L.next L.head xs none
  backward : Segment L.prev L.tail xs.reverse none

namespace Linked

variable {α : Type} {L : Links α} {xs as bs : List α} {a b e : α}

theorem nil (hhead : L.head = none) (htail : L.tail = none) : Linked L [] := ⟨List.nodup_nil, hhead, htail⟩

theorem mirror (h : Linked L xs) : Linked L.mirror xs.reverse where
  nodup := List.nodup_reverse.mpr h.nodup
  forward := h.backward
  backward := by
    rw [List.reverse_reverse]
    exact h.forward

theorem tail (h : Linked L xs) : L.tail = xs.getLast? := by
  rw [h.backward.head, List.head?_reverse]

theorem next_eq (h : Linked L (as ++ e :: bs)) : L.next e = bs.head? := by
  obtain ⟨t, -, hbs⟩ := h.forward.split
  exact hbs.2.head

theorem mirror_middle (h : Linked L (as ++ e :: bs)) : Linked L.mirror (bs.reverse ++ e :: as.reverse) := by
  have hmirror := h.mirror
  rw [List.reverse_append, List.reverse_cons, List.append_assoc, List.singleton_append] at hmirror
  exact hmirror

theorem prev_eq (h : Linked L (as ++ e :: bs)) : L.prev e = as.getLast? := by
  rw [← List.head?_reverse]
  exact h.mirror_middle.next_eq

theorem prev_ne (h : Linked L (as ++ e :: bs)) : L.prev e ≠ some e := by
  rw [h.prev_eq]
  intro hlast
  exact (List.nodup_append.mp h.nodup).2.2 e (List.mem_of_getLast? hlast) e List.mem_cons_self rfl

theorem next_ne (h : Linked L (as ++ e :: bs)) : L.next e ≠ some e := by
  rw [h.next_eq]
  intro hhead
  have hmem : e ∈ bs := List.mem_of_head? hhead
  exact (List.nodup_cons.mp (List.nodup_append.mp h.nodup).2.1).1 hmem

variable [DecidableEq α]

/-- What stands behind `e` keeps its pointers when the pointer to `e` changes. -/
theorem behind (h : Linked L (as ++ e :: bs)) {n : Option α} :
    Segment (L.setNext (L.prev e) n).next (L.next e) bs none := by
  obtain ⟨t, -, hbs⟩ := h.forward.split
  refine hbs.2.congr ?_
  intro y hy
  refine Links.setNext_next_of_ne ?_
  rw [h.prev_eq]
  intro hlast
  exact (List.nodup_append.mp h.nodup).2.2 y (List.mem_of_getLast? hlast) y (List.mem_cons_of_mem e hy) rfl

theorem remove_eq (h : Linked L (as ++ e :: bs)) :
    L.remove e = (L.setNext (L.prev e) (L.next e)).setPrev (L.next e) (L.prev e) := by
  rw [Links.remove, Links.setNext_next_of_ne h.prev_ne, Links.setNext_prev]

theorem remove_mirror (h : Linked L (as ++ e :: bs)) : (L.remove e).mirror = L.mirror.remove e := by
  rw [h.remove_eq, h.mirror_middle.remove_eq, Links.setPrev_mirror]
  change ((L.setNext (L.prev e) (L.next e)).mirror).setNext (L.next e) (L.prev e) =
    (L.mirror.setNext (L.next e) (L.prev e)).setPrev (L.prev e) (L.next e)
  cases L.prev e <;> cases L.next e <;> rfl

theorem remove_forward (h : Linked L (as ++ e :: bs)) :
    Segment (L.remove e).next (L.remove e).head (as ++ bs) none := by
  rw [h.remove_eq, Links.setPrev_next, Links.setPrev_head]
  refine Segment.append ?_ h.behind
  rw [h.prev_eq]
  exact Links.setNext_leads h.forward (List.nodup_append.mp h.nodup).1

theorem remove (h : Linked L (as ++ e :: bs)) : Linked (L.remove e) (as ++ bs) where
  nodup := (List.nodup_middle.mp h.nodup).of_cons
  forward := h.remove_forward
  backward := by
    have hback := h.mirror_middle.remove_forward
    rw [← h.remove_mirror, ← List.reverse_append] at hback
    exact hback

theorem setCell_next_of_ne {p n : Option α} (h : b ≠ a) : (L.setCell a p n).next b = L.next b := by
  simp [Links.setCell, Function.update_of_ne h]

/-- Cells that are not written keep their place. -/
theorem setCell_segment {s t p n : Option α} (h : Segment L.next s xs t) (hnew : e ∉ xs) :
    Segment (L.setCell e p n).next s xs t :=
  h.congr fun _ hx => setCell_next_of_ne fun hxe => hnew (hxe ▸ hx)

/-- The pointers of a cell outside the list are free. -/
theorem setCell (h : Linked L xs) {p n : Option α} (hnew : e ∉ xs) : Linked (L.setCell e p n) xs where
  nodup := h.nodup
  forward := setCell_segment h.forward hnew
  backward := setCell_segment (L := L.mirror) (p := n) (n := p) h.backward
    fun hmem => hnew (List.mem_reverse.mp hmem)

theorem pushFront_forward (h : Linked L xs) (hnew : e ∉ xs) :
    Segment (L.pushFront e).next (L.pushFront e).head (e :: xs) none := by
  have hnext : (L.pushFront e).next = (L.setCell e none L.head).next := Links.setPrev_next
  have hself : (L.setCell e none L.head).next e = L.head := Function.update_self ..
  refine ⟨rfl, ?_⟩
  rw [hnext, hself]
  exact setCell_segment h.forward hnew

theorem pushFront_backward (h : Linked L xs) (hnew : e ∉ xs) :
    Segment (L.pushFront e).prev (L.pushFront e).tail (e :: xs).reverse none := by
  have hhead : L.head ≠ some e := by
    rw [h.forward.head]
    exact fun hmem => hnew (List.mem_of_head? hmem)
  have hxs : Segment (L.mirror.setCell e L.head none).next L.mirror.head (xs.reverse ++ []) none := by
    rw [List.append_nil]
    exact setCell_segment h.backward fun hmem => hnew (List.mem_reverse.mp hmem)
  have hled := Links.setNext_leads (n := some e) hxs (List.nodup_reverse.mpr h.nodup)
  have hmirror : L.mirror.setCell e L.head none = (L.setCell e none L.head).mirror := rfl
  rw [hmirror, List.getLast?_reverse, ← h.forward.head, ← Links.setPrev_mirror] at hled
  have hlast : (L.pushFront e).prev e = none :=
    (Links.setPrev_prev_of_ne hhead).trans (Function.update_self ..)
  rw [List.reverse_cons]
  exact Segment.append hled ⟨rfl, hlast⟩

theorem pushFront (h : Linked L xs) (hnew : e ∉ xs) : Linked (L.pushFront e) (e :: xs) where
  nodup := List.nodup_cons.mpr ⟨hnew, h.nodup⟩
  forward := h.pushFront_forward hnew
  backward := h.pushFront_backward hnew

theorem rename_eq (h : Linked L (as ++ a :: bs)) :
    L.rename a b =
      ((L.setNext (L.prev a) (some b)).setPrev (L.next a) (some b)).setCell b (L.prev a) (L.next a) := by
  rw [Links.rename, Links.setNext_next_of_ne h.prev_ne, Links.setPrev_prev_of_ne h.next_ne, Links.setNext_prev,
    Links.setPrev_next, Links.setNext_next_of_ne h.prev_ne]

theorem rename_mirror (h : Linked L (as ++ a :: bs)) : (L.rename a b).mirror = L.mirror.rename a b := by
  rw [h.rename_eq, h.mirror_middle.rename_eq]
  change (((L.setNext (L.prev a) (some b)).setPrev (L.next a) (some b)).mirror).setCell b (L.next a) (L.prev a) =
    ((L.mirror.setNext (L.next a) (some b)).setPrev (L.prev a) (some b)).setCell b (L.next a) (L.prev a)
  cases L.prev a <;> cases L.next a <;> rfl

theorem rename_forward (h : Linked L (as ++ a :: bs)) (has : b ∉ as) (hbs : b ∉ bs) :
    Segment (L.rename a b).next (L.rename a b).head (as ++ b :: bs) none := by
  have hled := Links.setNext_leads (n := some b) h.forward (List.nodup_append.mp h.nodup).1
  rw [← h.prev_eq] at hled
  have hself : (L.rename a b).next b = L.next a := by
    rw [h.rename_eq]
    exact Function.update_self ..
  have hnext : ∀ (s t : Option α) (ys : List α), b ∉ ys →
      Segment (L.setNext (L.prev a) (some b)).next s ys t → Segment (L.rename a b).next s ys t := by
    intro s t ys hys hseg
    rw [h.rename_eq]
    refine setCell_segment ?_ hys
    rw [Links.setPrev_next]
    exact hseg
  have hhead : (L.rename a b).head = (L.setNext (L.prev a) (some b)).head := by
    rw [h.rename_eq]
    exact Links.setPrev_head
  rw [hhead]
  refine (hnext _ _ as has hled).append ⟨rfl, ?_⟩
  rw [hself]
  exact hnext _ _ bs hbs h.behind

theorem rename (h : Linked L (as ++ a :: bs)) (has : b ∉ as) (hbs : b ∉ bs) : Linked (L.rename a b) (as ++ b :: bs) where
  nodup := List.nodup_middle.mpr (List.nodup_cons.mpr
    ⟨by simp [has, hbs], (List.nodup_middle.mp h.nodup).of_cons⟩)
  forward := h.rename_forward has hbs
  backward := by
    have hback := h.mirror_middle.rename_forward (b := b) (fun hmem => hbs (List.mem_reverse.mp hmem))
      (fun hmem => has (List.mem_reverse.mp hmem))
    rw [← h.rename_mirror] at hback
    rw [List.reverse_append, List.reverse_cons, List.append_assoc]
    exact hback

end Linked

end Kvdb
