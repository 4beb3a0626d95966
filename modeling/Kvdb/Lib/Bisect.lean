import Mathlib.Data.List.Basic

/-! # Binary search for the first element with a property

The source searches sorted arrays by two loops that differ in how they round the middle; `mid` is
that choice. The loop keeps an interval below which no element has the property and from whose end
on every element has it. -/
namespace Kvdb.Bisect
set_option autoImplicit false

variable {α : Type} (p : α → Bool) (mid : ℕ → ℕ → ℕ)

def bisect (xs : List α) : ℕ → ℕ → ℕ → ℕ
  | 0, lo, _ => lo
  | fuel + 1, lo, hi =>
    if lo < hi then
      match xs[mid lo hi]? with
      | some x => if p x then bisect xs fuel lo (mid lo hi) else bisect xs fuel (mid lo hi + 1) hi
      | none => lo
    else lo

/-- The middle lies in the interval. -/
def Middle : Prop := ∀ lo hi, lo < hi → lo ≤ mid lo hi ∧ mid lo hi < hi

/-- Once an element has the property, all later ones have it. -/
def Monotone (xs : List α) : Prop := xs.Pairwise fun a b => p a = true → p b = true

/-- `r` splits the list into the elements without the property and those with it. -/
def Splits (xs : List α) (r : ℕ) : Prop :=
  (∀ i x, i < r → xs[i]? = some x → p x = false) ∧ (∀ i x, r ≤ i → xs[i]? = some x → p x = true)

variable {p mid}

theorem Monotone.getElem {xs : List α} (h : Monotone p xs) {i j : ℕ} {x y : α} (hij : i ≤ j)
    (hx : xs[i]? = some x) (hy : xs[j]? = some y) (hp : p x = true) : p y = true := by
  rcases Nat.lt_or_eq_of_le hij with hlt | rfl
  · obtain ⟨hi, rfl⟩ := List.getElem?_eq_some_iff.mp hx
    obtain ⟨hj, rfl⟩ := List.getElem?_eq_some_iff.mp hy
    exact List.pairwise_iff_getElem.mp h i j hi hj hlt hp
  · rw [hx] at hy
    cases hy
    exact hp

theorem bisect_splits (hmid : Middle mid) {xs : List α} (hmono : Monotone p xs) (fuel lo hi : ℕ)
    (hfuel : hi ≤ lo + fuel) (hle : lo ≤ hi) (hlen : hi ≤ xs.length)
    (hlow : ∀ i x, i < lo → xs[i]? = some x → p x = false)
    (hhigh : ∀ i x, hi ≤ i → xs[i]? = some x → p x = true) :
    Splits p xs (bisect p mid xs fuel lo hi) := by
  induction fuel generalizing lo hi with
  | zero =>
    have heq : lo = hi := by omega
    subst heq
    exact ⟨hlow, hhigh⟩
  | succ fuel ih =>
    unfold bisect
    split
    · next hlt =>
      obtain ⟨hge, hmlt⟩ := hmid lo hi hlt
      have hin : mid lo hi < xs.length := by omega
      rw [List.getElem?_eq_getElem hin]
      simp only []
      split
      · next hpx =>
        refine ih lo (mid lo hi) (by omega) hge (by omega) hlow ?_
        intro i x hi' hx
        exact hmono.getElem hi' (List.getElem?_eq_getElem hin) hx hpx
      · next hpx =>
        refine ih (mid lo hi + 1) hi (by omega) (by omega) hlen ?_ hhigh
        intro i x hi' hx
        by_contra hne
        exact hpx (hmono.getElem (by omega) hx (List.getElem?_eq_getElem hin) (by simpa using hne))
    · have heq : lo = hi := by omega
      subst heq
      exact ⟨hlow, hhigh⟩

/-- The search over the whole list splits it. -/
theorem bisect_all (hmid : Middle mid) {xs : List α} (hmono : Monotone p xs) :
    Splits p xs (bisect p mid xs xs.length 0 xs.length) := by
  refine bisect_splits hmid hmono _ _ _ (by omega) (Nat.zero_le _) (Nat.le_refl _) ?_ ?_
  · intro i x hi
    omega
  · intro i x hi hx
    have := (List.getElem?_eq_some_iff.mp hx).1
    omega

theorem bisect_le (hmid : Middle mid) (xs : List α) (fuel lo hi : ℕ) (hle : lo ≤ hi) :
    bisect p mid xs fuel lo hi ≤ hi := by
  induction fuel generalizing lo hi with
  | zero => exact hle
  | succ fuel ih =>
    unfold bisect
    split
    · next hlt =>
      obtain ⟨hge, hmlt⟩ := hmid lo hi hlt
      split
      · split
        · exact Nat.le_trans (ih lo (mid lo hi) hge) (Nat.le_of_lt hmlt)
        · exact ih (mid lo hi + 1) hi hmlt
      · exact hle
    · exact hle

/-- The search in a mapped list. -/
theorem bisect_map {β : Type} (f : β → α) (xs : List β) (fuel lo hi : ℕ) :
    bisect p mid (xs.map f) fuel lo hi = bisect (fun x => p (f x)) mid xs fuel lo hi := by
  induction fuel generalizing lo hi with
  | zero => rfl
  | succ fuel ih =>
    unfold bisect
    rw [List.getElem?_map]
    cases xs[mid lo hi]? with
    | none => rfl
    | some x => simp only [Option.map_some, ih]

theorem Splits.take {xs : List α} {r : ℕ} (h : Splits p xs r) : ∀ x ∈ xs.take r, p x = false := by
  intro x hx
  obtain ⟨i, hi⟩ := List.getElem?_of_mem hx
  rw [List.getElem?_take] at hi
  split at hi
  · next hlt => exact h.1 i x hlt hi
  · cases hi

theorem Splits.drop {xs : List α} {r : ℕ} (h : Splits p xs r) : ∀ x ∈ xs.drop r, p x = true := by
  intro x hx
  obtain ⟨i, hi⟩ := List.getElem?_of_mem hx
  rw [List.getElem?_drop] at hi
  exact h.2 (r + i) x (Nat.le_add_right r i) hi

/-! ## Splitting by a walk -/

/-- As many elements are walked over as stand before the split. -/
theorem Splits.length_takeWhile {xs : List α} {r : ℕ} (h : Splits p xs r) (hr : r ≤ xs.length) :
    (xs.takeWhile fun x => !p x).length = r := by
  have hfront : ∀ x ∈ xs.take r, (!p x) = true := fun x hx => by rw [h.take x hx]; rfl
  conv_lhs => rw [← List.take_append_drop r xs]
  rw [List.takeWhile_append_of_pos hfront, List.length_append, List.length_take, Nat.min_eq_left hr]
  cases hdrop : xs.drop r with
  | nil => rfl
  | cons y ys =>
    have hy := h.drop y (by rw [hdrop]; exact List.mem_cons_self)
    rw [List.takeWhile_cons_of_neg (by simp [hy])]
    rfl

theorem dropWhile_eq_filter {q : α → Bool} {xs : List α}
    (h : xs.Pairwise fun a b => q a = false → q b = false) : xs.dropWhile q = xs.filter fun x => !q x := by
  induction xs with
  | nil => rfl
  | cons x xs ih =>
    obtain ⟨hx, hxs⟩ := List.pairwise_cons.mp h
    cases hq : q x with
    | true => rw [List.dropWhile_cons_of_pos hq, List.filter_cons_of_neg (by simp [hq]), ih hxs]
    | false =>
      have hall : ∀ y ∈ x :: xs, (!q y) = true := by
        intro y hy
        rcases List.mem_cons.mp hy with rfl | hy
        · simp [hq]
        · simp [hx y hy hq]
      rw [List.dropWhile_cons_of_neg (by simp [hq]), List.filter_eq_self.mpr hall]

theorem takeWhile_eq_filter {q : α → Bool} {xs : List α}
    (h : xs.Pairwise fun a b => q b = true → q a = true) : xs.takeWhile q = xs.filter q := by
  induction xs with
  | nil => rfl
  | cons x xs ih =>
    obtain ⟨hx, hxs⟩ := List.pairwise_cons.mp h
    cases hq : q x with
    | true => rw [List.takeWhile_cons_of_pos hq, List.filter_cons_of_pos hq, ih hxs]
    | false =>
      have hnone : ∀ y ∈ x :: xs, ¬ q y = true := by
        intro y hy
        rcases List.mem_cons.mp hy with rfl | hy
        · simp [hq]
        · intro hqy
          rw [hx y hy hqy] at hq
          cases hq
      rw [List.takeWhile_cons_of_neg (by simp [hq]), List.filter_eq_nil_iff.mpr hnone]

end Kvdb.Bisect
