import Mathlib.Logic.Basic
import Mathlib.Data.Option.Basic

/-! # Refinement of partial functions

A computation on a concrete state refines one on an abstract state if it has a result just when the other has one, and then
a result that stands for the other and keeps an invariant. -/
namespace Kvdb
set_option autoImplicit false

variable {α β γ δ : Type}

/-- `x` has a result just when `y` has, `view` leads from the one to the other, and the result of `x` has the property. -/
structure Refines (view : α → β) (P : α → Prop) (x : Option α) (y : Option β) : Prop where
  same : x.map view = y
  keeps : ∀ a, x = some a → P a

namespace Refines

variable {view : α → β} {view' : γ → δ} {P P' : α → Prop} {Q : γ → Prop} {x : Option α} {y : Option β}

theorem pure {a : α} {b : β} (hview : view a = b) (hP : P a) : Refines view P (some a) (some b) :=
  ⟨congrArg some hview, fun _ hc => Option.some_inj.mp hc ▸ hP⟩

theorem none : Refines view P Option.none Option.none := ⟨rfl, nofun⟩

theorem mono (h : Refines view P x y) (hPP' : ∀ a, P a → P' a) : Refines view P' x y :=
  ⟨h.same, fun a ha => hPP' a (h.keeps a ha)⟩

theorem bind {f : α → Option γ} {g : β → Option δ} (h : Refines view P x y)
    (hf : ∀ a, P a → Refines view' Q (f a) (g (view a))) : Refines view' Q (x.bind f) (y.bind g) := by
  cases x with
  | none =>
    rw [← h.same]
    exact none
  | some a =>
    rw [← h.same]
    exact hf a (h.keeps a rfl)

/-- The abstract result is made of one that the rest goes on with. -/
theorem bind_of_map {ε : Type} {make : ε → β} {z : Option ε} {f : α → Option γ} {g : ε → Option δ}
    (h : Refines view P x (z.map make)) (hf : ∀ a c, P a → make c = view a → Refines view' Q (f a) (g c)) :
    Refines view' Q (x.bind f) (z.bind g) := by
  cases z with
  | none =>
    rw [Option.map_eq_none_iff.mp h.same]
    exact none
  | some c =>
    obtain ⟨a, rfl, hview⟩ := Option.map_eq_some_iff.mp h.same
    exact hf a c (h.keeps a rfl) hview.symm

theorem map {f : α → γ} {g : β → δ} (h : Refines view P x y) (hview : ∀ a, P a → view' (f a) = g (view a))
    (hQ : ∀ a, P a → Q (f a)) : Refines view' Q (x.map f) (y.map g) := by
  rw [Option.map_eq_bind, Option.map_eq_bind]
  exact h.bind fun a ha => pure (hview a ha) (hQ a ha)

/-- The two have results or none together. -/
theorem cases (h : Refines view P x y) :
    (x = Option.none ∧ y = Option.none) ∨ ∃ a, x = some a ∧ y = some (view a) ∧ P a := by
  cases hx : x with
  | none => exact .inl ⟨rfl, by rw [← h.same, hx, Option.map_none]⟩
  | some a => exact .inr ⟨a, rfl, by rw [← h.same, hx, Option.map_some], h.keeps a hx⟩

end Refines

end Kvdb
