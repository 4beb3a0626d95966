import Mathlib.Data.List.Basic

/-! # Loops that need not end

A `while` loop over a state, run with so many rounds at most, and a loop that gives out an element in every round. What
a loop ends in does not depend on the number of rounds it is given (`Ends`, `Yields`); a loop that does not end ends in
nothing. -/
namespace Kvdb.Loop
set_option autoImplicit false

variable {σ β : Type} (go : σ → Bool) (out : σ → β) (step : σ → σ)

/-- `while (go) step`. -/
def run : ℕ → σ → Option σ
  | 0, _ => none
  | fuel + 1, s => if go s then run fuel (step s) else some s

/-- `while (go) { out; step }`. -/
def collect : ℕ → σ → Option (List β)
  | 0, _ => none
  | fuel + 1, s => if go s then (collect fuel (step s)).map (out s :: ·) else some []

/-- The loop from `s` ends in `s'`. -/
def Ends (s s' : σ) : Prop := ∃ fuel, run go step fuel s = some s'

/-- The loop from `s` ends after it has given out `ys`. -/
def Yields (s : σ) (ys : List β) : Prop := ∃ fuel, collect go out step fuel s = some ys

variable {go out step} {s s' : σ} {ys ys' : List β}

theorem ends_of_stop (h : go s = false) : Ends go step s s' ↔ s' = s := by
  refine ⟨?_, ?_⟩
  · rintro ⟨fuel, hrun⟩
    cases fuel with
    | zero => cases hrun
    | succ fuel =>
      rw [run, if_neg (by simp [h])] at hrun
      exact (Option.some.inj hrun).symm
  · rintro rfl
    exact ⟨1, by rw [run, if_neg (by simp [h])]⟩

theorem ends_of_go (h : go s = true) : Ends go step s s' ↔ Ends go step (step s) s' := by
  refine ⟨?_, ?_⟩
  · rintro ⟨fuel, hrun⟩
    cases fuel with
    | zero => cases hrun
    | succ fuel =>
      rw [run, if_pos h] at hrun
      exact ⟨fuel, hrun⟩
  · rintro ⟨fuel, hrun⟩
    exact ⟨fuel + 1, by rw [run, if_pos h, hrun]⟩

theorem yields_of_stop (h : go s = false) : Yields go out step s ys ↔ ys = [] := by
  refine ⟨?_, ?_⟩
  · rintro ⟨fuel, hrun⟩
    cases fuel with
    | zero => cases hrun
    | succ fuel =>
      rw [collect, if_neg (by simp [h])] at hrun
      exact (Option.some.inj hrun).symm
  · rintro rfl
    exact ⟨1, by rw [collect, if_neg (by simp [h])]⟩

theorem yields_of_go (h : go s = true) :
    Yields go out step s ys ↔ ∃ zs, ys = out s :: zs ∧ Yields go out step (step s) zs := by
  refine ⟨?_, ?_⟩
  · rintro ⟨fuel, hrun⟩
    cases fuel with
    | zero => cases hrun
    | succ fuel =>
      rw [collect, if_pos h] at hrun
      obtain ⟨zs, hzs, rfl⟩ := Option.map_eq_some_iff.mp hrun
      exact ⟨zs, rfl, fuel, hzs⟩
  · rintro ⟨zs, rfl, fuel, hrun⟩
    exact ⟨fuel + 1, by rw [collect, if_pos h, hrun]; rfl⟩

/-- A loop ends in one state only. -/
theorem Ends.unique {s'' : σ} (h : Ends go step s s') (h' : Ends go step s s'') : s' = s'' := by
  obtain ⟨fuel, hrun⟩ := h
  induction fuel generalizing s with
  | zero => cases hrun
  | succ fuel ih =>
    rw [run] at hrun
    split at hrun
    · next hgo => exact ih ((ends_of_go hgo).mp h') hrun
    · next hgo =>
      rw [(ends_of_stop (by simpa using hgo)).mp h']
      exact (Option.some.inj hrun).symm

theorem Yields.unique (h : Yields go out step s ys) (h' : Yields go out step s ys') : ys = ys' := by
  obtain ⟨fuel, hrun⟩ := h
  induction fuel generalizing s ys ys' with
  | zero => cases hrun
  | succ fuel ih =>
    rw [collect] at hrun
    split at hrun
    · next hgo =>
      obtain ⟨zs, hzs, rfl⟩ := Option.map_eq_some_iff.mp hrun
      obtain ⟨zs', rfl, hzs'⟩ := (yields_of_go hgo).mp h'
      rw [ih hzs' hzs]
    · next hgo =>
      rw [(yields_of_stop (by simpa using hgo)).mp h']
      exact (Option.some.inj hrun).symm

end Kvdb.Loop
