import Mathlib.Data.List.Basic

/-! # Runs of a labelled transition system

A system is a partial step function `step : σ → α → Option σ`: the label says which thread moves
and what it does, `none` says that the move is not enabled. `Run step ok s acts t` is an execution
of the labels `acts` from `s` to `t` in which every step is taken in a state that meets `ok`. An
invariant of all runs is proved from one step (`Run.invariant`), and a concrete run is found by
evaluation (`Run.exists_of_checked`). -/
namespace Kvdb.Runs
set_option autoImplicit false

-- Constants for the instances that the numbers of one or two threads use.
instance neZeroOne : @NeZero ℕ Zero.ofOfNat0 1 := ⟨Nat.one_ne_zero⟩
instance neZeroTwo : @NeZero ℕ Zero.ofOfNat0 2 := ⟨Nat.succ_ne_zero 1⟩

variable {σ α : Type}

/-- `acts` leads from `s` to `t`, and each step meets `ok` in the state it is taken in. -/
inductive Run (step : σ → α → Option σ) (ok : σ → α → Prop) : σ → List α → σ → Prop
  | nil (s : σ) : Run step ok s [] s
  | cons {s t u : σ} {a : α} {acts : List α} (hok : ok s a) (hstep : step s a = some t)
      (hrun : Run step ok t acts u) : Run step ok s (a :: acts) u

/-- The condition that no step has to meet: every enabled step may be taken. -/
def anyStep (_ : σ) (_ : α) : Prop := True

instance decidableAnyStep (s : σ) (a : α) : Decidable (anyStep s a) := isTrue trivial

variable {step : σ → α → Option σ} {ok ok' : σ → α → Prop}

theorem Run.append {s t u : σ} {as bs : List α} (h : Run step ok s as t) (h' : Run step ok t bs u) :
    Run step ok s (as ++ bs) u := by
  induction h with
  | nil s => exact h'
  | cons hok hstep _ ih => exact .cons hok hstep (ih h')

theorem Run.mono {s t : σ} {acts : List α} (h : Run step ok s acts t) (himp : ∀ s a, ok s a → ok' s a) :
    Run step ok' s acts t := by
  induction h with
  | nil s => exact .nil s
  | cons hok hstep _ ih => exact .cons (himp _ _ hok) hstep ih

/-- The invariant rule: what one allowed step preserves, every run preserves. -/
theorem Run.invariant {I : σ → Prop}
    (hpres : ∀ s a t, ok s a → step s a = some t → I s → I t)
    {s t : σ} {acts : List α} (h : Run step ok s acts t) (hs : I s) : I t := by
  induction h with
  | nil s => exact hs
  | cons hok hstep _ ih => exact ih (hpres _ _ _ hok hstep hs)

/-- Where a step keeps `I` exactly if it meets `ok`, a run stays in `I` exactly if all its steps meet `ok`. -/
theorem Run.stays_iff {I : σ → Prop} (hiff : ∀ s a t, step s a = some t → I s → (I t ↔ ok s a))
    {s t : σ} {acts : List α} (h : Run step anyStep s acts t) (hs : I s) :
    (∀ as bs u, acts = as ++ bs → Run step anyStep s as u → I u) ↔ Run step ok s acts t := by
  induction h with
  | nil s =>
    refine ⟨fun _ => .nil s, ?_⟩
    intro _ as bs u heq hrun
    rw [(List.append_eq_nil_iff.mp heq.symm).1] at hrun
    cases hrun
    exact hs
  | @cons s m t a acts _ hstep _ ih =>
    refine ⟨?_, ?_⟩
    · intro hall
      have hm : I m := hall [a] acts m rfl (.cons trivial hstep (.nil m))
      refine .cons ((hiff s a m hstep hs).mp hm) hstep ((ih hm).mp ?_)
      intro as bs u heq hrun
      exact hall (a :: as) bs u (congrArg (a :: ·) heq) (.cons trivial hstep hrun)
    · intro hok as bs u heq hrun
      cases hok with
      | @cons _ m' _ _ _ hfirst hstep' hrest =>
        obtain rfl : m = m' := Option.some.inj (hstep.symm.trans hstep')
        have hm : I m := (hiff s a m hstep hs).mpr hfirst
        cases hrun with
        | nil _ => exact hs
        | @cons _ m' _ b as _ hstep' hrest' =>
          obtain ⟨rfl, htail⟩ := List.cons.inj heq
          obtain rfl : m = m' := Option.some.inj (hstep.symm.trans hstep')
          exact (ih hm).mpr hrest as bs u htail hrest'

/-- The invariant rule for a property of the state and of the labels so far. -/
theorem Run.invariant_trace {I : List α → σ → Prop}
    (hpres : ∀ acts s a t, ok s a → step s a = some t → I acts s → I (acts ++ [a]) t)
    {s t : σ} {acts : List α} (h : Run step ok s acts t) (hs : I [] s) : I acts t := by
  have hfrom : ∀ before, I before s → I (before ++ acts) t := by
    clear hs
    induction h with
    | nil s =>
      intro before hbefore
      rw [List.append_nil]
      exact hbefore
    | cons hok hstep _ ih =>
      intro before hbefore
      have hrest := ih _ (hpres before _ _ _ hok hstep hbefore)
      rw [List.append_assoc] at hrest
      exact hrest
  exact hfrom [] hs

/-- Execute `acts` and check `ok` before each step. -/
def checked (step : σ → α → Option σ) (ok : σ → α → Prop) [∀ s a, Decidable (ok s a)] :
    σ → List α → Option σ
  | s, [] => some s
  | s, a :: acts => if ok s a then (step s a).bind fun t => checked step ok t acts else none

theorem Run.of_checked [∀ s a, Decidable (ok s a)] (s t : σ) (acts : List α)
    (h : checked step ok s acts = some t) : Run step ok s acts t := by
  induction acts generalizing s with
  | nil =>
    simp only [checked, Option.some.injEq] at h
    subst h
    exact Run.nil s
  | cons a acts ih =>
    simp only [checked] at h
    split at h
    · next hok =>
      obtain ⟨u, hu, hrest⟩ := Option.bind_eq_some_iff.mp h
      exact Run.cons hok hu (ih u hrest)
    · cases h

/-- A run whose end has a property, found by one evaluation. -/
theorem Run.exists_of_checked [∀ s a, Decidable (ok s a)] {P : σ → Prop} [DecidablePred P] {s : σ} {acts : List α}
    (h : (checked step ok s acts).any (fun t => decide (P t)) = true) : ∃ t, Run step ok s acts t ∧ P t := by
  obtain ⟨t, ht, hP⟩ := (Option.any_eq_true _ _).mp h
  exact ⟨t, Run.of_checked s t acts ht, of_decide_eq_true hP⟩

/-- A run found by evaluation, to the state it was evaluated to. -/
theorem Run.of_isSome [∀ s a, Decidable (ok s a)] (s : σ) (acts : List α)
    (h : (checked step ok s acts).isSome = true) : Run step ok s acts ((checked step ok s acts).get h) :=
  Run.of_checked s _ acts (Option.some_get h).symm

end Kvdb.Runs
