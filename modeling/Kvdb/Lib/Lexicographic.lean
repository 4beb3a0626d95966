import Mathlib.Data.List.Lex
import Mathlib.Order.Cover

/-! # The lists with a prefix, as an interval

In the lexicographic order the lists that begin with `stem ++ c :: tops` are those from this list on up to `stem ++ [d]`,
when `tops` are greatest elements and nothing is between `c` and `d`. Two lists are compared by their fronts of the
shorter length, and then by their lengths. -/
namespace Kvdb.Lexicographic
set_option autoImplicit false

variable {α : Type} [LinearOrder α]

/-- From a list of greatest elements on. -/
theorem not_lt_iff_isPrefix {tops : List α} (htops : ∀ t ∈ tops, IsTop t) (xs : List α) :
    ¬ xs < tops ↔ tops <+: xs := by
  induction tops generalizing xs with
  | nil => exact iff_of_true (List.not_lt_nil xs) List.nil_prefix
  | cons t tops ih =>
    cases xs with
    | nil => exact iff_of_false (not_not_intro (List.nil_lt_cons t tops)) (by simp)
    | cons x xs =>
      have hx := htops t List.mem_cons_self x
      have hrest := ih (fun t' ht' => htops t' (List.mem_cons_of_mem t ht')) xs
      rw [List.cons_lt_cons_iff, List.cons_prefix_cons, ← hrest]
      refine ⟨fun h => ?_, ?_⟩
      · have heq : x = t := le_antisymm hx (not_lt.mp fun hlt => h (.inl hlt))
        exact ⟨heq.symm, fun hlt => h (.inr ⟨heq, hlt⟩)⟩
      · rintro ⟨rfl, hnot⟩ (hlt | ⟨-, hlt⟩)
        · exact lt_irrefl _ hlt
        · exact hnot hlt

theorem interval_iff_isPrefix {c d : α} (hcover : c ⋖ d) {tops : List α} (htops : ∀ t ∈ tops, IsTop t) (stem xs : List α) :
    ¬ xs < stem ++ c :: tops ∧ xs < stem ++ [d] ↔ stem ++ c :: tops <+: xs := by
  induction stem generalizing xs with
  | nil =>
    rw [List.nil_append, List.nil_append]
    cases xs with
    | nil => exact iff_of_false (fun h => h.1 (List.nil_lt_cons c tops)) (by simp)
    | cons x xs =>
      rw [List.cons_lt_cons_iff, List.cons_lt_cons_iff, List.cons_prefix_cons, ← not_lt_iff_isPrefix htops]
      refine ⟨?_, ?_⟩
      · rintro ⟨hnot, hd | ⟨-, hnil⟩⟩
        · have hle : x ≤ c := not_lt.mp fun hlt => hcover.2 hlt hd
          have heq : x = c := le_antisymm hle (not_lt.mp fun hlt => hnot (.inl hlt))
          exact ⟨heq.symm, fun hlt => hnot (.inr ⟨heq, hlt⟩)⟩
        · exact absurd hnil (List.not_lt_nil xs)
      · rintro ⟨rfl, hnot⟩
        refine ⟨?_, .inl hcover.lt⟩
        rintro (hlt | ⟨-, hlt⟩)
        · exact lt_irrefl _ hlt
        · exact hnot hlt
  | cons a stem ih =>
    cases xs with
    | nil => exact iff_of_false (fun h => h.1 (List.nil_lt_cons a _)) (by simp)
    | cons x xs =>
      rw [List.cons_append, List.cons_append, List.cons_lt_cons_iff, List.cons_lt_cons_iff, List.cons_prefix_cons, ← ih]
      refine ⟨?_, ?_⟩
      · rintro ⟨hnot, hlt | ⟨heq, hlt⟩⟩
        · exact absurd (.inl hlt) hnot
        · exact ⟨heq.symm, fun hbelow => hnot (.inr ⟨heq, hbelow⟩), hlt⟩
      · rintro ⟨rfl, hnot, hlt⟩
        refine ⟨?_, .inr ⟨rfl, hlt⟩⟩
        rintro (hbelow | ⟨-, hbelow⟩)
        · exact lt_irrefl _ hbelow
        · exact hnot hbelow

theorem lt_iff_take {m : ℕ} {xs ys : List α} (hm : m = min xs.length ys.length) :
    xs < ys ↔ xs.take m < ys.take m ∨ xs.take m = ys.take m ∧ xs.length < ys.length := by
  induction xs generalizing m ys with
  | nil =>
    have hzero : m = 0 := by rw [hm, List.length_nil, Nat.zero_min]
    subst hzero
    cases ys with
    | nil => simp
    | cons y ys => simp
  | cons x xs ih =>
    cases ys with
    | nil =>
      have hzero : m = 0 := by rw [hm, List.length_nil, Nat.min_zero]
      subst hzero
      simp
    | cons y ys =>
      have hsucc : m = min xs.length ys.length + 1 := by
        rw [hm, List.length_cons, List.length_cons]
        omega
      subst hsucc
      rw [List.take_succ_cons, List.take_succ_cons, List.cons_lt_cons_iff, List.cons_lt_cons_iff, ih rfl,
        List.cons_eq_cons, List.length_cons, List.length_cons, Nat.add_lt_add_iff_right]
      tauto

end Kvdb.Lexicographic
