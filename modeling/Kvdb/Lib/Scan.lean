import Mathlib.Data.List.Basic

/-! # Scanning a list from the front

A scanner reads one item at a time from the front of a list and keeps a state; it stops at the first
position at which it can read nothing. Every step shortens the list, so the scan needs no more steps
than the list has elements. `run_of_step` and `run_of_stop` replace the loop in proofs. -/
namespace Kvdb.Scan
set_option autoImplicit false

variable {β σ : Type}

/-- The first `n` elements and what follows them, if there are that many. -/
def readN (n : ℕ) (bs : List β) : Option (List β × List β) :=
  if n ≤ bs.length then some (bs.take n, bs.drop n) else none

@[simp] theorem readN_append (xs ys : List β) : readN xs.length (xs ++ ys) = some (xs, ys) := by
  simp [readN]

theorem readN_append_of_length {n : ℕ} {xs : List β} (h : xs.length = n) (ys : List β) :
    readN n (xs ++ ys) = some (xs, ys) := by
  subst h
  exact readN_append xs ys

theorem readN_eq_none {n : ℕ} {bs : List β} (h : bs.length < n) : readN n bs = none :=
  if_neg (Nat.not_le_of_lt h)

theorem readN_eq_some {n : ℕ} {bs xs ys : List β} (h : readN n bs = some (xs, ys)) :
    bs = xs ++ ys ∧ xs.length = n := by
  unfold readN at h
  split at h
  · next hle =>
    cases h
    exact ⟨(List.take_append_drop n bs).symm, List.length_take_of_le hle⟩
  · cases h

theorem readN_suffix {n : ℕ} {bs : List β} {p : List β × List β} (h : readN n bs = some p) : p.2 <:+ bs := by
  obtain ⟨xs, ys⟩ := p
  obtain ⟨rfl, _⟩ := readN_eq_some h
  exact List.suffix_append _ _

/-! ## A cut through a list of encodings -/

section Cut

variable {α : Type} (enc : α → List β)

/-- The items whose encodings lie wholly within the first `n` elements. -/
def whole : ℕ → List α → List α
  | _, [] => []
  | n, a :: as => if (enc a).length ≤ n then a :: whole (n - (enc a).length) as else []

theorem whole_isPrefix (n : ℕ) (as : List α) : whole enc n as <+: as := by
  induction as generalizing n with
  | nil => exact List.prefix_rfl
  | cons a as ih =>
    rw [whole]
    split
    · exact List.cons_prefix_cons.mpr ⟨rfl, ih _⟩
    · exact List.nil_prefix

/-- What is cut off behind them is the front of an encoding. -/
def Torn (as : List α) (torn : List β) : Prop := torn = [] ∨ ∃ a ∈ as, ∃ k < (enc a).length, torn = (enc a).take k

theorem take_flatMap (n : ℕ) (as : List α) :
    ∃ torn, (as.flatMap enc).take n = (whole enc n as).flatMap enc ++ torn ∧ Torn enc as torn := by
  induction as generalizing n with
  | nil => exact ⟨[], by rw [whole, List.flatMap_nil, List.take_nil, List.append_nil], .inl rfl⟩
  | cons a as ih =>
    rw [whole, List.flatMap_cons, List.take_append]
    split
    · next hle =>
      obtain ⟨torn, htake, htorn⟩ := ih (n - (enc a).length)
      refine ⟨torn, ?_, htorn.imp_right ?_⟩
      · rw [List.take_of_length_le hle, htake, List.flatMap_cons, List.append_assoc]
      · rintro ⟨a', ha', h⟩
        exact ⟨a', List.mem_cons_of_mem _ ha', h⟩
    · next hlt =>
      refine ⟨(enc a).take n, ?_, .inr ⟨a, List.mem_cons_self, n, Nat.lt_of_not_le hlt, rfl⟩⟩
      rw [Nat.sub_eq_zero_of_le (Nat.le_of_not_le hlt), List.take_zero, List.append_nil, List.flatMap_nil, List.nil_append]

end Cut

structure Scanner (β σ : Type) where
  step : List β → σ → Option (List β × σ)
  shorter : ∀ bs s bs' s', step bs s = some (bs', s') → bs'.length < bs.length

namespace Scanner

variable (m : Scanner β σ)

/-- At most `fuel` steps. -/
def loop : ℕ → List β → σ → σ
  | 0, _, s => s
  | fuel + 1, bs, s =>
    match m.step bs s with
    | none => s
    | some (bs', s') => loop fuel bs' s'

def run (bs : List β) (s : σ) : σ := m.loop bs.length bs s

theorem loop_eq_run (fuel : ℕ) (bs : List β) (s : σ) (h : bs.length ≤ fuel) : m.loop fuel bs s = m.run bs s := by
  have hmore : ∀ (n k : ℕ) (bs : List β) (s : σ), bs.length ≤ n → bs.length ≤ k →
      m.loop n bs s = m.loop k bs s := by
    intro n
    induction n with
    | zero =>
      intro k bs s hn _
      have hstop : m.step bs s = none := by
        by_contra hsome
        obtain ⟨⟨bs', s'⟩, hstep⟩ := Option.ne_none_iff_exists'.mp hsome
        have := m.shorter _ _ _ _ hstep
        omega
      cases k with
      | zero => rfl
      | succ k => simp only [loop, hstop]
    | succ n ih =>
      intro k bs s hn hk
      cases hstep : m.step bs s with
      | none =>
        cases k with
        | zero => simp only [loop, hstep]
        | succ k => simp only [loop, hstep]
      | some p =>
        obtain ⟨bs', s'⟩ := p
        have hshort := m.shorter _ _ _ _ hstep
        cases k with
        | zero => omega
        | succ k =>
          simp only [loop, hstep]
          exact ih k bs' s' (by omega) (by omega)
  exact hmore fuel bs.length bs s h (Nat.le_refl _)

theorem run_of_stop {bs : List β} {s : σ} (h : m.step bs s = none) : m.run bs s = s := by
  unfold run
  cases bs.length with
  | zero => rfl
  | succ n => simp only [loop, h]

theorem run_of_step {bs bs' : List β} {s s' : σ} (h : m.step bs s = some (bs', s')) :
    m.run bs s = m.run bs' s' := by
  have hshort := m.shorter _ _ _ _ h
  cases hlen : bs.length with
  | zero => omega
  | succ n =>
    have hloop : m.run bs s = m.loop n bs' s' := by
      unfold run
      rw [hlen]
      simp only [loop, h]
    rw [hloop]
    exact m.loop_eq_run n bs' s' (by omega)

/-- The invariant rule of a scan: what every step keeps holds where it stops. -/
theorem run_invariant {I : List β → σ → Prop}
    (hpres : ∀ bs s bs' s', I bs s → m.step bs s = some (bs', s') → I bs' s') {bs : List β} {s : σ} (h : I bs s) :
    ∃ rest, I rest (m.run bs s) := by
  have hloop : ∀ (n : ℕ) (bs : List β) (s : σ), I bs s → ∃ rest, I rest (m.loop n bs s) := by
    intro n
    induction n with
    | zero => exact fun bs s h => ⟨bs, h⟩
    | succ n ih =>
      intro bs s h
      cases hstep : m.step bs s with
      | none =>
        simp only [loop, hstep]
        exact ⟨bs, h⟩
      | some p =>
        simp only [loop, hstep]
        exact ih p.1 p.2 (hpres bs s p.1 p.2 h hstep)
  exact hloop bs.length bs s h

end Scanner

end Kvdb.Scan
