import Mathlib.Algebra.Ring.Nat
import Mathlib.Data.List.Infix

/-! # A cache that drops what was used least recently

The pairs held, the one used last in front. At most `capacity` pairs are held: a new one pushes the last pair out. Where the
values are weighed, as many of the last pairs are pushed out as it takes to keep both bounds. -/
namespace Kvdb.Lru
set_option autoImplicit false

variable {κ ν : Type}

def eraseIf (items : List (κ × ν)) (pred : κ → Bool) : List (κ × ν) :=
  items.filter fun item => !pred item.1

variable {items xs ys : List (κ × ν)} {key : κ} {value : ν} {pred : κ → Bool}

theorem eraseIf_none (h : ∀ item ∈ items, pred item.1 = false) : eraseIf items pred = items := by
  rw [eraseIf, List.filter_eq_self]
  intro item hmem
  rw [h item hmem]
  rfl

/-- The weights of the pairs together. -/
def weigh (weight : ν → ℕ) (items : List (κ × ν)) : ℕ := (items.map fun item => weight item.2).sum

/-- At most `count` pairs, of at most `total` together. -/
def Within (weight : ν → ℕ) (count total : ℕ) (items : List (κ × ν)) : Prop :=
  items.length ≤ count ∧ weigh weight items ≤ total

instance decidableWithin (weight : ν → ℕ) (count total : ℕ) (items : List (κ × ν)) :
    Decidable (Within weight count total items) :=
  inferInstanceAs (Decidable (_ ∧ _))

/-- The longest front that fits, and nothing if none does. -/
def trim (fits : List (κ × ν) → Prop) [DecidablePred fits] (items : List (κ × ν)) : List (κ × ν) :=
  (items.inits.reverse.find? fun front => decide (fits front)).getD []

variable {fits : List (κ × ν) → Prop} [DecidablePred fits] {item : κ × ν}

theorem trim_nil : trim fits [] = [] := by
  by_cases h : fits []
  · simp [trim, h]
  · simp [trim, h]

theorem trim_of_fits (h : fits items) : trim fits items = items := by
  obtain rfl | ⟨xs, item, rfl⟩ := List.eq_nil_or_concat' items
  · exact trim_nil
  · simp [trim, h]

/-- Where not all of them fit, the last pair is dropped. -/
theorem trim_concat (h : ¬ fits (xs ++ [item])) : trim fits (xs ++ [item]) = trim fits xs := by
  simp [trim, h]

theorem trim_prefix : trim fits items <+: items := by
  induction items using List.reverseRecOn with
  | nil => rw [trim_nil]
  | append_singleton xs last ih =>
    by_cases hall : fits (xs ++ [last])
    · rw [trim_of_fits hall]
    · rw [trim_concat hall]
      exact ih.trans (List.prefix_append xs [last])

/-- No front that fits is longer. -/
theorem trim_longest {front : List (κ × ν)} (hfront : front <+: items) (h : fits front) : front <+: trim fits items := by
  induction items using List.reverseRecOn with
  | nil =>
    rw [trim_nil]
    exact hfront
  | append_singleton xs last ih =>
    by_cases hall : fits (xs ++ [last])
    · rw [trim_of_fits hall]
      exact hfront
    · rw [trim_concat hall]
      rcases List.prefix_concat_iff.mp hfront with rfl | hshort
      · exact absurd h hall
      · exact ih hshort

variable [DecidableEq κ]

/-- The value held for the key. -/
def lookup (items : List (κ × ν)) (key : κ) : Option ν :=
  (items.find? fun item => item.1 = key).map Prod.snd

/-- The pairs of the other keys. -/
def others (items : List (κ × ν)) (key : κ) : List (κ × ν) :=
  items.filter fun item => item.1 ≠ key

/-- A read makes its pair the one used last. -/
def touch (items : List (κ × ν)) (key : κ) : List (κ × ν) :=
  match lookup items key with
  | some value => (key, value) :: others items key
  | none => items

def put (capacity : ℕ) (items : List (κ × ν)) (key : κ) (value : ν) : List (κ × ν) :=
  ((key, value) :: others items key).take capacity

/-- The new pair, and those in front of the others that fit beside it. -/
def putWithin (weight : ν → ℕ) (count total : ℕ) (items : List (κ × ν)) (key : κ) (value : ν) : List (κ × ν) :=
  trim (Within weight count total) ((key, value) :: others items key)

theorem others_absent (h : ∀ item ∈ items, item.1 ≠ key) : others items key = items := by
  rw [others, List.filter_eq_self]
  intro item hmem
  exact decide_eq_true (h item hmem)

theorem others_middle (hxs : ∀ item ∈ xs, item.1 ≠ key) (hys : ∀ item ∈ ys, item.1 ≠ key) :
    others (xs ++ (key, value) :: ys) key = xs ++ ys := by
  have hxs' := others_absent hxs
  have hys' := others_absent hys
  rw [others] at hxs' hys' ⊢
  rw [List.filter_append, List.filter_cons_of_neg (by simp), hxs', hys']

theorem lookup_absent (h : ∀ item ∈ items, item.1 ≠ key) : lookup items key = none := by
  rw [lookup, Option.map_eq_none_iff, List.find?_eq_none]
  intro item hmem
  simpa using h item hmem

theorem lookup_middle (hxs : ∀ item ∈ xs, item.1 ≠ key) : lookup (xs ++ (key, value) :: ys) key = some value := by
  have hnone := lookup_absent hxs
  rw [lookup, Option.map_eq_none_iff] at hnone
  rw [lookup, List.find?_append, hnone, Option.none_or, List.find?_cons_of_pos (by simp)]
  rfl

theorem eraseIf_others (h : pred key = true) : eraseIf (others items key) pred = eraseIf items pred := by
  rw [eraseIf, eraseIf, others, List.filter_filter]
  refine List.filter_congr ?_
  intro item _
  by_cases hkey : item.1 = key
  · simp [hkey, h]
  · simp [hkey]

theorem weigh_middle {weight : ν → ℕ} (hxs : ∀ item ∈ xs, item.1 ≠ key) (hys : ∀ item ∈ ys, item.1 ≠ key) :
    weigh weight (xs ++ (key, value) :: ys) =
      weight value + weigh weight (others (xs ++ (key, value) :: ys) key) := by
  rw [others_middle hxs hys]
  simp [weigh, Nat.add_left_comm]

theorem lookup_cons {other : κ} (h : other ≠ key) : lookup ((key, value) :: items) other = lookup items other := by
  rw [lookup, List.find?_cons_of_neg (by simpa using h.symm)]
  rfl

/-- The pairs that `putWithin` keeps of the other keys are a front of them. -/
theorem putWithin_others (weight : ν → ℕ) (count total : ℕ) (items : List (κ × ν)) (key : κ) (value : ν) :
    ∃ front, front <+: others items key ∧
      ∀ other, other ≠ key → lookup (putWithin weight count total items key value) other = lookup front other := by
  have hprefix : putWithin weight count total items key value <+: (key, value) :: others items key := trim_prefix
  rcases List.prefix_cons_iff.mp hprefix with hnil | ⟨front, hfront, hle⟩
  · exact ⟨[], List.nil_prefix, fun other _ => by rw [hnil]⟩
  · exact ⟨front, hle, fun other hne => by rw [hfront, lookup_cons hne]⟩

/-- A value that fits alone is held. -/
theorem putWithin_self {weight : ν → ℕ} {count total : ℕ} (hcount : 1 ≤ count) (hfits : weight value ≤ total) :
    lookup (putWithin weight count total items key value) key = some value := by
  have halone : Within weight count total [(key, value)] := ⟨hcount, by simpa [weigh] using hfits⟩
  have hprefix : [(key, value)] <+: (key, value) :: others items key := List.prefix_append [(key, value)] _
  have hlongest : [(key, value)] <+: putWithin weight count total items key value := trim_longest hprefix halone
  obtain ⟨front, hfront⟩ := hlongest
  rw [← hfront, List.singleton_append, lookup, List.find?_cons_of_pos (by simp)]
  rfl

end Kvdb.Lru
