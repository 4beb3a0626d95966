import Kvdb.SSTable.Compact

/-! # The merging iterator of a range scan (`RangeIterator`)

The sources are the streams that the memtable copies, the level-0 tables and the levels yield after
they have been sought to the lower bound. `findNext` looks at the current entries only: the sources
that stand at the smallest key are each advanced by one version. -/
namespace Kvdb
set_option autoImplicit false

/-- `RangeBound`. -/
inductive RangeBound where
  | unbounded
  | inclusive (key : Bytes)
  | exclusive (key : Bytes)
  deriving DecidableEq, Repr

namespace RangeIterator

/-- The test of a key against the upper bound. -/
def withinUpper (upper : RangeBound) (key : Bytes) : Bool :=
  match upper with
  | .unbounded => true
  | .inclusive bound => decide (key ≤ bound)
  | .exclusive bound => decide (key < bound)

/-- The constructor passes over the lower bound itself when it is exclusive. -/
def skipLower (lower : RangeBound) (sources : List (List KeyValuePair)) : List (List KeyValuePair) :=
  match lower with
  | .exclusive bound => sources.map fun s => s.dropWhile fun e => decide (e.key = bound)
  | _ => sources

/-- The current entries of the sources that stand at `key`. -/
def current (key : Bytes) (sources : List (List KeyValuePair)) : List KeyValuePair :=
  (sources.filterMap List.head?).filter fun e => decide (e.key = key)

def advance (key : Bytes) : List KeyValuePair → List KeyValuePair
  | [] => []
  | e :: es => if e.key = key then es else e :: es

/-- `FindNext`: the entry it stops at and the sources afterwards. -/
def findNext (readTs : ℕ) (upper : RangeBound) :
    ℕ → List (List KeyValuePair) → Option (KeyValuePair × List (List KeyValuePair))
  | 0, _ => none
  | fuel + 1, sources =>
    match Compaction.bestKey sources with
    | none => none
    | some key =>
      if withinUpper upper key then
        match Compaction.visWinner readTs (current key sources) with
        | some best => some (best, sources.map (advance key))
        | none => findNext readTs upper fuel (sources.map (advance key))
      else none

/-- The entries that a caller sees until the iterator is no longer valid. -/
def drain (readTs : ℕ) (upper : RangeBound) (steps : ℕ) : ℕ → List (List KeyValuePair) → List KeyValuePair
  | 0, _ => []
  | fuel + 1, sources =>
    match findNext readTs upper steps sources with
    | none => []
    | some (e, rest) => e :: drain readTs upper steps fuel rest

def results (readTs : ℕ) (lower upper : RangeBound) (sources : List (List KeyValuePair)) :
    List KeyValuePair :=
  drain readTs upper sources.flatten.length sources.flatten.length (skipLower lower sources)

theorem visWinner_visible {readTs : ℕ} {versions : List KeyValuePair} {w : KeyValuePair}
    (h : Compaction.visWinner readTs versions = some w) : w ∈ versions ∧ w.timestamp ≤ readTs := by
  have hfold : ∀ (vs : List KeyValuePair) (acc : Option KeyValuePair),
      vs.foldl Compaction.newer acc = some w → acc = some w ∨ w ∈ vs := by
    intro vs
    induction vs with
    | nil => exact fun acc hacc => .inl hacc
    | cons v vs ih =>
      intro acc hacc
      rcases ih _ hacc with hnew | hmem
      · unfold Compaction.newer at hnew
        split at hnew
        · cases hnew
          exact .inr List.mem_cons_self
        · split at hnew
          · cases hnew
            exact .inr List.mem_cons_self
          · exact .inl hnew
      · exact .inr (List.mem_cons_of_mem v hmem)
  have hmem := (hfold _ none h).resolve_left (by simp)
  obtain ⟨hmem, hts⟩ := List.mem_filter.mp hmem
  exact ⟨hmem, of_decide_eq_true hts⟩

theorem findNext_visible {readTs : ℕ} {upper : RangeBound} (fuel : ℕ) (sources : List (List KeyValuePair))
    {e : KeyValuePair} {rest : List (List KeyValuePair)}
    (h : findNext readTs upper fuel sources = some (e, rest)) : e.timestamp ≤ readTs := by
  induction fuel generalizing sources with
  | zero => cases h
  | succ fuel ih =>
    unfold findNext at h
    split at h
    · cases h
    · split at h
      · split at h
        · next best hbest =>
          cases h
          exact (visWinner_visible hbest).2
        · exact ih _ h
      · cases h

/-- A scan returns no version above its read timestamp, whatever its sources yield. -/
theorem results_visible (readTs : ℕ) (lower upper : RangeBound) (sources : List (List KeyValuePair)) :
    ∀ e ∈ results readTs lower upper sources, e.timestamp ≤ readTs := by
  have hdrain : ∀ (steps fuel : ℕ) (srcs : List (List KeyValuePair)),
      ∀ e ∈ drain readTs upper steps fuel srcs, e.timestamp ≤ readTs := by
    intro steps fuel
    induction fuel with
    | zero =>
      intro srcs e he
      cases he
    | succ fuel ih =>
      intro srcs e he
      unfold drain at he
      split at he
      · cases he
      · next e' rest hnext =>
        rcases List.mem_cons.mp he with rfl | he
        · exact findNext_visible steps srcs hnext
        · exact ih rest e he
  exact hdrain _ _ _

end RangeIterator

end Kvdb
