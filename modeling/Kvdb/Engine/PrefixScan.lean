import Kvdb.Engine.RangeScan
import Kvdb.Lib.Lexicographic
import Mathlib.Data.List.DropRight

/-! # Prefix scans (`LSMTreeEngine::PrefixScan`)

A prefix scan is a range scan from the prefix on up to the prefix with its last byte incremented. A byte 0xFF cannot be
incremented, so those at the end are dropped before; if nothing is left there is no upper bound. -/
namespace Kvdb
set_option autoImplicit false

open RangeIterator (aboveLower withinUpper inBounds)

namespace Engine

/-- `upper` behind the loop of `PrefixScan`. -/
def dropTrailing (start : Bytes) : Bytes := start.rdropWhile fun b => decide (b = 0xFF)

/-- The bounds that `PrefixScan` passes on. -/
def prefixBounds (start : Bytes) : RangeBound × RangeBound :=
  match (dropTrailing start).getLast? with
  | none => (RangeBound.of start true, .unbounded)
  | some last => (RangeBound.of start true, RangeBound.of ((dropTrailing start).dropLast ++ [last + 1]) false)

/-- `PrefixScan`. -/
def prefixScan (behind : ℕ → List (List KeyValuePair)) (e : Engine) (start : Bytes) : List KeyValuePair :=
  rangeScan behind e (prefixBounds start).1 (prefixBounds start).2

theorem byte_isTop : IsTop (0xFF : UInt8) := by
  intro b
  rw [UInt8.le_iff_toNat_le]
  exact Nat.le_of_lt_succ b.toNat_lt

theorem byte_covBy {b : UInt8} (h : b ≠ 0xFF) : b ⋖ b + 1 := by
  have hne : b.toNat ≠ 255 := fun heq => h (UInt8.toNat_inj.mp heq)
  have hlt := b.toNat_lt
  have hsucc : (b + 1).toNat = b.toNat + 1 := by
    rw [UInt8.toNat_add]
    exact Nat.mod_eq_of_lt (by simp only [UInt8.toNat_one]; omega)
  refine ⟨?_, fun x hx hx' => ?_⟩
  · rw [UInt8.lt_iff_toNat_lt]
    omega
  · rw [UInt8.lt_iff_toNat_lt] at hx hx'
    omega

/-- The bytes that are dropped, and the one that they are dropped up to. -/
theorem dropTrailing_spec (start : Bytes) :
    ∃ tops, start = dropTrailing start ++ tops ∧ (∀ b ∈ tops, b = 0xFF) ∧ ∀ b ∈ (dropTrailing start).getLast?, b ≠ 0xFF := by
  refine ⟨start.rtakeWhile fun b => decide (b = 0xFF), ?_, fun b hb => ?_, fun b hb => ?_⟩
  · exact (List.rdropWhile_append_rtakeWhile ..).symm
  · exact of_decide_eq_true (@List.mem_rtakeWhile_imp _ (fun b : UInt8 => decide (b = 0xFF)) start b hb)
  · obtain ⟨hne, hlast⟩ := List.mem_getLast?_eq_getLast hb
    have hnot := List.rdropWhile_last_not (fun b : UInt8 => decide (b = 0xFF)) start hne
    exact fun heq => hnot (decide_eq_true (hlast.symm.trans heq))

theorem aboveLower_of_inclusive (start key : Bytes) :
    aboveLower (RangeBound.of start true) key = true ↔ ¬ key < start := by
  rw [RangeBound.of]
  split
  · next hempty =>
    rw [List.isEmpty_iff.mp hempty]
    exact iff_of_true rfl (List.not_lt_nil key)
  · exact decide_eq_true_iff.trans not_lt.symm

/-- A key is within the bounds of a prefix scan, exactly if it begins with the prefix. -/
theorem prefixBounds_iff (start key : Bytes) :
    inBounds (prefixBounds start).1 (prefixBounds start).2 key = true ↔ start <+: key := by
  obtain ⟨tops, hstart, htops, hkept⟩ := dropTrailing_spec start
  have htop : ∀ b ∈ tops, IsTop b := fun b hb => htops b hb ▸ byte_isTop
  rw [prefixBounds, inBounds, Bool.and_eq_true]
  cases hlast : (dropTrailing start).getLast? with
  | none =>
    rw [List.getLast?_eq_none_iff] at hlast
    rw [hlast, List.nil_append] at hstart
    rw [← hstart] at htop
    simp only [aboveLower_of_inclusive, withinUpper, and_true]
    exact Lexicographic.not_lt_iff_isPrefix htop key
  | some last =>
    obtain ⟨stem, hstem⟩ := List.getLast?_eq_some_iff.mp hlast
    have hupper : RangeBound.of (stem ++ [last + 1]) false = .exclusive (stem ++ [last + 1]) := by
      rw [RangeBound.of, if_neg (by simp)]
      rfl
    rw [hstem, List.append_assoc, List.singleton_append] at hstart
    simp only [hstem, List.dropLast_concat, hupper, aboveLower_of_inclusive, withinUpper, decide_eq_true_eq]
    rw [hstart]
    exact Lexicographic.interval_iff_isPrefix (byte_covBy (hkept last hlast)) htop stem key

/-- A scan that is right for its bounds yields the keys with the prefix. -/
theorem ScanExact.of_prefix {e : Engine} {start : Bytes} {result : List KeyValuePair}
    (h : ScanExact e (prefixBounds start).1 (prefixBounds start).2 result) (x : KeyValuePair) :
    x ∈ result ↔ Compaction.Newest e.visibleVersions x ∧ start <+: x.key :=
  (h.entries x).trans (and_congr_right fun _ => prefixBounds_iff start x.key)

example : prefixBounds [1, 0xFF, 0xFF] = (.inclusive [1, 0xFF, 0xFF], .exclusive [2]) := by decide

end Engine

end Kvdb
