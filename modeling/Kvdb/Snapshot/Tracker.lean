import Mathlib.Algebra.BigOperators.Group.Finset.Basic
import Mathlib.Algebra.BigOperators.Group.Finset.Piecewise
import Mathlib.Data.Fintype.Basic
import Mathlib.Data.Multiset.Fold

/-! # `SnapshotTracker` (`snp_tracker.hpp`)

A tracker has 256 slots for the timestamps of the active readers, where 0 stands for a free slot, and a
multiset behind a mutex for the readers that find no slot. `Tracks` says that a tracker holds exactly the
tickets of its readers: a timestamp with the slot it is kept in. Each operation on the right ticket keeps
it, and a tracker that keeps its tickets reports a minimum at or below each of them. -/
namespace Kvdb.Snapshot
set_option autoImplicit false

/-- `kSlots`. -/
def slotCount : ℕ := 256

def uint64Max : ℕ := 2 ^ 64 - 1

structure Tracker where
  slots : ℕ → ℕ
  fallbackUsed : Bool
  active : Multiset ℕ

namespace Tracker

def new : Tracker := ⟨fun _ => 0, false, 0⟩

/-- The store of a successful `compare_exchange`, and that of `Release`. -/
def setSlot (t : Tracker) (i ts : ℕ) : Tracker := { t with slots := Function.update t.slots i ts }

/-- `fallback_used_.store(true)`. -/
def raiseFlag (t : Tracker) : Tracker := { t with fallbackUsed := true }

/-- The insertion into `active_`, under the mutex. -/
def insertActive (t : Tracker) (ts : ℕ) : Tracker := { t with active := ts ::ₘ t.active }

/-- The rest of `Release` without a slot, under the mutex. -/
def eraseActive (t : Tracker) (ts : ℕ) : Tracker :=
  { t with
    active := t.active.erase ts
    fallbackUsed := if t.active.erase ts = 0 then false else t.fallbackUsed }

/-- `Release`, by the thread-local slot: `none` stands for its negative values. -/
def release (t : Tracker) (slot : Option ℕ) (ts : ℕ) : Tracker :=
  match slot with
  | some i => t.setSlot i 0
  | none => t.eraseActive ts

/-- One slot of the loop of `MinActiveTS`. -/
def minSlot (slots : ℕ → ℕ) (minTs i : ℕ) : ℕ := if slots i ≠ 0 ∧ slots i < minTs then slots i else minTs

def minSlots (slots : ℕ → ℕ) : ℕ := (List.range slotCount).foldl (minSlot slots) uint64Max

/-- `MinActiveTS`. -/
def minActiveTS (t : Tracker) : ℕ :=
  if t.fallbackUsed then t.active.fold min (minSlots t.slots) else minSlots t.slots

theorem setSlot_self (t : Tracker) (i ts : ℕ) : (t.setSlot i ts).slots i = ts := by
  simp [setSlot]

theorem setSlot_of_ne (t : Tracker) {i j : ℕ} (h : j ≠ i) (ts : ℕ) : (t.setSlot i ts).slots j = t.slots j := by
  simp [setSlot, h]

/-- The flag goes down with the last element only. -/
theorem eraseActive_flag (t : Tracker) {ts : ℕ} (h : t.active.erase ts ≠ 0) :
    (t.eraseActive ts).fallbackUsed = t.fallbackUsed := if_neg h

/-! ## The minimum -/

theorem minSlot_le (slots : ℕ → ℕ) (minTs i : ℕ) : minSlot slots minTs i ≤ minTs := by
  unfold minSlot
  split
  · next h => exact Nat.le_of_lt h.2
  · exact Nat.le_refl _

theorem foldl_minSlot_le (slots : ℕ → ℕ) (is : List ℕ) (minTs : ℕ) : is.foldl (minSlot slots) minTs ≤ minTs := by
  induction is generalizing minTs with
  | nil => exact Nat.le_refl _
  | cons i is ih => exact Nat.le_trans (ih (minSlot slots minTs i)) (minSlot_le slots minTs i)

theorem foldl_minSlot_le_slot (slots : ℕ → ℕ) {is : List ℕ} {i : ℕ} (hi : i ∈ is) (hused : slots i ≠ 0) (minTs : ℕ) :
    is.foldl (minSlot slots) minTs ≤ slots i := by
  induction is generalizing minTs with
  | nil => cases hi
  | cons j is ih =>
    rcases List.mem_cons.mp hi with rfl | hi
    · refine Nat.le_trans (foldl_minSlot_le slots is (minSlot slots minTs i)) ?_
      unfold minSlot
      split
      · exact Nat.le_refl _
      · next h => exact Nat.le_of_not_lt fun hlt => h ⟨hused, hlt⟩
    · exact ih hi (minSlot slots minTs j)

theorem minSlots_le {slots : ℕ → ℕ} {i : ℕ} (hi : i < slotCount) (hused : slots i ≠ 0) : minSlots slots ≤ slots i :=
  foldl_minSlot_le_slot slots (List.mem_range.mpr hi) hused uint64Max

theorem minSlots_free {slots : ℕ → ℕ} (h : ∀ i, slots i = 0) : minSlots slots = uint64Max := by
  have hstep : ∀ minTs i, minSlot slots minTs i = minTs := by
    intro minTs i
    simp [minSlot, h i]
  unfold minSlots
  induction List.range slotCount with
  | nil => rfl
  | cons i is ih => rw [List.foldl_cons, hstep, ih]

theorem fold_min_le (active : Multiset ℕ) (b : ℕ) : active.fold min b ≤ b := by
  induction active using Multiset.induction with
  | empty => simp
  | cons a active ih =>
    rw [Multiset.fold_cons_left]
    exact Nat.le_trans (Nat.min_le_right _ _) ih

theorem fold_min_le_mem {active : Multiset ℕ} {ts : ℕ} (h : ts ∈ active) (b : ℕ) : active.fold min b ≤ ts := by
  obtain ⟨rest, rfl⟩ := Multiset.exists_cons_of_mem h
  rw [Multiset.fold_cons_left]
  exact Nat.min_le_left _ _

theorem minActiveTS_le_minSlots (t : Tracker) : t.minActiveTS ≤ minSlots t.slots := by
  unfold minActiveTS
  split
  · exact fold_min_le _ _
  · exact Nat.le_refl _

end Tracker

/-! ## Tickets -/

/-- What a registered reader holds in a tracker: its timestamp, and its slot if it found one. -/
structure Ticket where
  ts : ℕ
  slot : Option ℕ
  deriving DecidableEq, Repr

/-- The element of `active_` that stands for a ticket without a slot. -/
def Ticket.unslotted : Option Ticket → Multiset ℕ
  | some ⟨ts, none⟩ => {ts}
  | _ => 0

@[simp] theorem Ticket.unslotted_none : Ticket.unslotted none = 0 := rfl

@[simp] theorem Ticket.unslotted_slot (ts i : ℕ) : Ticket.unslotted (some ⟨ts, some i⟩) = 0 := rfl

@[simp] theorem Ticket.unslotted_active (ts : ℕ) : Ticket.unslotted (some ⟨ts, none⟩) = {ts} := rfl

variable {n : ℕ}

/-- The tracker holds the tickets of its readers and nothing else. -/
structure Tracks (t : Tracker) (tickets : Fin n → Option Ticket) : Prop where
  nonzero : ∀ k tk, tickets k = some tk → tk.ts ≠ 0
  held : ∀ k ts i, tickets k = some ⟨ts, some i⟩ → i < slotCount ∧ t.slots i = ts
  owned : ∀ i, t.slots i ≠ 0 → ∃ k ts, tickets k = some ⟨ts, some i⟩
  apart : ∀ k k' ts ts' i, tickets k = some ⟨ts, some i⟩ → tickets k' = some ⟨ts', some i⟩ → k = k'
  active : t.active = ∑ k, Ticket.unslotted (tickets k)
  flag : t.active ≠ 0 → t.fallbackUsed = true

namespace Tracks

variable {t : Tracker} {tickets : Fin n → Option Ticket}

theorem new : Tracks Tracker.new fun _ : Fin n => none := by
  refine ⟨?_, ?_, ?_, ?_, ?_, ?_⟩
  · exact fun _ _ h => (by cases h)
  · exact fun _ _ _ h => (by cases h)
  · exact fun _ h => absurd rfl h
  · exact fun _ _ _ _ _ h => (by cases h)
  · simp [Tracker.new]
  · exact fun h => absurd rfl h

theorem minActiveTS_le (h : Tracks t tickets) {k : Fin n} {tk : Ticket} (hk : tickets k = some tk) :
    t.minActiveTS ≤ tk.ts := by
  obtain ⟨ts, slot⟩ := tk
  cases slot with
  | some i =>
    obtain ⟨hi, hts⟩ := h.held k ts i hk
    have hused : t.slots i ≠ 0 := by
      rw [hts]
      exact h.nonzero k _ hk
    have hmin := Tracker.minSlots_le hi hused
    rw [hts] at hmin
    exact Nat.le_trans t.minActiveTS_le_minSlots hmin
  | none =>
    have hmem : ts ∈ t.active := by
      rw [h.active, Multiset.mem_sum]
      refine ⟨k, Finset.mem_univ k, ?_⟩
      rw [hk]
      exact Multiset.mem_singleton_self ts
    have hflag : t.fallbackUsed = true := by
      apply h.flag
      intro hempty
      rw [hempty] at hmem
      exact Multiset.notMem_zero ts hmem
    rw [Tracker.minActiveTS, if_pos hflag]
    exact Tracker.fold_min_le_mem hmem _

theorem minActiveTS_idle (h : Tracks t tickets) (hidle : ∀ k, tickets k = none) : t.minActiveTS = uint64Max := by
  have hslots : ∀ i, t.slots i = 0 := by
    intro i
    by_contra hused
    obtain ⟨k, ts, hk⟩ := h.owned i hused
    rw [hidle k] at hk
    cases hk
  have hactive : t.active = 0 := by
    rw [h.active]
    apply Finset.sum_eq_zero
    intro k _
    rw [hidle k]
    rfl
  rw [Tracker.minActiveTS, hactive, Multiset.fold_zero, Tracker.minSlots_free hslots, ite_self]

/-! ## The operations -/

theorem sum_unslotted_update (tickets : Fin n → Option Ticket) (k : Fin n) (tk : Option Ticket) :
    ∑ j, Ticket.unslotted (Function.update tickets k tk j) + Ticket.unslotted (tickets k) =
      ∑ j, Ticket.unslotted (tickets j) + Ticket.unslotted tk := by
  have hupdate : (fun j => Ticket.unslotted (Function.update tickets k tk j)) =
      Function.update (fun j => Ticket.unslotted (tickets j)) k (Ticket.unslotted tk) :=
    Function.comp_update Ticket.unslotted tickets k tk
  rw [hupdate, Finset.sum_update_of_mem (Finset.mem_univ k), ← Finset.sum_sdiff (Finset.subset_univ {k}),
    Finset.sum_singleton, add_comm (Ticket.unslotted tk), add_right_comm]

/-- A reader takes a free slot. -/
theorem acquire (h : Tracks t tickets) {k : Fin n} (hk : tickets k = none) {i ts : ℕ} (hi : i < slotCount)
    (hfree : t.slots i = 0) (hts : ts ≠ 0) :
    Tracks (t.setSlot i ts) (Function.update tickets k (some ⟨ts, some i⟩)) := by
  have hother : ∀ j ts', tickets j ≠ some ⟨ts', some i⟩ := by
    intro j ts' hj
    have hzero := (h.held j ts' i hj).2
    rw [hfree] at hzero
    exact h.nonzero j _ hj hzero.symm
  refine ⟨?_, ?_, ?_, ?_, ?_, h.flag⟩
  · intro j tk hj
    by_cases hjk : j = k
    · rw [hjk, Function.update_self] at hj
      cases hj
      exact hts
    · rw [Function.update_of_ne hjk] at hj
      exact h.nonzero j tk hj
  · intro j ts' i' hj
    by_cases hjk : j = k
    · rw [hjk, Function.update_self] at hj
      cases hj
      exact ⟨hi, t.setSlot_self i ts⟩
    · rw [Function.update_of_ne hjk] at hj
      obtain ⟨hi', hslot⟩ := h.held j ts' i' hj
      have hne : i' ≠ i := by
        intro heq
        rw [heq] at hj
        exact hother j ts' hj
      exact ⟨hi', (t.setSlot_of_ne hne ts).trans hslot⟩
  · intro i' hused
    by_cases hii : i' = i
    · exact ⟨k, ts, by rw [hii, Function.update_self]⟩
    · rw [t.setSlot_of_ne hii] at hused
      obtain ⟨j, ts', hj⟩ := h.owned i' hused
      have hjk : j ≠ k := by
        intro heq
        rw [heq, hk] at hj
        cases hj
      exact ⟨j, ts', by rw [Function.update_of_ne hjk, hj]⟩
  · intro j j' ts1 ts2 i' hj hj'
    by_cases hjk : j = k
    · by_cases hjk' : j' = k
      · rw [hjk, hjk']
      · rw [hjk, Function.update_self] at hj
        rw [Function.update_of_ne hjk'] at hj'
        cases hj
        exact absurd hj' (hother j' ts2)
    · rw [Function.update_of_ne hjk] at hj
      by_cases hjk' : j' = k
      · rw [hjk', Function.update_self] at hj'
        cases hj'
        exact absurd hj (hother j ts1)
      · rw [Function.update_of_ne hjk'] at hj'
        exact h.apart j j' ts1 ts2 i' hj hj'
  · have hsum := sum_unslotted_update tickets k (some ⟨ts, some i⟩)
    rw [hk] at hsum
    simp only [Ticket.unslotted_none, Ticket.unslotted_slot, add_zero] at hsum
    exact h.active.trans hsum.symm

/-- A reader without a slot enters the multiset while the flag is up. -/
theorem acquireActive (h : Tracks t tickets) {k : Fin n} (hk : tickets k = none) {ts : ℕ} (hts : ts ≠ 0)
    (hflag : t.fallbackUsed = true) :
    Tracks (t.insertActive ts) (Function.update tickets k (some ⟨ts, none⟩)) := by
  have hslotted : ∀ j ts' i, Function.update tickets k (some ⟨ts, none⟩) j = some ⟨ts', some i⟩ →
      tickets j = some ⟨ts', some i⟩ := by
    intro j ts' i hj
    by_cases hjk : j = k
    · rw [hjk, Function.update_self] at hj
      cases hj
    · rwa [Function.update_of_ne hjk] at hj
  refine ⟨?_, ?_, ?_, ?_, ?_, fun _ => hflag⟩
  · intro j tk hj
    by_cases hjk : j = k
    · rw [hjk, Function.update_self] at hj
      cases hj
      exact hts
    · rw [Function.update_of_ne hjk] at hj
      exact h.nonzero j tk hj
  · exact fun j ts' i hj => h.held j ts' i (hslotted j ts' i hj)
  · intro i hused
    obtain ⟨j, ts', hj⟩ := h.owned i hused
    have hjk : j ≠ k := by
      intro heq
      rw [heq, hk] at hj
      cases hj
    exact ⟨j, ts', by rw [Function.update_of_ne hjk, hj]⟩
  · exact fun j j' ts1 ts2 i hj hj' => h.apart j j' ts1 ts2 i (hslotted j ts1 i hj) (hslotted j' ts2 i hj')
  · have hsum := sum_unslotted_update tickets k (some ⟨ts, none⟩)
    rw [hk, Ticket.unslotted_none, add_zero, Ticket.unslotted_active] at hsum
    rw [hsum, Tracker.insertActive, h.active, add_comm, Multiset.singleton_add]

theorem raiseFlag (h : Tracks t tickets) : Tracks t.raiseFlag tickets :=
  ⟨h.nonzero, h.held, h.owned, h.apart, h.active, fun _ => rfl⟩

/-- The tickets that are left when one is given back. -/
theorem dropped {k j : Fin n} {tk : Ticket} (hj : Function.update tickets k none j = some tk) :
    j ≠ k ∧ tickets j = some tk := by
  by_cases hjk : j = k
  · rw [hjk, Function.update_self] at hj
    cases hj
  · rw [Function.update_of_ne hjk] at hj
    exact ⟨hjk, hj⟩

/-- A reader gives its ticket back. -/
theorem release (h : Tracks t tickets) {k : Fin n} {tk : Ticket} (hk : tickets k = some tk) :
    Tracks (t.release tk.slot tk.ts) (Function.update tickets k none) := by
  obtain ⟨ts, slot⟩ := tk
  have hsum := sum_unslotted_update tickets k none
  rw [hk] at hsum
  cases slot with
  | some i =>
    have hother : ∀ j ts' i', j ≠ k → tickets j = some ⟨ts', some i'⟩ → i' ≠ i := by
      intro j ts' i' hjk hj heq
      rw [heq] at hj
      exact hjk (h.apart j k ts' ts i hj hk)
    refine ⟨?_, ?_, ?_, ?_, ?_, h.flag⟩
    · exact fun j tk hj => h.nonzero j tk (dropped hj).2
    · intro j ts' i' hj
      obtain ⟨hjk, hj⟩ := dropped hj
      obtain ⟨hi', hslot⟩ := h.held j ts' i' hj
      exact ⟨hi', (t.setSlot_of_ne (hother j ts' i' hjk hj) 0).trans hslot⟩
    · intro i' hused
      have hii : i' ≠ i := by
        intro heq
        rw [heq] at hused
        exact hused (t.setSlot_self i 0)
      obtain ⟨j, ts', hj⟩ := h.owned i' (fun hz => hused ((t.setSlot_of_ne hii 0).trans hz))
      have hjk : j ≠ k := by
        intro heq
        rw [heq, hk] at hj
        cases hj
        exact hii rfl
      exact ⟨j, ts', by rw [Function.update_of_ne hjk, hj]⟩
    · exact fun j j' ts1 ts2 i' hj hj' => h.apart j j' ts1 ts2 i' (dropped hj).2 (dropped hj').2
    · simp only [Ticket.unslotted_none, Ticket.unslotted_slot, add_zero] at hsum
      exact h.active.trans hsum.symm
  | none =>
    rw [Ticket.unslotted_active, Ticket.unslotted_none, add_zero] at hsum
    have hactive : t.active.erase ts = ∑ j, Ticket.unslotted (Function.update tickets k none j) := by
      rw [h.active, ← hsum, add_comm, Multiset.singleton_add, Multiset.erase_cons_head]
    refine ⟨?_, ?_, ?_, ?_, hactive, ?_⟩
    · exact fun j tk hj => h.nonzero j tk (dropped hj).2
    · exact fun j ts' i hj => h.held j ts' i (dropped hj).2
    · intro i hused
      obtain ⟨j, ts', hj⟩ := h.owned i hused
      have hjk : j ≠ k := by
        intro heq
        rw [heq, hk] at hj
        cases hj
      exact ⟨j, ts', by rw [Function.update_of_ne hjk, hj]⟩
    · exact fun j j' ts1 ts2 i hj hj' => h.apart j j' ts1 ts2 i (dropped hj).2 (dropped hj').2
    · intro hleft
      change t.active.erase ts ≠ 0 at hleft
      have hbefore : t.active ≠ 0 := by
        intro hzero
        rw [hzero] at hleft
        exact hleft rfl
      exact (t.eraseActive_flag hleft).trans (h.flag hbefore)

/-- A `Release` that finds the slot free, or its timestamp not in the multiset, takes nothing away. -/
theorem release_again (h : Tracks t tickets) {slot : Option ℕ} {ts : ℕ} (hslot : ∀ i ∈ slot, t.slots i = 0)
    (hactive : slot = none → ts ∉ t.active) : Tracks (t.release slot ts) tickets := by
  cases slot with
  | some i =>
    have hsame : t.setSlot i 0 = t := by
      rw [Tracker.setSlot, ← hslot i rfl, Function.update_eq_self]
    rw [Tracker.release, hsame]
    exact h
  | none =>
    have hsame : t.active.erase ts = t.active := Multiset.erase_of_notMem (hactive rfl)
    refine ⟨h.nonzero, h.held, h.owned, h.apart, hsame.trans h.active, ?_⟩
    intro hleft
    change t.active.erase ts ≠ 0 at hleft
    refine (t.eraseActive_flag hleft).trans (h.flag ?_)
    rw [← hsame]
    exact hleft

end Tracks

end Kvdb.Snapshot
