import Kvdb.Snapshot.Tracker
import Kvdb.Lib.Runs

/-! # What `Lookup` and `RangeScan` do to the two trackers

A read registers in `tracker_`, later in `tracker_sst_`, and releases them in that order; the destructor of
`guard_mt` in `Lookup` releases `tracker_` a second time. Each comparison of a slot, each store and each
locked section is a step, and the steps of any number of threads interleave. The slot that a thread has
found is kept in one thread-local variable for both trackers. -/
namespace Kvdb.Snapshot
set_option autoImplicit false

open Kvdb.Runs

inductive Call where
  | lookup
  | rangeScan
  deriving DecidableEq, Repr

/-- `tracker_` and `tracker_sst_`. -/
inductive Which where
  | memtables
  | sstables
  deriving DecidableEq, Repr

/-- The next step of a thread: comparing the `t`-th slot of an `Acquire`, inserting into the multiset after the
flag was raised, the first `Release` of `tracker_`, that of `tracker_sst_`, and the second one of `tracker_`. -/
inductive Stage where
  | idle
  | probing (x : Which) (t : ℕ)
  | flagged (x : Which)
  | both
  | tables
  | leaving
  deriving DecidableEq, Repr

/-- A thread in a read; `slot` is the thread-local `slot_`, and `none` for its negative values. -/
structure Reader where
  stage : Stage
  call : Call
  readTs : ℕ
  slot : Option ℕ
  deriving DecidableEq, Repr

variable {n : ℕ}

structure State (n : ℕ) where
  memtables : Tracker
  sstables : Tracker
  readers : Fin n → Reader

namespace State

def tracker (s : State n) : Which → Tracker
  | .memtables => s.memtables
  | .sstables => s.sstables

def setTracker (s : State n) (x : Which) (t : Tracker) : State n :=
  match x with
  | .memtables => { s with memtables := t }
  | .sstables => { s with sstables := t }

def setReader (s : State n) (k : Fin n) (r : Reader) : State n :=
  { s with readers := Function.update s.readers k r }

end State

def init (n : ℕ) : State n := ⟨Tracker.new, Tracker.new, fun _ => ⟨.idle, .lookup, 0, none⟩⟩

inductive Action (n : ℕ) where
  | start (k : Fin n) (call : Call) (readTs : ℕ)
  | move (k : Fin n)

/-- Where a thread goes on when it has registered. -/
def acquired : Which → Stage
  | .memtables => .probing .sstables 0
  | .sstables => .both

/-- The slot that a thread compares in its `t`-th attempt; `hash` is that of its thread id. -/
def probe (hash t : ℕ) : ℕ := (hash + t) % slotCount

/-- The next step of thread `k`. -/
def move (hash : Fin n → ℕ) (s : State n) (k : Fin n) : Option (State n) :=
  let r := s.readers k
  match r.stage with
  | .idle => none
  | .probing x t =>
    if t < slotCount then
      if (s.tracker x).slots (probe (hash k) t) = 0 then
        some ((s.setTracker x ((s.tracker x).setSlot (probe (hash k) t) r.readTs)).setReader k
          { r with stage := acquired x, slot := some (probe (hash k) t) })
      else some (s.setReader k { r with stage := .probing x (t + 1) })
    else some ((s.setTracker x (s.tracker x).raiseFlag).setReader k { r with stage := .flagged x })
  | .flagged x =>
    some ((s.setTracker x ((s.tracker x).insertActive r.readTs)).setReader k
      { r with stage := acquired x, slot := none })
  | .both =>
    some ((s.setTracker .memtables (s.memtables.release r.slot r.readTs)).setReader k { r with stage := .tables })
  | .tables =>
    some ((s.setTracker .sstables (s.sstables.release r.slot r.readTs)).setReader k
      { r with stage := if r.call = .lookup then .leaving else .idle })
  | .leaving =>
    some ((s.setTracker .memtables (s.memtables.release r.slot r.readTs)).setReader k { r with stage := .idle })

def step (hash : Fin n → ℕ) (s : State n) : Action n → Option (State n)
  | .start k call readTs =>
    if (s.readers k).stage = .idle then
      some (s.setReader k ⟨.probing .memtables 0, call, readTs, (s.readers k).slot⟩)
    else none
  | .move k => move hash s k

/-- The thread is between its `Acquire` and its own first `Release` of the tracker. -/
def Registered (x : Which) (r : Reader) : Bool :=
  match x, r.stage with
  | .memtables, .probing .sstables _ => true
  | .memtables, .flagged .sstables => true
  | .memtables, .both => true
  | .sstables, .both => true
  | .sstables, .tables => true
  | _, _ => false

/-- The condition on a step of a thread: the slot found in `tracker_sst_` is the one held in `tracker_`, and a
thread finds none in the one where it found none in the other; the flag is still up when a thread inserts into
the multiset; the second `Release` of `tracker_` finds nothing of another thread. -/
def MayMove (hash : ℕ) (s : State n) (r : Reader) : Stage → Prop
  | .probing .sstables t => t < slotCount → s.sstables.slots (probe hash t) = 0 → r.slot = some (probe hash t)
  | .flagged .memtables => s.memtables.fallbackUsed = true
  | .flagged .sstables => s.sstables.fallbackUsed = true ∧ r.slot = none
  | .leaving => (∀ i ∈ r.slot, s.memtables.slots i = 0) ∧ (r.slot = none → r.readTs ∉ s.memtables.active)
  | _ => True

/-- No read starts at timestamp 0. -/
def Allowed (hash : Fin n → ℕ) (s : State n) : Action n → Prop
  | .start _ _ readTs => readTs ≠ 0
  | .move k => MayMove (hash k) s (s.readers k) (s.readers k).stage

instance decidableMayMove (hash : ℕ) (s : State n) (r : Reader) (stage : Stage) :
    Decidable (MayMove hash s r stage) := by
  cases stage with
  | probing x t => cases x <;> unfold MayMove <;> infer_instance
  | flagged x => cases x <;> unfold MayMove <;> infer_instance
  | idle | both | tables | leaving =>
    unfold MayMove
    infer_instance

instance decidableAllowed (hash : Fin n → ℕ) (s : State n) (a : Action n) : Decidable (Allowed hash s a) := by
  cases a <;> unfold Allowed <;> infer_instance

/-! ## The invariant -/

/-- What a thread holds in a tracker. -/
def ticket (x : Which) (r : Reader) : Option Ticket := if Registered x r then some ⟨r.readTs, r.slot⟩ else none

structure Sound (s : State n) : Prop where
  tracks : ∀ x, Tracks (s.tracker x) fun k => ticket x (s.readers k)
  nonzero : ∀ k, (s.readers k).stage ≠ .idle → (s.readers k).readTs ≠ 0

theorem ticket_setReader (s : State n) (x : Which) (k : Fin n) (r : Reader) :
    (fun j => ticket x ((s.setReader k r).readers j)) =
      Function.update (fun j => ticket x (s.readers j)) k (ticket x r) :=
  Function.comp_update (ticket x) s.readers k r

theorem nonzero_setReader {s s' : State n} (h : Sound s) (hreaders : s'.readers = s.readers) {k : Fin n} {r : Reader}
    (hr : r.stage ≠ .idle → r.readTs ≠ 0) (j : Fin n) (hj : ((s'.setReader k r).readers j).stage ≠ .idle) :
    ((s'.setReader k r).readers j).readTs ≠ 0 := by
  simp only [State.setReader, hreaders] at hj ⊢
  by_cases hjk : j = k
  · rw [hjk, Function.update_self] at hj ⊢
    exact hr hj
  · rw [Function.update_of_ne hjk] at hj ⊢
    exact h.nonzero j hj

/-- One thread moves and keeps or changes its ticket in each tracker. -/
theorem Sound.set {s s' : State n} (h : Sound s) (hreaders : s'.readers = s.readers) {k : Fin n} {r : Reader}
    (hr : r.stage ≠ .idle → r.readTs ≠ 0)
    (htracks : ∀ x, Tracks (s'.tracker x) (Function.update (fun j => ticket x (s.readers j)) k (ticket x r))) :
    Sound (s'.setReader k r) := by
  refine ⟨?_, nonzero_setReader h hreaders hr⟩
  intro x
  rw [ticket_setReader, hreaders]
  exact htracks x

/-- A tracker in which the thread keeps its ticket. -/
theorem Sound.same {s : State n} (h : Sound s) {k : Fin n} {r : Reader} {x : Which}
    (hticket : ticket x r = ticket x (s.readers k)) :
    Tracks (s.tracker x) (Function.update (fun j => ticket x (s.readers j)) k (ticket x r)) := by
  rw [hticket, Function.update_eq_self k fun j => ticket x (s.readers j)]
  exact h.tracks x

@[simp] theorem setTracker_readers (s : State n) (x : Which) (t : Tracker) : (s.setTracker x t).readers = s.readers := by
  cases x <;> rfl

theorem setTracker_self (s : State n) (x : Which) (t : Tracker) : (s.setTracker x t).tracker x = t := by
  cases x <;> rfl

theorem setTracker_of_ne (s : State n) {x y : Which} (h : y ≠ x) (t : Tracker) :
    (s.setTracker x t).tracker y = s.tracker y := by
  cases x <;> cases y <;> first | rfl | exact absurd rfl h

/-- One thread moves, changes one tracker and keeps its ticket in the other. -/
theorem Sound.setOne {s : State n} (h : Sound s) {x : Which} {t : Tracker} {k : Fin n} {r : Reader}
    (hr : r.stage ≠ .idle → r.readTs ≠ 0)
    (htracks : Tracks t (Function.update (fun j => ticket x (s.readers j)) k (ticket x r)))
    (hother : ∀ y, y ≠ x → ticket y r = ticket y (s.readers k)) : Sound ((s.setTracker x t).setReader k r) := by
  refine h.set (setTracker_readers s x t) hr ?_
  intro y
  by_cases hyx : y = x
  · rw [hyx, setTracker_self]
    exact htracks
  · rw [setTracker_of_ne s hyx]
    exact h.same (hother y hyx)

/-! ## Every step -/

section Steps

variable {s : State n} {k : Fin n}

theorem ticket_of_stage {r : Reader} {x : Which} (h : Registered x r = true) : ticket x r = some ⟨r.readTs, r.slot⟩ :=
  if_pos h

theorem ticket_of_not {r : Reader} {x : Which} (h : Registered x r = false) : ticket x r = none := by
  rw [ticket, h]
  rfl

/-- A thread is not registered while it acquires, and it is afterwards. -/
theorem registered_acquired (x : Which) (call : Call) (readTs : ℕ) (slot : Option ℕ) :
    Registered x ⟨acquired x, call, readTs, slot⟩ = true := by
  cases x <;> rfl

/-- The last step of an `Acquire`. -/
theorem Sound.enter (h : Sound s) {x : Which} {t : Tracker} {slot : Option ℕ}
    (hstage : (∃ i, (s.readers k).stage = .probing x i) ∨ (s.readers k).stage = .flagged x)
    (htracks : ticket x (s.readers k) = none → (s.readers k).readTs ≠ 0 →
      Tracks t (Function.update (fun j => ticket x (s.readers j)) k (some ⟨(s.readers k).readTs, slot⟩)))
    (hslot : x = .sstables → (s.readers k).slot = slot) :
    Sound ((s.setTracker x t).setReader k { s.readers k with stage := acquired x, slot := slot }) := by
  have hactive : (s.readers k).stage ≠ .idle := by
    rcases hstage with ⟨i, hstage⟩ | hstage <;> simp [hstage]
  have hnone : ticket x (s.readers k) = none := by
    apply ticket_of_not
    rcases hstage with ⟨i, hstage⟩ | hstage <;> cases x <;> simp [Registered, hstage]
  refine h.setOne (fun _ => h.nonzero k hactive) ?_ ?_
  · rw [ticket_of_stage (registered_acquired x _ _ _)]
    exact htracks hnone (h.nonzero k hactive)
  · intro y hyx
    cases x with
    | memtables =>
      cases y with
      | memtables => exact absurd rfl hyx
      | sstables => rcases hstage with ⟨i, hstage⟩ | hstage <;> simp [ticket, Registered, hstage, acquired]
    | sstables =>
      cases y with
      | memtables => rcases hstage with ⟨i, hstage⟩ | hstage <;> simp [ticket, Registered, hstage, acquired, hslot]
      | sstables => exact absurd rfl hyx

/-- The first `Release` of a tracker. -/
theorem Sound.release (h : Sound s) {x : Which} {stage : Stage} (hreg : Registered x (s.readers k) = true)
    (hleft : Registered x { s.readers k with stage := stage } = false) (hactive : (s.readers k).stage ≠ .idle)
    (hother : ∀ y, y ≠ x → Registered y { s.readers k with stage := stage } = Registered y (s.readers k)) :
    Sound ((s.setTracker x ((s.tracker x).release (s.readers k).slot (s.readers k).readTs)).setReader k
      { s.readers k with stage := stage }) := by
  refine h.setOne (fun _ => h.nonzero k hactive) ?_ ?_
  · rw [ticket_of_not hleft]
    exact (h.tracks x).release (ticket_of_stage hreg)
  · intro y hyx
    rw [ticket, ticket, hother y hyx]

/-- Steps that leave the trackers alone. -/
theorem Sound.advance (h : Sound s) {r : Reader} (hr : r.stage ≠ .idle → r.readTs ≠ 0)
    (hticket : ∀ x, ticket x r = ticket x (s.readers k)) : Sound (s.setReader k r) :=
  h.set rfl hr fun x => h.same (hticket x)

theorem probe_lt (hash t : ℕ) : probe hash t < slotCount := Nat.mod_lt _ (by decide)

/-- An attempt to take a slot, or the flag when there is none. -/
theorem Sound.probing {hash : Fin n → ℕ} {t' : State n} (h : Sound s) {x : Which} {t : ℕ}
    (hstage : (s.readers k).stage = .probing x t)
    (hok : x = .sstables → t < slotCount → s.sstables.slots (probe (hash k) t) = 0 →
      (s.readers k).slot = some (probe (hash k) t))
    (hs : move hash s k = some t') : Sound t' := by
  have hactive : (s.readers k).stage ≠ .idle := by
    simp [hstage]
  have hkept : ∀ stage, ((∃ i, stage = Stage.probing x i) ∨ stage = .flagged x) → ∀ y,
      ticket y { s.readers k with stage := stage } = ticket y (s.readers k) := by
    intro stage hst y
    rcases hst with ⟨i, rfl⟩ | rfl <;> cases x <;> cases y <;> simp [ticket, Registered, hstage]
  simp only [move, hstage] at hs
  split at hs
  · next hlt =>
    split at hs
    · next hfree =>
      cases hs
      refine h.enter (.inl ⟨t, hstage⟩) ?_ ?_
      · intro hnone hts
        exact (h.tracks x).acquire hnone (probe_lt (hash k) t) hfree hts
      · intro hx
        subst hx
        exact hok rfl hlt hfree
    · cases hs
      exact h.advance (fun _ => h.nonzero k hactive) (hkept _ (.inl ⟨t + 1, rfl⟩))
  · cases hs
    refine h.setOne (fun _ => h.nonzero k hactive) ?_ fun y _ => hkept _ (.inr rfl) y
    rw [hkept _ (.inr rfl) x, Function.update_eq_self k fun j => ticket x (s.readers j)]
    exact (h.tracks x).raiseFlag

theorem Sound.move {hash : Fin n → ℕ} {t : State n} (h : Sound s) (hok : Allowed hash s (.move k))
    (hs : Snapshot.move hash s k = some t) : Sound t := by
  have hmay : MayMove (hash k) s (s.readers k) (s.readers k).stage := hok
  cases hstage : (s.readers k).stage with
  | idle =>
    simp only [Snapshot.move, hstage] at hs
    cases hs
  | probing x i =>
    rw [hstage] at hmay
    refine h.probing hstage ?_ hs
    intro hx
    subst hx
    exact hmay
  | flagged x =>
    rw [hstage] at hmay
    simp only [Snapshot.move, hstage] at hs
    cases hs
    refine h.enter (.inr hstage) ?_ ?_
    · intro hnone hts
      refine (h.tracks x).acquireActive hnone hts ?_
      cases x with
      | memtables => exact hmay
      | sstables => exact hmay.1
    · intro hx
      subst hx
      exact hmay.2
  | both =>
    simp only [Snapshot.move, hstage] at hs
    cases hs
    refine h.release (x := .memtables) ?_ rfl ?_ ?_
    · simp [Registered, hstage]
    · simp [hstage]
    · intro y hy
      cases y with
      | memtables => exact absurd rfl hy
      | sstables => simp [Registered, hstage]
  | tables =>
    simp only [Snapshot.move, hstage] at hs
    cases hs
    refine h.release (x := .sstables) ?_ ?_ ?_ ?_
    · simp [Registered, hstage]
    · cases (s.readers k).call <;> rfl
    · simp [hstage]
    · intro y hy
      cases y with
      | memtables => cases hcall : (s.readers k).call <;> simp [Registered, hstage]
      | sstables => exact absurd rfl hy
  | leaving =>
    rw [hstage] at hmay
    simp only [Snapshot.move, hstage] at hs
    cases hs
    have hkept : ∀ y, ticket y { s.readers k with stage := .idle } = ticket y (s.readers k) := by
      intro y
      cases y <;> simp [ticket, Registered, hstage]
    refine h.setOne (fun hidle => absurd rfl hidle) ?_ fun y _ => hkept y
    rw [hkept, Function.update_eq_self k fun j => ticket .memtables (s.readers j)]
    exact (h.tracks .memtables).release_again hmay.1 hmay.2

end Steps

theorem Sound.step {hash : Fin n → ℕ} {s t : State n} {a : Action n} (h : Sound s) (hok : Allowed hash s a)
    (hs : Snapshot.step hash s a = some t) : Sound t := by
  cases a with
  | start k call readTs =>
    simp only [Snapshot.step] at hs
    split at hs
    · next hidle =>
      cases hs
      refine h.advance (fun _ => hok) ?_
      intro x
      cases x <;> simp [ticket, Registered, hidle]
    · cases hs
  | move k => exact h.move hok hs

theorem init_sound (n : ℕ) : Sound (init n) := by
  refine ⟨?_, fun _ hstage => absurd rfl hstage⟩
  intro x
  cases x
  · exact Tracks.new
  · exact Tracks.new

/-! ## The minimum of a tracker -/

/-- In every state reached a tracker reports a minimum at or below the timestamp of each thread that is
registered in it, and the two report the largest number when no thread is inside a read. -/
theorem minActiveTS_covers_readers {n : ℕ} (hash : Fin n → ℕ) (acts : List (Action n)) (s : State n)
    (h : Run (step hash) (Allowed hash) (init n) acts s) :
    (∀ x k, Registered x (s.readers k) = true → (s.tracker x).minActiveTS ≤ (s.readers k).readTs) ∧
      ((∀ k, (s.readers k).stage = .idle) →
        s.memtables.minActiveTS = uint64Max ∧ s.sstables.minActiveTS = uint64Max) := by
  have hsound : Sound s := h.invariant (fun _ _ _ hok hs hsound => hsound.step hok hs) (init_sound n)
  constructor
  · intro x k hreg
    exact (hsound.tracks x).minActiveTS_le (ticket_of_stage hreg)
  · intro hidle
    have hnone : ∀ x k, ticket x (s.readers k) = none := by
      intro x k
      apply ticket_of_not
      cases x <;> simp [Registered, hidle k]
    exact ⟨(hsound.tracks .memtables).minActiveTS_idle (hnone .memtables),
      (hsound.tracks .sstables).minActiveTS_idle (hnone .sstables)⟩

/-- A lookup and a scan of two threads whose first slots differ, up to the point where the lookup has moved on to
the tables. -/
def overlapping : List (Action 2) :=
  [.start 0 .lookup 5, .move 0, .start 1 .rangeScan 7, .move 1, .move 0, .move 1, .move 0]

/-- The rest of the two reads. -/
def finishing : List (Action 2) := [.move 0, .move 1, .move 0, .move 1]

theorem minActiveTS_covers_readers_overlapping :
    (∃ s, Run (step fun k : Fin 2 => k.val) (Allowed fun k => k.val) (init 2) overlapping s ∧
      s.memtables.minActiveTS ≤ 7 ∧ s.sstables.minActiveTS ≤ 5) ∧
    ∃ s, Run (step fun k : Fin 2 => k.val) (Allowed fun k => k.val) (init 2) (overlapping ++ finishing) s ∧
      s.memtables.minActiveTS = uint64Max ∧ s.sstables.minActiveTS = uint64Max := by
  have hmid : ∃ s, Run (step fun k : Fin 2 => k.val) (Allowed fun k => k.val) (init 2) overlapping s ∧
      Registered .memtables (s.readers 1) = true ∧ (s.readers 1).readTs ≤ 7 ∧
      Registered .sstables (s.readers 0) = true ∧ (s.readers 0).readTs ≤ 5 := Run.exists_of_checked (by decide)
  have hend : ∃ s, Run (step fun k : Fin 2 => k.val) (Allowed fun k => k.val) (init 2) (overlapping ++ finishing) s ∧
      ∀ k, (s.readers k).stage = .idle := Run.exists_of_checked (by decide)
  obtain ⟨s, hrun, hscan, hscanTs, hlookup, hlookupTs⟩ := hmid
  obtain ⟨t, hmore, hidle⟩ := hend
  have hcovers := (minActiveTS_covers_readers _ _ _ hrun).1
  refine ⟨⟨s, hrun, ?_, ?_⟩, ⟨t, hmore, (minActiveTS_covers_readers _ _ _ hmore).2 hidle⟩⟩
  · exact (hcovers .memtables 1 hscan).trans hscanTs
  · exact (hcovers .sstables 0 hlookup).trans hlookupTs

/-- Three threads with the same first slot. The scan of thread 0 still holds slot 0 of `tracker_sst_`, so thread 1
finds slot 0 of `tracker_` and slot 1 of `tracker_sst_`, and releases slot 1 of `tracker_`, which thread 2 holds. -/
def wrongSlot : List (Action 3) :=
  [.start 0 .rangeScan 5, .move 0, .move 0, .move 0, .start 2 .lookup 7, .start 1 .lookup 9, .move 1, .move 2, .move 2,
    .move 1, .move 1, .move 1]

/-- The rest of the three reads. -/
def wrongSlotRest : List (Action 3) :=
  [.move 2, .move 2, .move 2, .move 2, .move 2, .move 2, .move 0, .move 1, .move 1]

/-- Thread 2 is registered at 7 and `tracker_` reports 9; when all threads are done it still reports 9. -/
theorem registered_reader_not_covered :
    (∃ s, Run (step fun _ : Fin 3 => 0) anyStep (init 3) wrongSlot s ∧
      Registered .memtables (s.readers 2) = true ∧ (s.readers 2).readTs = 7 ∧ s.memtables.minActiveTS = 9) ∧
    ∃ s, Run (step fun _ : Fin 3 => 0) anyStep (init 3) (wrongSlot ++ wrongSlotRest) s ∧
      (∀ k, (s.readers k).stage = .idle) ∧ s.memtables.minActiveTS = 9 :=
  ⟨Run.exists_of_checked (by decide +kernel), Run.exists_of_checked (by decide +kernel)⟩

end Kvdb.Snapshot
