import Kvdb.Engine.CacheRace

/-! # Reads under one timestamp

A reader takes the value of `global_ts_` for its snapshot. A writer advances this counter before it inserts the
version, and it updates the key-value cache last: a reader can hold a timestamp whose version comes later, and two
readers with the same timestamp can then find different values of a key. -/
namespace Kvdb.SnapshotReads
set_option autoImplicit false

open Kvdb.Runs Kvdb.Engine
open Kvdb.ReadOrder (Source)
open Kvdb.BatchServing (Effect last effectOf View last_cons)
open Kvdb.Interleaving (WriterStage Steady Unmixed updateCache)
open Kvdb.CacheRace (ReaderStage Reader ReaderAction readerStep watch completes start_cases get_cases search_cases
  populate_cases)

/-- A `Lookup` that has returned. -/
structure Read where
  key : Bytes
  readTs : ℕ
  answer : Option Bytes
  deriving DecidableEq

variable {m n : ℕ}

/-- Any number of writers and readers; `issued` are the versions that have got a timestamp, from the newest on. -/
structure State (m n : ℕ) where
  engine : Engine
  flight : Option MemTable
  committed : List Effect
  writers : Fin m → WriterStage
  readers : Fin n → Reader
  issued : List KeyValuePair
  reads : List Read

/-- A step of a writer (or of the flush worker, for every `j`), or a step of a reader. -/
inductive Action (m n : ℕ) where
  | write (j : Fin m) (a : Interleaving.Action)
  | read (a : ReaderAction n)

def init (cfg : EngineConfig) (m n : ℕ) : State m n where
  engine := Engine.create cfg
  flight := none
  committed := []
  writers := fun _ => .idle
  readers := fun _ => ⟨[], 0, .idle, true⟩
  issued := []
  reads := []

/-- What a writer in the given stage sees. -/
def State.withWriter (s : State m n) (w : WriterStage) : Interleaving.State := ⟨s.engine, s.flight, s.committed, w⟩

/-- The version that gets its timestamp in the step to stage `w`. -/
def issues (w : WriterStage) : Interleaving.Action → Option KeyValuePair
  | .takeTimestamp _ _ _ => w.coming
  | _ => none

/-- The `Lookup` that returns with the step. -/
def returns (e : Engine) (readers : Fin n → Reader) : ReaderAction n → Option Read
  | .start _ _ => none
  | .get k => (e.kvCache.get (readers k).key (readers k).readTs).1.map fun v =>
      ⟨(readers k).key, (readers k).readTs, shownValue v⟩
  | .search k =>
    match (e.lookupUncached (readers k).key (readers k).readTs).1.bind shownValue with
    | none => some ⟨(readers k).key, (readers k).readTs, none⟩
    | some _ => none
  | .populate k =>
    match (readers k).stage with
    | .found v => some ⟨(readers k).key, (readers k).readTs, some v⟩
    | _ => none

def step (s : State m n) : Action m n → Option (State m n)
  | .write j a => (Interleaving.step (s.withWriter (s.writers j)) a).map fun c =>
      { engine := c.engine
        flight := c.flight
        committed := c.committed
        writers := Function.update s.writers j c.writer
        readers := watch s.readers (completes (s.writers j) a)
        issued := (issues c.writer a).toList ++ s.issued
        reads := s.reads }
  | .read a => (readerStep s.engine s.readers a).map fun p =>
      { s with
        engine := p.1
        readers := p.2
        reads := (returns s.engine s.readers a).toList ++ s.reads }

/-- The version is in a memtable or in a table of the catalogue. -/
def Present (s : State m n) (x : KeyValuePair) : Prop := ∃ src ∈ s.engine.column s.flight x.key, x ∈ src.versions

def busy (w : WriterStage) : Bool := w.coming.isSome || w.applied.isSome

/-- The condition on a step. One writer is in a call at a time. A reader takes its timestamp while no writer stands
between its own and the insertion of the version, and no call that writes the key of the reader is to update the cache.
A flush ends only if it drops no version that a reader sees. The rest is as for the cache: see `CacheRace.Allowed`. -/
def Allowed (s : State m n) : Action m n → Prop
  | .write _ (.takeTimestamp _ _ _) => ∀ i, busy (s.writers i) = false
  | .write j .memInsert => Interleaving.Allowed (s.withWriter (s.writers j)) .memInsert
  | .write j .finish => ∀ w ∈ (s.writers j).applied, s.engine.kvCache.Found w.key ∧
      (w.isTombstone = false → Config.pageSize / 2 < w.value.length → s.engine.kvCache.NotCached w.key)
  | .write _ .flushFinish => ∀ k, (s.readers k).stage ≠ .idle → ∀ mt ∈ s.flight, Unmixed (s.readers k).readTs mt
  | .write _ _ => True
  | .read (.start _ key) => ∀ i, (s.writers i).coming = none ∧ ∀ w ∈ (s.writers i).applied, w.key ≠ key
  | .read (.search k) => ∀ mt ∈ s.flight, ∀ x ∈ mt.entries, x.key ≠ (s.readers k).key
  | .read (.populate k) => (s.readers k).clean = true
  | .read (.get _) => True

instance decidableAllowed (s : State m n) : (a : Action m n) → Decidable (Allowed s a)
  | .write _ (.takeTimestamp _ _ _) => inferInstanceAs (Decidable (∀ i, busy (s.writers i) = false))
  | .write j .memInsert => Interleaving.decidableAllowed (s.withWriter (s.writers j)) .memInsert
  | .write j .finish => inferInstanceAs (Decidable (∀ w ∈ (s.writers j).applied, _ ∧ (_ → _ → _)))
  | .write _ .flushFinish => inferInstanceAs (Decidable (∀ k, (s.readers k).stage ≠ .idle → ∀ mt ∈ s.flight,
      Unmixed (s.readers k).readTs mt))
  | .write _ .bufferWrite | .write _ .freezeIfFull | .write _ .flushPop => isTrue trivial
  | .read (.start _ key) =>
    inferInstanceAs (Decidable (∀ i, (s.writers i).coming = none ∧ ∀ w ∈ (s.writers i).applied, w.key ≠ key))
  | .read (.search k) => inferInstanceAs (Decidable (∀ mt ∈ s.flight, ∀ x ∈ mt.entries, x.key ≠ (s.readers k).key))
  | .read (.populate k) => inferInstanceAs (Decidable ((s.readers k).clean = true))
  | .read (.get _) => isTrue trivial

/-! ## One call at a time -/

theorem eq_idle_of_not_busy {w : WriterStage} (h : busy w = false) : w = .idle := by
  cases w with
  | idle => rfl
  | _ => cases h

/-- At most one writer is in a call, and its stage is `w`. -/
def Serial (writers : Fin m → WriterStage) (w : WriterStage) : Prop :=
  (w = .idle ∧ ∀ i, writers i = .idle) ∨ ∃ j, writers j = w ∧ ∀ i, i ≠ j → writers i = .idle

section Serial

variable {writers : Fin m → WriterStage} {w : WriterStage}

theorem Serial.eq_of_busy (h : Serial writers w) {j : Fin m} (hj : writers j ≠ .idle) : writers j = w := by
  rcases h with ⟨-, hidle⟩ | ⟨j0, hw, hothers⟩
  · exact absurd (hidle j) hj
  · by_cases heq : j = j0
    · rw [heq]
      exact hw
    · exact absurd (hothers j heq) hj

theorem Serial.eq_of_idle (h : Serial writers w) (hidle : ∀ i, writers i = .idle) : w = .idle := by
  rcases h with ⟨hw, -⟩ | ⟨j, hw, -⟩
  · exact hw
  · exact hw.symm.trans (hidle j)

theorem Serial.update (h : Serial writers w) {j : Fin m} (hj : writers j = w) (w' : WriterStage) :
    Serial (Function.update writers j w') w' := by
  refine .inr ⟨j, Function.update_self j w' writers, ?_⟩
  intro i hij
  rw [Function.update_of_ne hij]
  rcases h with ⟨-, hidle⟩ | ⟨j0, hw, hothers⟩
  · exact hidle i
  · by_cases hi : i = j0
    · by_cases hj0 : j = j0
      · exact absurd (hi.trans hj0.symm) hij
      · rw [hi, hw, ← hj]
        exact hothers j hj0
    · exact hothers i hi

/-- The steps of all writers are steps of the one that is in its call. -/
theorem Serial.step {s : State m n} (h : Serial s.writers w) {j : Fin m} {a : Interleaving.Action}
    (hok : Allowed s (.write j a)) {c : Interleaving.State}
    (hs : Interleaving.step (s.withWriter (s.writers j)) a = some c) :
    ∃ w', Interleaving.step (s.withWriter w) a = some { c with writer := w' } ∧
      Serial (Function.update s.writers j c.writer) w' ∧ completes (s.writers j) a = completes w a ∧
      issues c.writer a = issues w' a ∧ (s.writers j = w ∨ a = .flushPop ∨ a = .flushFinish) := by
  have hmoved : s.writers j = w → ∃ w', Interleaving.step (s.withWriter w) a = some { c with writer := w' } ∧
      Serial (Function.update s.writers j c.writer) w' ∧ completes (s.writers j) a = completes w a ∧
      issues c.writer a = issues w' a ∧ (s.writers j = w ∨ a = .flushPop ∨ a = .flushFinish) := by
    intro hj
    refine ⟨c.writer, ?_, h.update hj c.writer, by rw [hj], rfl, .inl hj⟩
    rw [← hj]
    exact hs
  have hbusy : s.writers j ≠ .idle → s.writers j = w := h.eq_of_busy
  cases a with
  | takeTimestamp key value isTombstone =>
    have hidle : ∀ i, s.writers i = .idle := fun i => eq_idle_of_not_busy (hok i)
    exact hmoved ((hidle j).trans (h.eq_of_idle hidle).symm)
  | bufferWrite =>
    obtain ⟨v, hv, -⟩ := Interleaving.bufferWrite_cases hs
    exact hmoved (hbusy fun hidle => WriterStage.noConfusion (hidle.symm.trans hv))
  | memInsert =>
    obtain ⟨v, hv, -⟩ := Interleaving.memInsert_cases hs
    exact hmoved (hbusy fun hidle => WriterStage.noConfusion (hidle.symm.trans hv))
  | freezeIfFull =>
    obtain ⟨v, hv, -⟩ := Interleaving.freezeIfFull_cases hs
    exact hmoved (hbusy fun hidle => WriterStage.noConfusion (hidle.symm.trans hv))
  | finish =>
    obtain ⟨v, hv, -⟩ := Interleaving.finish_cases hs
    exact hmoved (hbusy fun hidle => WriterStage.noConfusion (hidle.symm.trans hv))
  | flushPop =>
    obtain ⟨hflight, mt, rest, hfrozen, rfl⟩ := Interleaving.flushPop_cases hs
    refine ⟨w, ?_, ?_, rfl, rfl, .inr (.inl rfl)⟩
    · have hf : s.flight = none := hflight
      have hq : s.engine.frozenMemtables = mt :: rest := hfrozen
      simp only [Interleaving.step, State.withWriter, hf, hq]
    · show Serial (Function.update s.writers j (s.writers j)) w
      rw [Function.update_eq_self]
      exact h
  | flushFinish =>
    obtain ⟨mt, hm, rfl⟩ := Interleaving.flushFinish_cases hs
    refine ⟨w, ?_, ?_, rfl, rfl, .inr (.inr rfl)⟩
    · have hf : s.flight = some mt := hm
      simp only [Interleaving.step, State.withWriter, hf, Option.map_some]
    · show Serial (Function.update s.writers j (s.writers j)) w
      rw [Function.update_eq_self]
      exact h

end Serial

/-! ## What a reader should find -/

/-- The newest of the versions at or below the timestamp. -/
def answerAt (issued : List KeyValuePair) (r : ℕ) (key : Bytes) : Option Bytes :=
  last ((issued.filter (visAt r)).map effectOf) key

section Answers

variable {issued : List KeyValuePair} {r r' : ℕ} {key : Bytes}

theorem answerAt_cons (w : KeyValuePair) :
    answerAt (w :: issued) r key = if w.timestamp ≤ r ∧ w.key = key then shown w else answerAt issued r key := by
  unfold answerAt
  by_cases hvis : w.timestamp ≤ r
  · rw [List.filter_cons_of_pos (by simpa [visAt] using hvis), List.map_cons, last_cons]
    by_cases hkey : w.key = key
    · exact (if_pos hkey).trans (if_pos ⟨hvis, hkey⟩).symm
    · exact (if_neg hkey).trans (if_neg fun h => hkey h.2).symm
  · rw [List.filter_cons_of_neg (by simpa [visAt] using hvis), if_neg fun h => hvis h.1]

theorem answerAt_issue {w : KeyValuePair} (h : r < w.timestamp) : answerAt (w :: issued) r key = answerAt issued r key := by
  rw [answerAt_cons, if_neg fun hw => Nat.not_le_of_lt h hw.1]

/-- The answer changes with the versions of the key only. -/
theorem answerAt_congr (h : ∀ w ∈ issued, w.key = key → (w.timestamp ≤ r' ↔ w.timestamp ≤ r)) :
    answerAt issued r' key = answerAt issued r key := by
  induction issued with
  | nil => rfl
  | cons w issued ih =>
    have hrest := ih fun x hx => h x (List.mem_cons_of_mem w hx)
    rw [answerAt_cons, answerAt_cons, hrest]
    by_cases hkey : w.key = key
    · simp only [h w List.mem_cons_self hkey]
    · rw [if_neg fun hw => hkey hw.2, if_neg fun hw => hkey hw.2]

theorem answerAt_all (h : ∀ w ∈ issued, w.timestamp ≤ r) : answerAt issued r key = last (issued.map effectOf) key := by
  rw [answerAt, List.filter_eq_self.mpr]
  intro w hw
  simpa [visAt] using h w hw

end Answers

/-! ## The invariant of the writes -/

/-- The newest timestamp at which the cache and the sources agree on the key. -/
def doneTs (c : Interleaving.State) (key : Bytes) : ℕ :=
  if c.writer.coming.isSome || c.writer.applied.any fun w => decide (w.key = key) then c.engine.globalTs - 1
  else c.engine.globalTs

/-- A version of the key between the two timestamps is in one of the sources. -/
def Held (c : Interleaving.State) (key : Bytes) (low high : ℕ) : Prop :=
  ∃ src ∈ c.column key, ∃ x ∈ src.versions, low ≤ x.timestamp ∧ x.timestamp ≤ high

structure Recorded (c : Interleaving.State) (issued : List KeyValuePair) : Prop where
  steady : Steady c
  history : ∃ rest, issued = (c.writer.coming.or c.writer.applied).toList ++ rest ∧ rest.map effectOf = c.committed
  newest : issued.Pairwise fun a b => b.timestamp < a.timestamp
  dated : ∀ w ∈ issued, w.timestamp ≤ c.engine.globalTs
  held : ∀ w ∈ issued, c.writer.coming = some w ∨ Held c w.key w.timestamp c.engine.globalTs
  within : ∀ key, ∀ src ∈ c.column key, ∀ x ∈ src.versions, x ∈ issued

section Writes

variable {c c' : Interleaving.State} {a : Interleaving.Action} {issued : List KeyValuePair} {key : Bytes}

theorem doneTs_of_idle (h : c.writer = .idle) : doneTs c key = c.engine.globalTs := by
  rw [doneTs, h]
  rfl

theorem doneTs_of_coming {w : KeyValuePair} (h : c.writer.coming = some w) : doneTs c key = c.engine.globalTs - 1 := by
  rw [doneTs, h]
  rfl

theorem doneTs_of_applied {w : KeyValuePair} (hcoming : c.writer.coming = none) (h : c.writer.applied = some w) :
    doneTs c key = if w.key = key then c.engine.globalTs - 1 else c.engine.globalTs := by
  rw [doneTs, hcoming, h]
  simp

theorem doneTs_le (c : Interleaving.State) (key : Bytes) : doneTs c key ≤ c.settledTs := by
  unfold doneTs Interleaving.State.settledTs
  cases c.writer.coming with
  | some w => exact Nat.le_refl _
  | none =>
    simp only [Option.isSome_none, Bool.false_or, Bool.false_eq_true, if_false]
    split
    · omega
    · exact Nat.le_refl _

theorem settledTs_le (c : Interleaving.State) : c.settledTs ≤ c.engine.globalTs := by
  unfold Interleaving.State.settledTs
  split
  · omega
  · exact Nat.le_refl _

/-- No version is above the clock. -/
theorem unmixed_clock (h : Steady c) {mt : MemTable} (hm : mt ∈ c.flight) : Unmixed c.engine.globalTs mt := by
  intro _ _ y hy _ _
  have hmem : mt ∈ c.settled.engine.memtableOrder c.settled.flight := BatchServing.mem_memtableOrder.mpr (.inr (.inr hm))
  exact (h.plain.entries_dated hmem y hy).trans (settledTs_le c)

theorem Held.step (hsteady : Steady c) (hok : Interleaving.Allowed c a) (hs : Interleaving.step c a = some c')
    {low high : ℕ} (h : Held c key low high) (hunmixed : a = .flushFinish → ∀ mt ∈ c.flight, Unmixed high mt) :
    Held c' key low high := by
  obtain ⟨src, hsrc, x, hx, hlow, hhigh⟩ := h
  obtain ⟨src', hsrc', y, hy, rfl | ⟨rfl, mt, hm, hxm, hym, hkey, hle⟩⟩ := hsteady.kept hok hs hsrc hx
  · exact ⟨src', hsrc', y, hy, hlow, hhigh⟩
  · exact ⟨src', hsrc', y, hy, hlow.trans hle, hunmixed rfl mt hm x hxm y hym hkey hhigh⟩

/-- A new timestamp. -/
theorem Recorded.takeTimestamp (h : Recorded c issued) {k value : Bytes} {isTombstone : Bool}
    (hs : Interleaving.step c (.takeTimestamp k value isTombstone) = some c') :
    Recorded c' ((issues c'.writer (.takeTimestamp k value isTombstone)).toList ++ issued) := by
  have hsteady := h.steady.takeTimestamp hs
  obtain ⟨hidle, w, hts, rfl⟩ := Interleaving.takeTimestamp_cases hs
  obtain ⟨rest, hrest, hcommitted⟩ := h.history
  rw [hidle] at hrest
  have hissued : issued = rest := hrest
  refine ⟨hsteady, ⟨issued, rfl, by rw [hissued]; exact hcommitted⟩, ?_, ?_, ?_, ?_⟩
  · refine List.pairwise_cons.mpr ⟨?_, h.newest⟩
    intro x hx
    have hle := h.dated x hx
    omega
  · intro x hx
    show x.timestamp ≤ c.engine.globalTs + 1
    rcases List.mem_cons.mp hx with rfl | hx
    · omega
    · have hle := h.dated x hx
      omega
  · intro x hx
    rcases List.mem_cons.mp hx with rfl | hx
    · exact .inl rfl
    · right
      rcases h.held x hx with hcoming | ⟨src, hsrc, y, hy, hlow, hhigh⟩
      · rw [hidle] at hcoming
        cases hcoming
      · exact ⟨src, hsrc, y, hy, hlow, Nat.le_succ_of_le hhigh⟩
  · intro key src hsrc x hx
    exact List.mem_cons_of_mem _ (h.within key src hsrc x hx)

/-- Every other step leaves the issued versions. -/
theorem Recorded.others (h : Recorded c issued) (hok : Interleaving.Allowed c a) (hs : Interleaving.step c a = some c')
    (hissued : issues c'.writer a = none)
    (hhistory : ∃ rest, issued = (c'.writer.coming.or c'.writer.applied).toList ++ rest ∧ rest.map effectOf = c'.committed)
    (hclock : c'.engine.globalTs = c.engine.globalTs)
    (hcoming : ∀ w ∈ c.writer.coming, c'.writer.coming = some w ∨ Held c' w.key w.timestamp c'.engine.globalTs) :
    Recorded c' ((issues c'.writer a).toList ++ issued) := by
  rw [hissued]
  refine ⟨h.steady.step hok hs, hhistory, h.newest, hclock ▸ h.dated, ?_, ?_⟩
  · intro w hw
    rcases h.held w hw with hw | hheld
    · exact hcoming w hw
    · right
      rw [hclock]
      exact hheld.step h.steady hok hs fun _ mt hm => unmixed_clock h.steady hm
  · intro key src hsrc x hx
    rcases h.steady.versions hok hs hsrc hx with ⟨src0, hsrc0, hx0⟩ | ⟨happlied, -⟩
    · exact h.within key src0 hsrc0 x hx0
    · obtain ⟨rest, hrest, -⟩ := hhistory
      have hnone : c'.writer.coming = none := by
        cases hw : c'.writer <;> rw [hw] at happlied <;> first | rfl | cases happlied
      rw [hrest, hnone, happlied]
      exact List.mem_cons_self

theorem Recorded.memInsert (h : Recorded c issued) (hok : Interleaving.Allowed c .memInsert)
    (hs : Interleaving.step c .memInsert = some c') : Recorded c' ((issues c'.writer .memInsert).toList ++ issued) := by
  obtain ⟨w, hw, rfl⟩ := Interleaving.memInsert_cases hs
  have hcoming : c.writer.coming = some w := by
    rw [hw]
    rfl
  refine h.others hok hs rfl ?_ rfl ?_
  · obtain ⟨rest, hrest, hcommitted⟩ := h.history
    rw [hcoming] at hrest
    exact ⟨rest, hrest, hcommitted⟩
  · intro w' hw'
    rw [hcoming] at hw'
    cases hw'
    right
    have hcolumn := h.steady.column_memInsert (hok w hcoming).1 w.key
    rw [if_pos rfl] at hcolumn
    refine ⟨⟨true, w :: (memtableStack w.key c.engine.activeMemtable).versions⟩, ?_, w, List.mem_cons_self,
      Nat.le_refl _, Nat.le_of_eq (h.steady.coming w hcoming).1⟩
    rw [hcolumn]
    exact List.mem_cons_self

theorem Recorded.step (h : Recorded c issued) (hok : Interleaving.Allowed c a) (hs : Interleaving.step c a = some c') :
    Recorded c' ((issues c'.writer a).toList ++ issued) := by
  have hclock := Interleaving.step_clock hs
  obtain ⟨rest, hrest, hcommitted⟩ := h.history
  cases a with
  | takeTimestamp k value isTombstone => exact h.takeTimestamp hs
  | memInsert => exact h.memInsert hok hs
  | bufferWrite =>
    have hsame := hclock.resolve_right (by simp)
    obtain ⟨w, hw, rfl⟩ := Interleaving.bufferWrite_cases hs
    rw [hw] at hrest
    refine h.others hok hs rfl ⟨rest, hrest, hcommitted⟩ hsame ?_
    rw [hw]
    exact fun _ hw' => .inl hw'
  | freezeIfFull =>
    have hsame := hclock.resolve_right (by simp)
    obtain ⟨w, hw, rfl⟩ := Interleaving.freezeIfFull_cases hs
    rw [hw] at hrest
    refine h.others hok hs rfl ⟨rest, hrest, hcommitted⟩ hsame ?_
    rw [hw]
    exact fun _ hw' => (by cases hw')
  | finish =>
    have hsame := hclock.resolve_right (by simp)
    obtain ⟨w, hw, rfl⟩ := Interleaving.finish_cases hs
    rw [hw] at hrest
    refine h.others hok hs rfl ⟨issued, rfl, ?_⟩ hsame ?_
    · rw [hrest]
      exact congrArg _ hcommitted
    · rw [hw]
      exact fun _ hw' => (by cases hw')
  | flushPop =>
    have hsame := hclock.resolve_right (by simp)
    obtain ⟨-, mt, queue, -, rfl⟩ := Interleaving.flushPop_cases hs
    exact h.others hok hs rfl ⟨rest, hrest, hcommitted⟩ hsame fun _ hw' => .inl hw'
  | flushFinish =>
    have hsame := hclock.resolve_right (by simp)
    obtain ⟨mt, -, rfl⟩ := Interleaving.flushFinish_cases hs
    exact h.others hok hs rfl ⟨rest, hrest, hcommitted⟩ hsame fun _ hw' => .inl hw'

/-! ## What a step makes of the answers -/

/-- The timestamp of a version that is issued in a step follows the clock. -/
theorem issues_above (hs : Interleaving.step c a = some c') {w : KeyValuePair} (hw : w ∈ issues c'.writer a) :
    w.timestamp = c.engine.globalTs + 1 := by
  cases a with
  | takeTimestamp k value isTombstone =>
    obtain ⟨-, w', hts, rfl⟩ := Interleaving.takeTimestamp_cases hs
    cases hw
    exact hts
  | _ => cases hw

theorem answerAt_step (hs : Interleaving.step c a = some c') {r : ℕ} (hr : r ≤ c.engine.globalTs) :
    answerAt ((issues c'.writer a).toList ++ issued) r key = answerAt issued r key := by
  cases hissues : issues c'.writer a with
  | none => rfl
  | some w =>
    have hts := issues_above hs hissues
    exact answerAt_issue (by omega)

/-- The version of the call in progress is the newest one. -/
theorem Recorded.older (h : Recorded c issued) {w x : KeyValuePair} (hw : c.writer.coming.or c.writer.applied = some w)
    (hx : x ∈ issued) (hne : x ≠ w) : x.timestamp < w.timestamp := by
  obtain ⟨rest, hrest, -⟩ := h.history
  rw [hw] at hrest
  have hnewest := h.newest
  rw [hrest] at hx hnewest
  rcases List.mem_cons.mp hx with heq | hx
  · exact absurd heq hne
  · exact (List.pairwise_cons.mp hnewest).1 x hx

/-- In a step that completes no write of the key, none of its versions is done. -/
theorem doneTs_step (h : Recorded c issued) (hs : Interleaving.step c a = some c') (key : Bytes) :
    doneTs c key ≤ doneTs c' key ∧
      (completes c.writer a ≠ some key → ∀ x ∈ (issues c'.writer a).toList ++ issued, x.key = key →
        x.timestamp ≤ doneTs c' key → x.timestamp ≤ doneTs c key) := by
  have hclock := Interleaving.step_clock hs
  have hequal : doneTs c' key = doneTs c key → doneTs c key ≤ doneTs c' key ∧
      (completes c.writer a ≠ some key → ∀ x ∈ (issues c'.writer a).toList ++ issued, x.key = key →
        x.timestamp ≤ doneTs c' key → x.timestamp ≤ doneTs c key) := by
    intro heq
    rw [heq]
    exact ⟨Nat.le_refl _, fun _ _ _ _ hle => hle⟩
  cases a with
  | takeTimestamp k value isTombstone =>
    obtain ⟨hidle, w, -, rfl⟩ := Interleaving.takeTimestamp_cases hs
    apply hequal
    rw [doneTs_of_idle hidle]
    rfl
  | bufferWrite =>
    obtain ⟨w, hw, rfl⟩ := Interleaving.bufferWrite_cases hs
    apply hequal
    rw [doneTs, doneTs, hw]
    rfl
  | memInsert =>
    obtain ⟨w, hw, rfl⟩ := Interleaving.memInsert_cases hs
    have hcoming : c.writer.coming = some w := by
      rw [hw]
      rfl
    have hafter : doneTs { c with
        engine := c.engine.memInsert w.key w.value w.timestamp w.isTombstone
        writer := .inserted w } key = if w.key = key then c.engine.globalTs - 1 else c.engine.globalTs :=
      doneTs_of_applied rfl rfl
    rw [hafter, doneTs_of_coming hcoming]
    by_cases hkey : w.key = key
    · rw [if_pos hkey]
      exact ⟨Nat.le_refl _, fun _ _ _ _ hle => hle⟩
    · rw [if_neg hkey]
      refine ⟨Nat.sub_le _ _, ?_⟩
      intro _ x hx hxkey _
      have hne : x ≠ w := fun heq => hkey (heq ▸ hxkey)
      have holder := h.older (by rw [hcoming]; rfl) hx hne
      have hts := (h.steady.coming w hcoming).1
      omega
  | freezeIfFull =>
    have hsame := hclock.resolve_right (by simp)
    obtain ⟨w, hw, rfl⟩ := Interleaving.freezeIfFull_cases hs
    apply hequal
    rw [doneTs, doneTs, hsame, hw]
    rfl
  | finish =>
    obtain ⟨w, hw, rfl⟩ := Interleaving.finish_cases hs
    have hbefore : doneTs c key = if w.key = key then c.engine.globalTs - 1 else c.engine.globalTs :=
      doneTs_of_applied (by rw [hw]; rfl) (by rw [hw]; rfl)
    have hafter : doneTs ⟨{ c.engine with kvCache := updateCache c.engine.kvCache w }, c.flight,
        effectOf w :: c.committed, .idle⟩ key = c.engine.globalTs := doneTs_of_idle rfl
    rw [hafter, hbefore]
    by_cases hkey : w.key = key
    · rw [if_pos hkey]
      refine ⟨Nat.sub_le _ _, ?_⟩
      intro hnot
      refine absurd ?_ hnot
      rw [completes, hw, ← hkey]
      rfl
    · rw [if_neg hkey]
      exact ⟨Nat.le_refl _, fun _ _ _ _ hle => hle⟩
  | flushPop =>
    obtain ⟨-, mt, queue, -, rfl⟩ := Interleaving.flushPop_cases hs
    exact hequal rfl
  | flushFinish =>
    have hsame := hclock.resolve_right (by simp)
    obtain ⟨mt, -, rfl⟩ := Interleaving.flushFinish_cases hs
    apply hequal
    rw [doneTs, doneTs, hsame]

end Writes

/-! ## Readers and the cache -/

/-- A reader finds the newest version at or below its timestamp, and all it may need is there. -/
structure Follows (c : Interleaving.State) (issued : List KeyValuePair) (r : Reader) : Prop where
  readTs : r.readTs ≤ doneTs c r.key
  view : View r.readTs (c.column r.key) (answerAt issued r.readTs r.key)
  held : ∀ w ∈ issued, w.timestamp ≤ r.readTs → Held c w.key w.timestamp r.readTs
  found : ∀ v, r.stage = .found v → answerAt issued r.readTs r.key = some v ∧ shownValue v = some v
  clean : r.clean = true → ∀ w ∈ issued, w.key = r.key → w.timestamp ≤ doneTs c r.key → w.timestamp ≤ r.readTs

/-- A cached value is the answer at every timestamp from its own up to the newest that is done. -/
def Agrees (c : Interleaving.State) (issued : List KeyValuePair) (x : KVCache.Entry) : Prop :=
  x.timestamp ≤ doneTs c x.key ∧
    ∀ r, x.timestamp ≤ r → r ≤ doneTs c x.key → answerAt issued r x.key = shownValue x.value

section Steps

variable {c c' : Interleaving.State} {a : Interleaving.Action} {issued : List KeyValuePair}

theorem doneTs_le_clock (c : Interleaving.State) (key : Bytes) : doneTs c key ≤ c.engine.globalTs :=
  (doneTs_le c key).trans (settledTs_le c)

theorem Follows.step {r : Reader} (h : Follows c issued r) (hrec : Recorded c issued) (hok : Interleaving.Allowed c a)
    (hs : Interleaving.step c a = some c')
    (hunmixed : a = .flushFinish → ∀ mt ∈ c.flight, Unmixed r.readTs mt)
    (hclean : r.clean = true → completes c.writer a ≠ some r.key) :
    Follows c' ((issues c'.writer a).toList ++ issued) r := by
  have hdone := doneTs_step hrec hs r.key
  have hclock : r.readTs ≤ c.engine.globalTs := h.readTs.trans (doneTs_le_clock c r.key)
  have hanswer : answerAt ((issues c'.writer a).toList ++ issued) r.readTs r.key = answerAt issued r.readTs r.key :=
    answerAt_step hs hclock
  refine ⟨h.readTs.trans hdone.1, ?_, ?_, ?_, ?_⟩
  · rw [hanswer]
    exact hrec.steady.view_step hok hs (h.readTs.trans (doneTs_le c r.key)) hunmixed h.view
  · intro w hw hle
    rcases List.mem_append.mp hw with hw | hw
    · have hts := issues_above hs (Option.mem_toList.mp hw)
      omega
    · exact (h.held w hw hle).step hrec.steady hok hs hunmixed
  · rw [hanswer]
    exact h.found
  · intro hr w hw hkey hle
    have hdone' := hdone.2 (hclean hr) w hw hkey hle
    rcases List.mem_append.mp hw with hw | hw
    · have hts := issues_above hs (Option.mem_toList.mp hw)
      have hbelow := doneTs_le_clock c r.key
      omega
    · exact h.clean hr w hw hkey hdone'

/-- A reader that a write of its key overtakes. -/
theorem Follows.overtaken {r : Reader} (h : Follows c issued { r with clean := false }) {key : Bytes} (hkey : r.key = key) :
    Follows c issued (r.overtaken key) := by
  rw [CacheRace.Reader.overtaken, if_pos hkey]
  exact h

theorem Follows.watch {r : Reader} (h : Follows c issued r) (hrec : Recorded c issued) (hok : Interleaving.Allowed c a)
    (hs : Interleaving.step c a = some c')
    (hunmixed : a = .flushFinish → ∀ mt ∈ c.flight, Unmixed r.readTs mt) :
    Follows c' ((issues c'.writer a).toList ++ issued) ((completes c.writer a).elim r r.overtaken) := by
  by_cases hcompletes : completes c.writer a = some r.key
  · have hforgotten : Follows c issued { r with clean := false } :=
      ⟨h.readTs, h.view, h.held, h.found, fun hclean => (by cases hclean)⟩
    rw [hcompletes]
    exact (hforgotten.step hrec hok hs hunmixed fun hclean => (by cases hclean)).overtaken rfl
  · have hkept : (completes c.writer a).elim r r.overtaken = r := by
      cases hkey : completes c.writer a with
      | none => rfl
      | some key =>
        rw [Option.elim_some, CacheRace.Reader.overtaken, if_neg]
        intro heq
        rw [hkey, heq] at hcompletes
        exact hcompletes rfl
    rw [hkept]
    exact h.step hrec hok hs hunmixed fun _ => hcompletes

theorem Agrees.step {x : KVCache.Entry} (h : Agrees c issued x) (hrec : Recorded c issued)
    (hs : Interleaving.step c a = some c') (hkey : completes c.writer a ≠ some x.key) :
    Agrees c' ((issues c'.writer a).toList ++ issued) x := by
  obtain ⟨hgrows, hnone⟩ := doneTs_step hrec hs x.key
  refine ⟨h.1.trans hgrows, ?_⟩
  intro r hlow hhigh
  by_cases hr : r ≤ doneTs c x.key
  · rw [answerAt_step hs (hr.trans (doneTs_le_clock c x.key))]
    exact h.2 r hlow hr
  · have hback : answerAt ((issues c'.writer a).toList ++ issued) r x.key =
        answerAt ((issues c'.writer a).toList ++ issued) (doneTs c x.key) x.key := by
      apply answerAt_congr
      intro w hw hwkey
      constructor
      · exact fun hle => hnone hkey w hw hwkey (hle.trans hhigh)
      · intro hle
        omega
    rw [hback, answerAt_step hs (doneTs_le_clock c x.key)]
    exact h.2 _ h.1 (Nat.le_refl _)

/-- The last step of a call leaves no older value of its key in the cache. -/
theorem fresh_finish (hrec : Recorded c issued) (hfresh : c.engine.kvCache.Fresh (Agrees c issued))
    (hok : ∀ w ∈ c.writer.applied, c.engine.kvCache.Found w.key ∧
      (w.isTombstone = false → Config.pageSize / 2 < w.value.length → c.engine.kvCache.NotCached w.key))
    (hs : Interleaving.step c .finish = some c') : c'.engine.kvCache.Fresh (Agrees c' issued) := by
  have hothers : ∀ w ∈ c.writer.applied, ∀ x : KVCache.Entry, x.key ≠ w.key → Agrees c issued x → Agrees c' issued x := by
    intro w hw x hne hx
    refine hx.step hrec hs ?_
    rw [completes, hw]
    exact fun heq => hne (Option.some_injective _ heq).symm
  obtain ⟨w, hw, rfl⟩ := Interleaving.finish_cases hs
  have happlied : c.writer.applied = some w := by
    rw [hw]
    rfl
  obtain ⟨hfound, hsmall⟩ := hok w happlied
  show (updateCache c.engine.kvCache w).Fresh _
  unfold Interleaving.updateCache
  split
  · exact hfresh.erase hfound (hothers w happlied)
  · next hlive =>
    have hfalse : w.isTombstone = false := Bool.eq_false_iff.mpr hlive
    refine hfresh.put hfound (hsmall hfalse) (hothers w happlied) ?_
    have hclock : w.timestamp = c.engine.globalTs := hrec.steady.applied w happlied
    have hdone : doneTs ⟨{ c.engine with kvCache := updateCache c.engine.kvCache w }, c.flight,
        effectOf w :: c.committed, .idle⟩ w.key = c.engine.globalTs := doneTs_of_idle rfl
    refine ⟨hclock.trans_le (Nat.le_of_eq hdone.symm), ?_⟩
    intro r hlow _
    obtain ⟨rest, hrest, -⟩ := hrec.history
    rw [hw] at hrest
    have hissued : issued = w :: rest := hrest
    rw [hissued, answerAt_cons, if_pos ⟨hlow, rfl⟩, shown, hfalse]
    rfl

theorem fresh_step (hrec : Recorded c issued) (hfresh : c.engine.kvCache.Fresh (Agrees c issued))
    (hok : a = .finish → ∀ w ∈ c.writer.applied, c.engine.kvCache.Found w.key ∧
      (w.isTombstone = false → Config.pageSize / 2 < w.value.length → c.engine.kvCache.NotCached w.key))
    (hs : Interleaving.step c a = some c') :
    c'.engine.kvCache.Fresh (Agrees c' ((issues c'.writer a).toList ++ issued)) := by
  by_cases ha : a = .finish
  · subst ha
    exact fresh_finish hrec hfresh (hok rfl) hs
  · obtain ⟨-, hkv, -, -⟩ := Interleaving.step_frame ha hs
    have hnone : completes c.writer a = none := by
      cases a <;> first | rfl | exact absurd rfl ha
    rw [hkv]
    refine hfresh.mono fun x hx => hx.step hrec hs ?_
    rw [hnone]
    intro heq
    cases heq

end Steps

/-- The invariant; `w` is the stage of the writer that is in a call. -/
structure Consistent (s : State m n) (w : WriterStage) : Prop where
  serial : Serial s.writers w
  recorded : Recorded (s.withWriter w) s.issued
  follows : ∀ k, (s.readers k).stage ≠ .idle → Follows (s.withWriter w) s.issued (s.readers k)
  fresh : s.engine.kvCache.Fresh (Agrees (s.withWriter w) s.issued)
  reads : ∀ p ∈ s.reads, p.readTs ≤ doneTs (s.withWriter w) p.key ∧ p.answer = answerAt s.issued p.readTs p.key

section Invariant

variable {s t : State m n} {w : WriterStage}

theorem Consistent.write (h : Consistent s w) {j : Fin m} {a : Interleaving.Action} (hok : Allowed s (.write j a))
    (hs : step s (.write j a) = some t) : ∃ w', Consistent t w' := by
  obtain ⟨c, hc, rfl⟩ := Option.map_eq_some_iff.mp hs
  obtain ⟨w', hstep, hserial, hcompletes, hissues, hmoved⟩ := h.serial.step hok hc
  have hcore : Interleaving.Allowed (s.withWriter w) a := by
    cases a with
    | memInsert =>
      have hj : s.writers j = w := hmoved.resolve_right (by simp)
      rw [← hj]
      exact hok
    | _ => trivial
  have hcache : a = .finish → ∀ v ∈ w.applied, s.engine.kvCache.Found v.key ∧
      (v.isTombstone = false → Config.pageSize / 2 < v.value.length → s.engine.kvCache.NotCached v.key) := by
    rintro rfl
    have hj : s.writers j = w := hmoved.resolve_right (by simp)
    rw [← hj]
    exact hok
  refine ⟨w', hserial, ?_, ?_, ?_, ?_⟩
  · show Recorded { c with writer := w' } ((issues c.writer a).toList ++ s.issued)
    rw [hissues]
    exact h.recorded.step hcore hstep
  · intro k hstage
    show Follows { c with writer := w' } ((issues c.writer a).toList ++ s.issued)
      ((completes (s.writers j) a).elim (s.readers k) (s.readers k).overtaken)
    have hbusy : (s.readers k).stage ≠ .idle := by
      intro hidle
      apply hstage
      show ((completes (s.writers j) a).elim (s.readers k) (s.readers k).overtaken).stage = .idle
      cases completes (s.writers j) a with
      | none => exact hidle
      | some key =>
        rw [Option.elim_some, CacheRace.Reader.overtaken]
        split
        · exact hidle
        · exact hidle
    rw [hissues, hcompletes]
    refine (h.follows k hbusy).watch h.recorded hcore hstep ?_
    rintro rfl
    exact hok k hbusy
  · show c.engine.kvCache.Fresh (Agrees { c with writer := w' } ((issues c.writer a).toList ++ s.issued))
    rw [hissues]
    exact fresh_step h.recorded h.fresh hcache hstep
  · intro p hp
    obtain ⟨hdone, hanswer⟩ := h.reads p hp
    refine ⟨hdone.trans (doneTs_step h.recorded hstep p.key).1, ?_⟩
    show p.answer = answerAt ((issues c.writer a).toList ++ s.issued) p.readTs p.key
    rw [hissues, hanswer]
    exact (answerAt_step hstep (hdone.trans (doneTs_le_clock _ _))).symm

/-- A reader moves and the engine changes its caches at most. -/
theorem Consistent.reader (h : Consistent s w) {e : Engine} (hsteady : Steady { s.withWriter w with engine := e })
    (hcolumn : ∀ key, e.column s.flight key = s.engine.column s.flight key) (hclock : e.globalTs = s.engine.globalTs)
    (hfresh : e.kvCache.Fresh (Agrees (s.withWriter w) s.issued)) {k : Fin n} {r : Reader}
    (hr : r.stage ≠ .idle → Follows (s.withWriter w) s.issued r) {returned : Option Read}
    (hread : ∀ p ∈ returned, p.readTs ≤ doneTs (s.withWriter w) p.key ∧ p.answer = answerAt s.issued p.readTs p.key) :
    Consistent { s with engine := e, readers := Function.update s.readers k r, reads := returned.toList ++ s.reads } w := by
  have hdone : ∀ key, doneTs { s.withWriter w with engine := e } key = doneTs (s.withWriter w) key := by
    intro key
    rw [doneTs, doneTs]
    simp only [hclock]
    rfl
  have hheld : ∀ {key : Bytes} {low high : ℕ}, Held (s.withWriter w) key low high →
      Held { s.withWriter w with engine := e } key low high := by
    rintro key low high ⟨src, hsrc, hx⟩
    refine ⟨src, ?_, hx⟩
    show src ∈ e.column s.flight key
    rw [hcolumn]
    exact hsrc
  have hfollows : ∀ {r : Reader}, Follows (s.withWriter w) s.issued r →
      Follows { s.withWriter w with engine := e } s.issued r := by
    intro r hf
    refine ⟨(hdone r.key).symm ▸ hf.readTs, ?_, fun x hx hle => hheld (hf.held x hx hle), hf.found, ?_⟩
    · show View r.readTs (e.column s.flight r.key) _
      rw [hcolumn]
      exact hf.view
    · rw [hdone]
      exact hf.clean
  refine ⟨h.serial, ⟨hsteady, h.recorded.history, h.recorded.newest, ?_, ?_, ?_⟩, ?_, ?_, ?_⟩
  · intro x hx
    show x.timestamp ≤ e.globalTs
    rw [hclock]
    exact h.recorded.dated x hx
  · intro x hx
    refine (h.recorded.held x hx).imp_right ?_
    show Held (s.withWriter w) x.key x.timestamp s.engine.globalTs → Held _ x.key x.timestamp e.globalTs
    rw [hclock]
    exact hheld
  · intro key src hsrc
    have hsrc' : src ∈ e.column s.flight key := hsrc
    rw [hcolumn] at hsrc'
    exact h.recorded.within key src hsrc'
  · intro i hstage
    by_cases hik : i = k
    · simp only [hik, Function.update_self] at hstage ⊢
      exact hfollows (hr hstage)
    · simp only [Function.update_of_ne hik] at hstage ⊢
      exact hfollows (h.follows i hstage)
  · refine hfresh.mono ?_
    intro x hx
    show x.timestamp ≤ doneTs { s.withWriter w with engine := e } x.key ∧
      ∀ r, x.timestamp ≤ r → r ≤ doneTs { s.withWriter w with engine := e } x.key → _
    rw [hdone]
    exact hx
  · intro p hp
    have hold : p.readTs ≤ doneTs (s.withWriter w) p.key ∧ p.answer = answerAt s.issued p.readTs p.key := by
      rcases List.mem_append.mp hp with hp | hp
      · exact hread p (Option.mem_toList.mp hp)
      · exact h.reads p hp
    exact ⟨(hdone p.key).symm ▸ hold.1, hold.2⟩

theorem Consistent.kvCache (h : Consistent s w) {kv : KVCache} (hfresh : kv.Fresh (Agrees (s.withWriter w) s.issued))
    {k : Fin n} {r : Reader} (hr : r.stage ≠ .idle → Follows (s.withWriter w) s.issued r) {returned : Option Read}
    (hread : ∀ p ∈ returned, p.readTs ≤ doneTs (s.withWriter w) p.key ∧ p.answer = answerAt s.issued p.readTs p.key) :
    Consistent { s with
      engine := { s.engine with kvCache := kv }
      readers := Function.update s.readers k r
      reads := returned.toList ++ s.reads } w :=
  h.reader (CacheRace.steady_kvCache h.recorded.steady kv) (fun _ => rfl) rfl hfresh hr hread

theorem Consistent.start (h : Consistent s w) {k : Fin n} {key : Bytes} (hok : Allowed s (.read (.start k key))) :
    Follows (s.withWriter w) s.issued ⟨key, s.engine.globalTs, .begun, true⟩ := by
  have hwriter : w.coming = none ∧ ∀ v ∈ w.applied, v.key ≠ key := by
    rcases h.serial with ⟨rfl, -⟩ | ⟨j, rfl, -⟩
    · exact ⟨rfl, fun _ hv => (by cases hv)⟩
    · exact hok j
  have hdone : doneTs (s.withWriter w) key = s.engine.globalTs := by
    have hcoming : (s.withWriter w).writer.coming = none := hwriter.1
    cases happlied : w.applied with
    | none =>
      have hnone : (s.withWriter w).writer.applied = none := happlied
      rw [doneTs, hcoming, hnone]
      rfl
    | some v =>
      rw [doneTs_of_applied hcoming happlied, if_neg (hwriter.2 v happlied)]
      rfl
  have hsettled : (s.withWriter w).settledTs = s.engine.globalTs := Interleaving.settledTs_of_none hwriter.1
  have heffects : s.issued.map effectOf = (s.withWriter w).effects := by
    obtain ⟨rest, hrest, hcommitted⟩ := h.recorded.history
    have hissued : s.issued = w.applied.toList ++ rest := by
      have hcoming : (s.withWriter w).writer.coming = none := hwriter.1
      rw [hcoming, Option.none_or] at hrest
      exact hrest
    have hold : rest.map effectOf = s.committed := hcommitted
    show s.issued.map effectOf = (w.applied.map effectOf).toList ++ s.committed
    rw [hissued, List.map_append, hold]
    cases w.applied with
    | none => rfl
    | some v => rfl
  have hanswer : answerAt s.issued s.engine.globalTs key = last (s.withWriter w).effects key := by
    have hdated : ∀ x ∈ s.issued, x.timestamp ≤ s.engine.globalTs := h.recorded.dated
    rw [answerAt_all hdated, heffects]
  refine ⟨hdone.symm.le, ?_, ?_, fun _ hv => (by cases hv), fun _ x hx _ _ => h.recorded.dated x hx⟩
  · show View s.engine.globalTs _ (answerAt s.issued s.engine.globalTs key)
    rw [hanswer, ← hsettled]
    exact h.recorded.steady.plain.sound.view key
  · intro x hx _
    rcases h.recorded.held x hx with hx | hheld
    · have hcoming : w.coming = some x := hx
      rw [hwriter.1] at hcoming
      cases hcoming
    · exact hheld

theorem Consistent.get (h : Consistent s w) {k : Fin n} (hs : step s (.read (.get k)) = some t) : Consistent t w := by
  obtain ⟨p, hp, rfl⟩ := Option.map_eq_some_iff.mp hs
  obtain ⟨hstage, rfl⟩ := get_cases hp
  have hfollows := h.follows k (by rw [hstage]; exact ReaderStage.noConfusion)
  refine h.kvCache (h.fresh.get _) ?_ ?_
  · intro _
    refine ⟨hfollows.readTs, hfollows.view, hfollows.held, ?_, hfollows.clean⟩
    intro v hv
    simp only [] at hv
    split at hv
    · cases hv
    · cases hv
  · intro p hp
    obtain ⟨v, hget, rfl⟩ := Option.map_eq_some_iff.mp hp
    obtain ⟨x, hx, hkey, hvalue, hts⟩ := h.fresh.get_eq_some hget
    refine ⟨hfollows.readTs, ?_⟩
    have hanswer := hx.2 (s.readers k).readTs hts (by rw [hkey]; exact hfollows.readTs)
    rw [hkey, hvalue] at hanswer
    exact hanswer.symm

theorem Consistent.search (h : Consistent s w) {k : Fin n} (hok : Allowed s (.read (.search k)))
    (hs : step s (.read (.search k)) = some t) : Consistent t w := by
  obtain ⟨p, hp, rfl⟩ := Option.map_eq_some_iff.mp hs
  obtain ⟨hstage, rfl⟩ := search_cases hp
  have hfollows := h.follows k (by rw [hstage]; exact ReaderStage.noConfusion)
  have hans : (s.engine.lookupUncached (s.readers k).key (s.readers k).readTs).1.bind shownValue =
      answerAt s.issued (s.readers k).readTs (s.readers k).key := h.recorded.steady.search hok hfollows.view
  refine h.reader (CacheRace.steady_search h.recorded.steady _ _) (fun _ => rfl) rfl h.fresh ?_ ?_
  · intro _
    refine ⟨hfollows.readTs, hfollows.view, hfollows.held, ?_, hfollows.clean⟩
    intro v hv
    simp only [hans] at hv
    cases hanswer : answerAt s.issued (s.readers k).readTs (s.readers k).key with
    | none =>
      rw [hanswer] at hv
      cases hv
    | some u =>
      rw [hanswer] at hans hv
      cases hv
      obtain ⟨v', -, hshown⟩ := Option.bind_eq_some_iff.mp hans
      refine ⟨rfl, ?_⟩
      rw [← CacheRace.shownValue_eq_some hshown]
      exact hshown.trans (congrArg some (CacheRace.shownValue_eq_some hshown).symm)
  · intro p hp
    simp only [returns, hans] at hp
    split at hp
    · next hnone =>
      cases hp
      exact ⟨hfollows.readTs, hnone.symm⟩
    · cases hp

theorem Consistent.populate (h : Consistent s w) {k : Fin n} (hok : Allowed s (.read (.populate k)))
    (hs : step s (.read (.populate k)) = some t) : Consistent t w := by
  obtain ⟨p, hp, rfl⟩ := Option.map_eq_some_iff.mp hs
  obtain ⟨v, hstage, rfl⟩ := populate_cases hp
  have hfollows := h.follows k (by rw [hstage]; exact ReaderStage.noConfusion)
  obtain ⟨hanswer, hshown⟩ := hfollows.found v hstage
  refine h.kvCache (h.fresh.put_same ?_) (fun hidle => absurd rfl hidle) ?_
  · refine ⟨hfollows.readTs, ?_⟩
    intro r hlow hhigh
    rw [hshown, ← hanswer]
    apply answerAt_congr
    intro x hx hkey
    constructor
    · exact fun hle => hfollows.clean hok x hx hkey (hle.trans hhigh)
    · exact fun hle => hle.trans hlow
  · intro p hp
    simp only [returns, hstage] at hp
    cases hp
    exact ⟨hfollows.readTs, hanswer.symm⟩

theorem Consistent.step {a : Action m n} (h : Consistent s w) (hok : Allowed s a)
    (hs : SnapshotReads.step s a = some t) : ∃ w', Consistent t w' := by
  cases a with
  | write j a => exact h.write hok hs
  | read a =>
    refine ⟨w, ?_⟩
    cases a with
    | start k key =>
      obtain ⟨p, hp, rfl⟩ := Option.map_eq_some_iff.mp hs
      obtain ⟨-, rfl⟩ := start_cases hp
      exact h.reader h.recorded.steady (fun _ => rfl) rfl h.fresh (fun _ => h.start hok) fun _ hp => (by cases hp)
    | get k => exact h.get hs
    | search k => exact h.search hok hs
    | populate k => exact h.populate hok hs

end Invariant

theorem init_consistent (cfg : EngineConfig) (m n : ℕ) : Consistent (init cfg m n) .idle := by
  refine ⟨.inl ⟨rfl, fun _ => rfl⟩, ⟨Interleaving.init_steady cfg, ⟨[], rfl, rfl⟩, List.Pairwise.nil,
    fun _ hw => (by cases hw), fun _ hw => (by cases hw), ?_⟩, fun _ hstage => absurd rfl hstage,
    KVCache.new_fresh _ _ _ _ _, fun _ hp => (by cases hp)⟩
  intro key src hsrc x hx
  rw [List.mem_singleton.mp (show src ∈ [⟨true, []⟩] from hsrc)] at hx
  cases hx

/-! ## Every interleaving -/

theorem key_of_column {e : Engine} {flight : Option MemTable} {key : Bytes} {src : Source KeyValuePair}
    (hsrc : src ∈ e.column flight key) {x : KeyValuePair} (hx : x ∈ src.versions) : x.key = key := by
  rcases List.mem_append.mp hsrc with hsrc | hsrc
  · obtain ⟨mt, -, rfl⟩ := List.mem_map.mp hsrc
    exact (mem_stackOf.mp hx).2.1
  · obtain ⟨md, -, rfl⟩ := List.mem_map.mp hsrc
    unfold tableStack at hx
    cases hfile : e.files md.filepath with
    | none =>
      rw [hfile] at hx
      cases hx
    | some f =>
      rw [hfile] at hx
      exact (mem_stackOf.mp hx).2.1

def call (j : Fin m) (key value : Bytes) (isTombstone : Bool) : List (Action m n) :=
  [.write j (.takeTimestamp key value isTombstone), .write j .bufferWrite, .write j .memInsert, .write j .freezeIfFull,
    .write j .finish]

/-- Two writers in turn; one reader searches while the next write is under way, another hits before and after. -/
def snapshotRun : List (Action 2 2) :=
  call 0 [1] [2] false ++ call 1 [3] [4] false ++
    ([.read (.start 0 [9]), .read (.start 1 [3]), .read (.get 0), .write 0 (.takeTimestamp [1] [5] false),
      .write 0 .bufferWrite, .write 0 .memInsert, .read (.search 0), .read (.get 1), .write 0 .freezeIfFull,
      .read (.start 1 [3]), .read (.get 1), .write 0 .finish, .read (.start 0 [3]), .read (.get 0),
      .read (.start 0 [1])] : List (Action 2 2))

theorem snapshotRun_allowed : (checked step Allowed (init smallConfig 2 2) snapshotRun).isSome = true := by
  decide

def snapshotState : State 2 2 := (checked step Allowed (init smallConfig 2 2) snapshotRun).get snapshotRun_allowed

/-- A reader takes its timestamp between that of a write and the insertion. -/
def earlyReader : List (Action 1 1) := [.write 0 (.takeTimestamp [1] [2] false), .read (.start 0 [1])]

/-- The reader finds nothing; after the insertion it looks again. -/
def laterReader : List (Action 1 1) :=
  [.read (.get 0), .read (.search 0), .write 0 .bufferWrite, .write 0 .memInsert, .read (.start 0 [1]), .read (.get 0),
    .read (.search 0), .read (.populate 0)]

theorem earlyReader_runs : (checked step anyStep (init smallConfig 1 1) earlyReader).isSome = true := by
  decide

def earlyState : State 1 1 := (checked step anyStep (init smallConfig 1 1) earlyReader).get earlyReader_runs

end Kvdb.SnapshotReads
