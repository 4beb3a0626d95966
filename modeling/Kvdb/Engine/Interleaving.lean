import Kvdb.Engine.CacheAgreement

/-! # One writer, step by step

`Insert` and `Delete` take a timestamp, which readers can see at once, buffer their record, insert into the
active memtable, replace it when it is full and last update the key-value cache. Between these steps
readers and the flush worker move. What readers find without the key-value cache is described by the engine
at the clock of the last write that was inserted (`settled`): a timestamp that was taken and not yet
inserted under has no version. -/
namespace Kvdb.Interleaving
set_option autoImplicit false

open Kvdb.Runs Kvdb.Engine
open Kvdb.ReadOrder (Source)
open Kvdb.BatchServing (Effect last effectOf View Sound Flushable NothingBehind finishFlush clockOf)
open Kvdb.CacheAgreement (Plain)

/-- Where the writer stands in `Insert` or `Delete`. -/
inductive WriterStage where
  | idle
  | taken (w : KeyValuePair)
  | buffered (w : KeyValuePair)
  | inserted (w : KeyValuePair)
  | rotated (w : KeyValuePair)

/-- The version that has a timestamp and is not inserted yet. -/
def WriterStage.coming : WriterStage → Option KeyValuePair
  | .taken w => some w
  | .buffered w => some w
  | _ => none

/-- The version that is inserted while its call has not returned. -/
def WriterStage.applied : WriterStage → Option KeyValuePair
  | .inserted w => some w
  | .rotated w => some w
  | _ => none

/-- The engine, the memtable that the flush worker holds, and the effects of the calls that have returned. -/
structure State where
  engine : Engine
  flight : Option MemTable
  committed : List Effect
  writer : WriterStage

inductive Action where
  | takeTimestamp (key value : Bytes) (isTombstone : Bool)
  | bufferWrite
  | memInsert
  | freezeIfFull
  | finish
  | flushPop
  | flushFinish

def init (cfg : EngineConfig) : State := ⟨Engine.create cfg, none, [], .idle⟩

/-- The checks of `Insert`, and of `Delete`, which has no value. -/
def accepts (key value : Bytes) (isTombstone : Bool) : Bool :=
  (keyError key).isNone && (isTombstone || (pairError key value).isNone)

/-- The last step of `Insert` or `Delete`: `Put` or `Erase`. -/
def updateCache (kv : KVCache) (w : KeyValuePair) : KVCache :=
  if w.isTombstone then kv.erase w.key else kv.put w.key w.value w.timestamp

def step (s : State) : Action → Option State
  | .takeTimestamp key value isTombstone =>
    match s.writer, s.engine.takeTimestamp with
    | .idle, some (ts, e) =>
      if accepts key value isTombstone then
        some { s with engine := e, writer := .taken ⟨key, if isTombstone then [] else value, ts, isTombstone⟩ }
      else none
    | _, _ => none
  | .bufferWrite =>
    match s.writer with
    | .taken w => some { s with engine := s.engine.bufferWrite w.key w.value w.timestamp, writer := .buffered w }
    | _ => none
  | .memInsert =>
    match s.writer with
    | .buffered w => some { s with
        engine := s.engine.memInsert w.key w.value w.timestamp w.isTombstone
        writer := .inserted w }
    | _ => none
  | .freezeIfFull =>
    match s.writer with
    | .inserted w => some { s with engine := s.engine.freezeIfFull, writer := .rotated w }
    | _ => none
  | .finish =>
    match s.writer with
    | .rotated w => some { s with
        engine := { s.engine with kvCache := updateCache s.engine.kvCache w }
        committed := effectOf w :: s.committed
        writer := .idle }
    | _ => none
  | .flushPop =>
    match s.flight, s.engine.frozenMemtables with
    | none, m :: rest => some { s with engine := { s.engine with frozenMemtables := rest }, flight := some m }
    | _, _ => none
  | .flushFinish => s.flight.map fun m => { s with engine := finishFlush s.engine m, flight := none }

/-! ## The settled engine -/

/-- A key-value cache that keeps nothing. -/
def noValues : KVCache := ⟨fun _ => 0, []⟩

namespace State

/-- The effects of the writes that are inserted. -/
def effects (s : State) : List Effect := (s.writer.applied.map effectOf).toList ++ s.committed

/-- The clock of the last write that is inserted. -/
def settledTs (s : State) : ℕ := if s.writer.coming.isSome then s.engine.globalTs - 1 else s.engine.globalTs

/-- The engine at that clock, with no values cached. -/
def settled (s : State) : BatchServing.State :=
  ⟨{ s.engine with kvCache := noValues, globalTs := s.settledTs }, s.flight, s.effects, [], []⟩

def column (s : State) (key : Bytes) : List (Source KeyValuePair) := s.engine.column s.flight key

end State

/-- Readers find the last inserted write, and the writer's version carries the clock. -/
structure Steady (s : State) : Prop where
  plain : Plain s.settled
  coming : ∀ w ∈ s.writer.coming, w.timestamp = s.engine.globalTs ∧ 0 < s.engine.globalTs
  applied : ∀ w ∈ s.writer.applied, w.timestamp = s.engine.globalTs

/-- The condition on a step: an insertion lands where its key belongs, and a tombstone hides nothing. -/
def Allowed (s : State) : Action → Prop
  | .memInsert => ∀ w ∈ s.writer.coming, Fits s.engine w ∧
      (w.isTombstone = true → NothingBehind s.settled w.key s.settledTs)
  | _ => True

instance decidableAllowed (s : State) (a : Action) : Decidable (Allowed s a) := by
  cases a <;> unfold Allowed <;> infer_instance

theorem noValues_fresh (P : KVCache.Entry → Prop) : noValues.Fresh P := fun _ hs => (by cases hs)

/-- Steps that keep the inserted writes and the clock of the last of them. -/
theorem Steady.of_settled {s t : State} (h : Steady s) (hsound : Sound t.settled)
    (hbatch : t.engine.batchInProgress = s.engine.batchInProgress)
    (hcoming : ∀ w ∈ t.writer.coming, w.timestamp = t.engine.globalTs ∧ 0 < t.engine.globalTs)
    (happlied : ∀ w ∈ t.writer.applied, w.timestamp = t.engine.globalTs) : Steady t :=
  ⟨⟨hsound, hbatch.trans h.plain.idle, rfl, rfl⟩, hcoming, happlied⟩

/-! ## What a step does -/

/-- A timestamp is taken. -/
theorem takeTimestamp_cases {s t : State} {key value : Bytes} {isTombstone : Bool}
    (hs : step s (.takeTimestamp key value isTombstone) = some t) :
    s.writer = .idle ∧ ∃ w : KeyValuePair, w.timestamp = s.engine.globalTs + 1 ∧
      t = { s with engine := s.engine.tick, writer := .taken w } := by
  simp only [step] at hs
  split at hs
  · next ts e hidle htake =>
    obtain ⟨-, heq⟩ := takeTimestamp_eq_some htake
    cases heq
    split at hs
    · cases hs
      exact ⟨hidle, _, rfl, rfl⟩
    · cases hs
  · cases hs

theorem bufferWrite_cases {s t : State} (hs : step s .bufferWrite = some t) :
    ∃ w, s.writer = .taken w ∧
      t = { s with engine := s.engine.bufferWrite w.key w.value w.timestamp, writer := .buffered w } := by
  simp only [step] at hs
  split at hs
  · next w hw =>
    cases hs
    exact ⟨w, hw, rfl⟩
  · cases hs

theorem memInsert_cases {s t : State} (hs : step s .memInsert = some t) :
    ∃ w, s.writer = .buffered w ∧
      t = { s with engine := s.engine.memInsert w.key w.value w.timestamp w.isTombstone, writer := .inserted w } := by
  simp only [step] at hs
  split at hs
  · next w hw =>
    cases hs
    exact ⟨w, hw, rfl⟩
  · cases hs

theorem freezeIfFull_cases {s t : State} (hs : step s .freezeIfFull = some t) :
    ∃ w, s.writer = .inserted w ∧ t = { s with engine := s.engine.freezeIfFull, writer := .rotated w } := by
  simp only [step] at hs
  split at hs
  · next w hw =>
    cases hs
    exact ⟨w, hw, rfl⟩
  · cases hs

theorem finish_cases {s t : State} (hs : step s .finish = some t) :
    ∃ w, s.writer = .rotated w ∧
      t = ⟨{ s.engine with kvCache := updateCache s.engine.kvCache w }, s.flight, effectOf w :: s.committed, .idle⟩ := by
  simp only [step] at hs
  split at hs
  · next w hw =>
    cases hs
    exact ⟨w, hw, rfl⟩
  · cases hs

theorem flushPop_cases {s t : State} (hs : step s .flushPop = some t) :
    s.flight = none ∧ ∃ m rest, s.engine.frozenMemtables = m :: rest ∧
      t = { s with engine := { s.engine with frozenMemtables := rest }, flight := some m } := by
  simp only [step] at hs
  split at hs
  · next m rest hflight hfrozen =>
    cases hs
    exact ⟨hflight, m, rest, hfrozen, rfl⟩
  · cases hs

theorem flushFinish_cases {s t : State} (hs : step s .flushFinish = some t) :
    ∃ m, s.flight = some m ∧ t = { s with engine := finishFlush s.engine m, flight := none } := by
  obtain ⟨m, hm, rfl⟩ := Option.map_eq_some_iff.mp hs
  exact ⟨m, hm, rfl⟩

/-! ## Every step keeps the engine steady -/

theorem freezeIfFull_settled (e : Engine) (kv : KVCache) (ts : ℕ) :
    { e.freezeIfFull with kvCache := kv, globalTs := ts } = { e with kvCache := kv, globalTs := ts }.freezeIfFull := by
  unfold Engine.freezeIfFull
  split
  · rfl
  · rfl

/-- A flush does not look at the clock, except for its checkpoint record. -/
theorem doFlush_settled (e : Engine) (m : MemTable) (kv : KVCache) (ts : ℕ) :
    { e with kvCache := kv, globalTs := ts }.doFlush m = { e.doFlush m with kvCache := kv, globalTs := ts } := by
  unfold doFlush
  split
  · rfl
  · unfold flushPublish
    simp only []
    split
    · next hread =>
      split
      · rfl
      · next hread' =>
        exact absurd (hread.symm.trans hread') (by simp)
    · next md cache hread =>
      split
      · next hread' =>
        exact absurd (hread.symm.trans hread') (by simp)
      · next md' cache' hread' =>
        cases hread.symm.trans hread'
        rfl

section Steps

variable {s t : State}

theorem Steady.takeTimestamp (h : Steady s) {key value : Bytes} {isTombstone : Bool}
    (hs : step s (.takeTimestamp key value isTombstone) = some t) : Steady t := by
  obtain ⟨hidle, w, hts, rfl⟩ := takeTimestamp_cases hs
  have hsame : s.settled = State.settled { s with engine := s.engine.tick, writer := .taken w } := by
    unfold State.settled State.settledTs State.effects
    rw [hidle]
    rfl
  refine h.of_settled (hsame ▸ h.plain.sound) rfl ?_ fun _ hw => (by cases hw)
  intro w' hw'
  cases hw'
  exact ⟨hts, Nat.succ_pos _⟩

theorem Steady.bufferWrite (h : Steady s) (hs : step s .bufferWrite = some t) : Steady t := by
  obtain ⟨w, hw, rfl⟩ := bufferWrite_cases hs
  have hts := h.coming w (by rw [hw]; rfl)
  refine h.of_settled ?_ rfl ?_ fun _ hw' => (by cases hw')
  · have hsame : State.settled { s with
        engine := s.engine.bufferWrite w.key w.value w.timestamp
        writer := .buffered w } =
        { s.settled with engine := { s.settled.engine with wal := s.engine.wal.buffer w.key w.value w.timestamp } } := by
      unfold State.settled State.settledTs State.effects
      rw [hw]
      rfl
    rw [hsame]
    exact h.plain.sound.tablesKept rfl rfl rfl rfl rfl rfl
  · intro w' hw'
    cases hw'
    exact hts

theorem settledTs_of_coming {w : KeyValuePair} (hw : s.writer.coming = some w) : s.settledTs = s.engine.globalTs - 1 := by
  rw [State.settledTs, hw]
  rfl

theorem settledTs_of_none (hw : s.writer.coming = none) : s.settledTs = s.engine.globalTs := by
  rw [State.settledTs, hw]
  rfl

/-- The timestamp of a version to be inserted follows the settled clock. -/
theorem Steady.coming_ts (h : Steady s) {w : KeyValuePair} (hw : s.writer.coming = some w) :
    w.timestamp = s.settledTs + 1 := by
  obtain ⟨hts, hpos⟩ := h.coming w hw
  rw [settledTs_of_coming hw]
  omega

theorem not_apart (h : Steady s) (key : Bytes) : BatchServing.Apart s.settled key := by
  intro hbatch
  rw [h.plain.idle] at hbatch
  cases hbatch

theorem Steady.memInsert (h : Steady s) (hok : Allowed s .memInsert) (hs : step s .memInsert = some t) : Steady t := by
  obtain ⟨w, hw, rfl⟩ := memInsert_cases hs
  have hcoming : s.writer.coming = some w := by
    rw [hw]
    rfl
  obtain ⟨hfits, hbehind⟩ := hok w hcoming
  have hts := h.coming_ts hcoming
  obtain ⟨hclock, -⟩ := h.coming w hcoming
  have hglobal : s.settledTs + 1 = s.engine.globalTs := hts.symm.trans hclock
  have hsame : State.settled { s with
      engine := s.engine.memInsert w.key w.value w.timestamp w.isTombstone
      writer := .inserted w } =
      s.settled.written (effectOf w) { s.engine.memInsert w.key w.value w.timestamp w.isTombstone with
        kvCache := noValues } := by
    unfold State.settled State.settledTs State.effects
    rw [hw]
    rfl
  refine h.of_settled ?_ rfl (fun _ hw' => (by cases hw')) ?_
  · rw [hsame]
    refine h.plain.sound.write hts ⟨hfits.key, hfits.placed⟩ List.not_mem_nil (not_apart h w.key) hbehind ?_ rfl rfl rfl rfl
      (noValues_fresh _)
    show (s.engine.globalTs, s.engine.batchInProgress, s.engine.batchTs, s.engine.batchTouched) =
      (s.settledTs + 1, s.engine.batchInProgress, s.engine.batchTs, s.engine.batchTouched)
    rw [hglobal]
  · intro w' hw'
    cases hw'
    exact hclock

theorem Steady.freezeIfFull (h : Steady s) (hs : step s .freezeIfFull = some t) : Steady t := by
  obtain ⟨w, hw, rfl⟩ := freezeIfFull_cases hs
  have hts := h.applied w (by rw [hw]; rfl)
  have hkept : ∀ {α : Type} (field : Engine → α), (∀ e : Engine, field e.rotate = field e) →
      field s.engine.freezeIfFull = field s.engine := by
    intro α field hfield
    unfold Engine.freezeIfFull
    split
    · exact hfield _
    · rfl
  have hglobal : s.engine.freezeIfFull.globalTs = s.engine.globalTs := hkept Engine.globalTs fun _ => rfl
  have hsame : State.settled { s with engine := s.engine.freezeIfFull, writer := .rotated w } =
      { s.settled with engine := s.settled.engine.freezeIfFull } := by
    unfold State.settled State.settledTs State.effects
    rw [hw]
    simp only [WriterStage.coming, WriterStage.applied, Option.isSome_none, Bool.false_eq_true, if_false, hglobal]
    rw [freezeIfFull_settled]
  refine h.of_settled ?_ (hkept Engine.batchInProgress fun _ => rfl) (fun _ hw' => (by cases hw')) ?_
  · rw [hsame]
    exact h.plain.sound.freezeIfFull
  · intro w' hw'
    cases hw'
    exact hts.trans hglobal.symm

theorem Steady.finish (h : Steady s) (hs : step s .finish = some t) : Steady t := by
  obtain ⟨w, hw, rfl⟩ := finish_cases hs
  have hsame : State.settled ⟨{ s.engine with kvCache := updateCache s.engine.kvCache w }, s.flight,
      effectOf w :: s.committed, .idle⟩ = s.settled := by
    unfold State.settled State.settledTs State.effects
    rw [hw]
    rfl
  refine h.of_settled ?_ rfl (fun _ hw' => (by cases hw')) fun _ hw' => (by cases hw')
  rw [hsame]
  exact h.plain.sound

theorem Steady.flushPop (h : Steady s) (hs : step s .flushPop = some t) : Steady t := by
  obtain ⟨hflight, m, rest, hfrozen, rfl⟩ := flushPop_cases hs
  exact h.of_settled (h.plain.sound.pop hflight hfrozen) rfl h.coming h.applied

theorem finishFlush_keeps {α : Type} (field : Engine → α) (e : Engine) (m : MemTable)
    (hflush : ∀ md cache, field (e.afterFlush m md cache) = field e)
    (hcheckpoint : ∀ e : Engine, field e.writeCheckpoint = field e) : field (finishFlush e m) = field e := by
  unfold BatchServing.finishFlush
  split
  · rw [hcheckpoint]
    exact doFlush_keeps field _ _ hflush
  · rfl

theorem Steady.flushFinish (h : Steady s) (hs : step s .flushFinish = some t) : Steady t := by
  obtain ⟨m, hm, rfl⟩ := flushFinish_cases hs
  have hflushed := h.plain.sound.finishFlush hm (h.plain.flushable hm)
  have hglobal : (finishFlush s.engine m).globalTs = s.engine.globalTs :=
    finishFlush_keeps Engine.globalTs s.engine m (fun _ _ => rfl) fun _ => rfl
  refine h.of_settled ?_ (finishFlush_keeps Engine.batchInProgress s.engine m (fun _ _ => rfl) fun _ => rfl) ?_ ?_
  · have hts : State.settledTs { s with engine := finishFlush s.engine m, flight := none } = s.settledTs := by
      unfold State.settledTs
      rw [hglobal]
    have hsettled : ∀ e : Engine, e = finishFlush s.settled.engine m →
        ({ finishFlush s.engine m with kvCache := noValues, globalTs := s.settledTs } : Engine) =
          { e with wal := (finishFlush s.engine m).wal } := by
      rintro e rfl
      unfold BatchServing.finishFlush
      split
      · have hdone : s.settled.engine.doFlush m = { s.engine.doFlush m with kvCache := noValues, globalTs := s.settledTs } :=
          doFlush_settled s.engine m noValues s.settledTs
        rw [hdone]
        rfl
      · rfl
    unfold State.settled
    rw [hts, hsettled _ rfl]
    exact hflushed.tablesKept rfl rfl rfl rfl rfl rfl
  · intro w hw
    rw [hglobal]
    exact h.coming w hw
  · intro w hw
    rw [hglobal]
    exact h.applied w hw

theorem Steady.step {a : Action} (h : Steady s) (hok : Allowed s a) (hs : Interleaving.step s a = some t) : Steady t := by
  cases a with
  | takeTimestamp key value isTombstone => exact h.takeTimestamp hs
  | bufferWrite => exact h.bufferWrite hs
  | memInsert => exact h.memInsert hok hs
  | freezeIfFull => exact h.freezeIfFull hs
  | finish => exact h.finish hs
  | flushPop => exact h.flushPop hs
  | flushFinish => exact h.flushFinish hs

theorem init_steady (cfg : EngineConfig) : Steady (init cfg) := by
  have hsound := BatchServing.init_sound cfg
  refine ⟨⟨?_, rfl, rfl, rfl⟩, fun _ hw => (by cases hw), fun _ hw => (by cases hw)⟩
  exact hsound.quietly rfl rfl rfl rfl rfl (fun _ _ => rfl) (hsound.shelved.tabled.filed.congr rfl)
    (hsound.shelved.tabled.keyed.congr rfl) (noValues_fresh _)

/-- Before its last step a call has no effect on the key-value cache and on the effects that have returned, and
its version stays applied. -/
theorem step_frame {a : Action} (ha : a ≠ .finish) (hs : Interleaving.step s a = some t) :
    t.committed = s.committed ∧ t.engine.kvCache = s.engine.kvCache ∧
      (∀ w ∈ s.writer.applied, t.writer.applied = some w) ∧ s.engine.globalTs ≤ t.engine.globalTs := by
  cases a with
  | takeTimestamp key value isTombstone =>
    obtain ⟨hidle, w, -, rfl⟩ := takeTimestamp_cases hs
    refine ⟨rfl, rfl, ?_, Nat.le_succ _⟩
    rw [hidle]
    exact fun _ hw => (by cases hw)
  | bufferWrite =>
    obtain ⟨w, hw, rfl⟩ := bufferWrite_cases hs
    refine ⟨rfl, rfl, ?_, Nat.le_refl _⟩
    rw [hw]
    exact fun _ hw => (by cases hw)
  | memInsert =>
    obtain ⟨w, hw, rfl⟩ := memInsert_cases hs
    refine ⟨rfl, rfl, ?_, Nat.le_refl _⟩
    rw [hw]
    exact fun _ hw => (by cases hw)
  | freezeIfFull =>
    obtain ⟨w, hw, rfl⟩ := freezeIfFull_cases hs
    have hkept : s.engine.freezeIfFull.kvCache = s.engine.kvCache ∧ s.engine.freezeIfFull.globalTs = s.engine.globalTs := by
      unfold Engine.freezeIfFull
      split
      · exact ⟨rfl, rfl⟩
      · exact ⟨rfl, rfl⟩
    refine ⟨rfl, hkept.1, ?_, Nat.le_of_eq hkept.2.symm⟩
    rw [hw]
    exact fun _ hw => hw
  | finish => exact absurd rfl ha
  | flushPop =>
    obtain ⟨-, m, rest, -, rfl⟩ := flushPop_cases hs
    exact ⟨rfl, rfl, fun _ hw => hw, Nat.le_refl _⟩
  | flushFinish =>
    obtain ⟨m, -, rfl⟩ := flushFinish_cases hs
    refine ⟨rfl, finishFlush_keeps Engine.kvCache s.engine m (fun _ _ => rfl) fun _ => rfl, fun _ hw => hw, ?_⟩
    exact Nat.le_of_eq (finishFlush_keeps Engine.globalTs s.engine m (fun _ _ => rfl) fun _ => rfl).symm

/-- Only a new timestamp moves the clock. -/
theorem step_clock {a : Action} (hs : Interleaving.step s a = some t) :
    t.engine.globalTs = s.engine.globalTs ∨ ∃ key value isTombstone, a = .takeTimestamp key value isTombstone := by
  cases a with
  | takeTimestamp key value isTombstone => exact .inr ⟨key, value, isTombstone, rfl⟩
  | bufferWrite =>
    obtain ⟨w, -, rfl⟩ := bufferWrite_cases hs
    exact .inl rfl
  | memInsert =>
    obtain ⟨w, -, rfl⟩ := memInsert_cases hs
    exact .inl rfl
  | freezeIfFull =>
    obtain ⟨w, -, rfl⟩ := freezeIfFull_cases hs
    left
    show s.engine.freezeIfFull.globalTs = s.engine.globalTs
    unfold Engine.freezeIfFull
    split
    · rfl
    · rfl
  | finish =>
    obtain ⟨w, -, rfl⟩ := finish_cases hs
    exact .inl rfl
  | flushPop =>
    obtain ⟨-, m, rest, -, rfl⟩ := flushPop_cases hs
    exact .inl rfl
  | flushFinish =>
    obtain ⟨m, -, rfl⟩ := flushFinish_cases hs
    exact .inl (finishFlush_keeps Engine.globalTs s.engine m (fun _ _ => rfl) fun _ => rfl)

/-! ## Older readers -/

/-- A reader at `r` sees all versions of a key in the memtable or none of them. -/
def Unmixed (r : ℕ) (m : MemTable) : Prop :=
  ∀ x ∈ m.entries, ∀ y ∈ m.entries, x.key = y.key → x.timestamp ≤ r → y.timestamp ≤ r

instance decidableUnmixed (r : ℕ) (m : MemTable) : Decidable (Unmixed r m) :=
  inferInstanceAs (Decidable (∀ x ∈ m.entries, ∀ y ∈ m.entries, x.key = y.key → x.timestamp ≤ r → y.timestamp ≤ r))

/-- The column of a key after the insertion of a version. -/
theorem Steady.column_memInsert (h : Steady s) {w : KeyValuePair} (hfits : Fits s.engine w) (key : Bytes) :
    State.column { s with
        engine := s.engine.memInsert w.key w.value w.timestamp w.isTombstone
        writer := .inserted w } key =
      if w.key = key then
        ⟨true, w :: (memtableStack key s.engine.activeMemtable).versions⟩ :: s.engine.columnTail s.flight key
      else s.column key := by
  have hpush := h.plain.sound.column_push ⟨hfits.key, hfits.placed⟩ List.not_mem_nil
    (show (s.settled.engine.memInsert w.key w.value w.timestamp w.isTombstone).activeMemtable = _ from rfl) rfl rfl key
  exact hpush

theorem column_freezeIfFull (s : State) (w : KeyValuePair) (key : Bytes) :
    State.column { s with engine := s.engine.freezeIfFull, writer := .rotated w } key = s.column key ∨
      State.column { s with engine := s.engine.freezeIfFull, writer := .rotated w } key = ⟨true, []⟩ :: s.column key := by
  unfold State.column Engine.freezeIfFull
  simp only []
  split
  · exact .inr (column_rotate s.engine s.flight key)
  · exact .inl rfl

theorem column_flushPop {m : MemTable} {rest : List MemTable} (hflight : s.flight = none)
    (hfrozen : s.engine.frozenMemtables = m :: rest) (key : Bytes) :
    State.column { s with engine := { s.engine with frozenMemtables := rest }, flight := some m } key = s.column key := by
  show ({ s.engine with frozenMemtables := rest } : Engine).column (some m) key = s.engine.column s.flight key
  rw [Engine.column, Engine.column, hflight, BatchServing.memtableOrder_pop hfrozen]
  rfl

theorem column_finishFlush_settled (s : State) (m : MemTable) (key : Bytes) :
    (finishFlush s.settled.engine m).column none key =
      State.column { s with engine := finishFlush s.engine m, flight := none } key := by
  show _ = (finishFlush s.engine m).column none key
  unfold BatchServing.finishFlush
  split
  · have hdone : s.settled.engine.doFlush m = { s.engine.doFlush m with kvCache := noValues, globalTs := s.settledTs } :=
      doFlush_settled s.engine m noValues s.settledTs
    rw [hdone]
    rfl
  · rfl

theorem column_finishFlush (h : Steady s) {m : MemTable} (hm : s.flight = some m) (key : Bytes) :
    (∀ src ∈ State.column { s with engine := finishFlush s.engine m, flight := none } key, ∀ x ∈ src.versions,
      ∃ src0 ∈ s.column key, x ∈ src0.versions) ∧
    ∀ r ans, Unmixed r m → View r (s.column key) ans →
      View r (State.column { s with engine := finishFlush s.engine m, flight := none } key) ans := by
  obtain ⟨hversions, hview⟩ := h.plain.sound.column_finishFlush hm (h.plain.flushable hm).1 key
  rw [column_finishFlush_settled] at hversions hview
  refine ⟨hversions, ?_⟩
  intro r ans hunmixed
  refine hview r ans ?_
  intro x hx y hy
  obtain ⟨hx, hxkey, -⟩ := mem_stackOf.mp hx
  obtain ⟨hy, hykey, -⟩ := mem_stackOf.mp hy
  exact hunmixed x hx y hy (hxkey.trans hykey.symm)

/-- The versions of a key after a step: those before, and the one that the step inserts. -/
theorem Steady.versions {a : Action} (h : Steady s) (hok : Allowed s a) (hs : Interleaving.step s a = some t)
    {key : Bytes} {src : Source KeyValuePair} (hsrc : src ∈ t.column key) {x : KeyValuePair} (hx : x ∈ src.versions) :
    (∃ src0 ∈ s.column key, x ∈ src0.versions) ∨ (t.writer.applied = some x ∧ x.key = key) := by
  cases a with
  | takeTimestamp k value isTombstone =>
    obtain ⟨-, w, -, rfl⟩ := takeTimestamp_cases hs
    exact .inl ⟨src, hsrc, hx⟩
  | bufferWrite =>
    obtain ⟨w, -, rfl⟩ := bufferWrite_cases hs
    exact .inl ⟨src, hsrc, hx⟩
  | memInsert =>
    obtain ⟨w, hw, rfl⟩ := memInsert_cases hs
    rw [h.column_memInsert (hok w (by rw [hw]; rfl)).1] at hsrc
    rcases BatchServing.mem_pushed (s := s.settled) hsrc hx with ⟨rfl, hkey⟩ | hold
    · exact .inr ⟨rfl, hkey⟩
    · exact .inl hold
  | freezeIfFull =>
    obtain ⟨w, -, rfl⟩ := freezeIfFull_cases hs
    rcases column_freezeIfFull s w key with heq | heq
    · rw [heq] at hsrc
      exact .inl ⟨src, hsrc, hx⟩
    · rw [heq] at hsrc
      rcases List.mem_cons.mp hsrc with rfl | hsrc
      · cases hx
      · exact .inl ⟨src, hsrc, hx⟩
  | finish =>
    obtain ⟨w, -, rfl⟩ := finish_cases hs
    exact .inl ⟨src, hsrc, hx⟩
  | flushPop =>
    obtain ⟨hflight, m, rest, hfrozen, rfl⟩ := flushPop_cases hs
    rw [column_flushPop hflight hfrozen] at hsrc
    exact .inl ⟨src, hsrc, hx⟩
  | flushFinish =>
    obtain ⟨m, hm, rfl⟩ := flushFinish_cases hs
    exact .inl ((column_finishFlush h hm key).1 src hsrc x hx)

/-- No step loses a version, except for a flush, which keeps a newer one of the same memtable. -/
theorem Steady.kept {a : Action} (h : Steady s) (hok : Allowed s a) (hs : Interleaving.step s a = some t)
    {key : Bytes} {src : Source KeyValuePair} (hsrc : src ∈ s.column key) {x : KeyValuePair} (hx : x ∈ src.versions) :
    ∃ src' ∈ t.column key, ∃ y ∈ src'.versions, y = x ∨ (a = .flushFinish ∧ ∃ m ∈ s.flight,
      x ∈ m.entries ∧ y ∈ m.entries ∧ x.key = y.key ∧ x.timestamp ≤ y.timestamp) := by
  cases a with
  | takeTimestamp k value isTombstone =>
    obtain ⟨-, w, -, rfl⟩ := takeTimestamp_cases hs
    exact ⟨src, hsrc, x, hx, .inl rfl⟩
  | bufferWrite =>
    obtain ⟨w, -, rfl⟩ := bufferWrite_cases hs
    exact ⟨src, hsrc, x, hx, .inl rfl⟩
  | memInsert =>
    obtain ⟨w, hw, rfl⟩ := memInsert_cases hs
    rw [h.column_memInsert (hok w (by rw [hw]; rfl)).1]
    by_cases hkey : w.key = key
    · rw [if_pos hkey]
      rcases List.mem_cons.mp hsrc with rfl | hsrc
      · exact ⟨_, List.mem_cons_self, x, List.mem_cons_of_mem _ hx, .inl rfl⟩
      · exact ⟨src, List.mem_cons_of_mem _ hsrc, x, hx, .inl rfl⟩
    · rw [if_neg hkey]
      exact ⟨src, hsrc, x, hx, .inl rfl⟩
  | freezeIfFull =>
    obtain ⟨w, -, rfl⟩ := freezeIfFull_cases hs
    rcases column_freezeIfFull s w key with heq | heq
    · rw [heq]
      exact ⟨src, hsrc, x, hx, .inl rfl⟩
    · rw [heq]
      exact ⟨src, List.mem_cons_of_mem _ hsrc, x, hx, .inl rfl⟩
  | finish =>
    obtain ⟨w, -, rfl⟩ := finish_cases hs
    exact ⟨src, hsrc, x, hx, .inl rfl⟩
  | flushPop =>
    obtain ⟨hflight, m, rest, hfrozen, rfl⟩ := flushPop_cases hs
    rw [column_flushPop hflight hfrozen]
    exact ⟨src, hsrc, x, hx, .inl rfl⟩
  | flushFinish =>
    obtain ⟨m, hm, rfl⟩ := flushFinish_cases hs
    obtain ⟨src', hsrc', y, hy, hkept⟩ := h.plain.sound.kept_finishFlush hm (h.plain.flushable hm).1 hsrc hx
    rw [column_finishFlush_settled] at hsrc'
    exact ⟨src', hsrc', y, hy, hkept.imp_right fun hm' => ⟨rfl, m, hm, hm'⟩⟩

/-- A reader at or below the settled clock finds the same after every step, except for a flush that keeps only a
version that the reader does not see. -/
theorem Steady.view_step {a : Action} (h : Steady s) (hok : Allowed s a) (hs : Interleaving.step s a = some t) {r : ℕ}
    (hr : r ≤ s.settledTs) (hunmixed : a = .flushFinish → ∀ m ∈ s.flight, Unmixed r m) {key : Bytes}
    {ans : Option Bytes} (hview : View r (s.column key) ans) : View r (t.column key) ans := by
  cases a with
  | takeTimestamp k value isTombstone =>
    obtain ⟨-, w, -, rfl⟩ := takeTimestamp_cases hs
    exact hview
  | bufferWrite =>
    obtain ⟨w, -, rfl⟩ := bufferWrite_cases hs
    exact hview
  | memInsert =>
    obtain ⟨w, hw, rfl⟩ := memInsert_cases hs
    have hcoming : s.writer.coming = some w := by
      rw [hw]
      rfl
    rw [h.column_memInsert (hok w hcoming).1]
    have hts := h.coming_ts hcoming
    exact BatchServing.View.pushed_hidden (s := s.settled) hview (by omega)
  | freezeIfFull =>
    obtain ⟨w, -, rfl⟩ := freezeIfFull_cases hs
    rcases column_freezeIfFull s w key with heq | heq
    · rw [heq]
      exact hview
    · rw [heq]
      exact hview.empty
  | finish =>
    obtain ⟨w, -, rfl⟩ := finish_cases hs
    exact hview
  | flushPop =>
    obtain ⟨hflight, m, rest, hfrozen, rfl⟩ := flushPop_cases hs
    rw [column_flushPop hflight hfrozen]
    exact hview
  | flushFinish =>
    obtain ⟨m, hm, rfl⟩ := flushFinish_cases hs
    exact (column_finishFlush h hm key).2 r ans (hunmixed rfl m hm) hview

/-- What a search below the key-value cache finds. -/
theorem Steady.search (h : Steady s) {key : Bytes} (hflight : ∀ m ∈ s.flight, ∀ x ∈ m.entries, x.key ≠ key) {r : ℕ}
    {ans : Option Bytes} (hview : View r (s.column key) ans) :
    (s.engine.lookupUncached key r).1.bind shownValue = ans := by
  have hsearched := h.plain.sound.shelved.searched
  have hfound := lookupUncached_column hsearched key r
  have hread := ReadOrder.Reads.answer_eq (BatchServing.column_flight hflight hview) shown_marker
  exact hfound.trans hread

end Steps

end Kvdb.Interleaving
