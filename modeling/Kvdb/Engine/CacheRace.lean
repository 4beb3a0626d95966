import Kvdb.Engine.Interleaving

/-! # Readers that fill the key-value cache late

`Lookup` reads `global_ts_`, asks the cache, searches the memtables and tables and puts what it has found into
the cache, unconditionally and under the timestamp it has read. Between the search and the `Put` a write of the
key may return; its value is then replaced, or its deletion undone, by an older one. -/
namespace Kvdb.CacheRace
set_option autoImplicit false

open Kvdb.Runs Kvdb.Engine
open Kvdb.BatchServing (Effect last effectOf View last_cons)
open Kvdb.Interleaving (WriterStage Steady Unmixed updateCache)

inductive ReaderStage where
  | idle
  | begun
  | missed
  | found (v : Bytes)
  deriving DecidableEq

/-- A thread in `Lookup`; `clean` says that no write of its key has returned since it read `global_ts_`. -/
structure Reader where
  key : Bytes
  readTs : ℕ
  stage : ReaderStage
  clean : Bool

variable {n : ℕ}

structure State (n : ℕ) where
  core : Interleaving.State
  readers : Fin n → Reader

/-- The steps of `Lookup`. -/
inductive ReaderAction (n : ℕ) where
  | start (k : Fin n) (key : Bytes)
  | get (k : Fin n)
  | search (k : Fin n)
  | populate (k : Fin n)

inductive Action (n : ℕ) where
  | write (a : Interleaving.Action)
  | read (a : ReaderAction n)

def init (cfg : EngineConfig) (n : ℕ) : State n := ⟨Interleaving.init cfg, fun _ => ⟨[], 0, .idle, true⟩⟩

def Reader.overtaken (r : Reader) (key : Bytes) : Reader := if r.key = key then { r with clean := false } else r

/-- The key of the write that the step completes. -/
def completes (writer : WriterStage) : Interleaving.Action → Option Bytes
  | .finish => writer.applied.map KeyValuePair.key
  | _ => none

/-- The readers after a step of a writer. -/
def watch (readers : Fin n → Reader) (completed : Option Bytes) : Fin n → Reader :=
  fun k => completed.elim (readers k) (readers k).overtaken

/-- Readers change the two caches of the engine only. -/
def readerStep (e : Engine) (readers : Fin n → Reader) : ReaderAction n → Option (Engine × (Fin n → Reader))
  | .start k key =>
    if (readers k).stage = .idle then
      some (e, Function.update readers k ⟨key, e.globalTs, .begun, true⟩)
    else none
  | .get k =>
    let (value, kv) := e.kvCache.get (readers k).key (readers k).readTs
    match (readers k).stage with
    | .begun => some ({ e with kvCache := kv },
        Function.update readers k { readers k with stage := if value.isSome then .idle else .missed })
    | _ => none
  | .search k =>
    let (found, cache) := e.lookupUncached (readers k).key (readers k).readTs
    match (readers k).stage with
    | .missed => some ({ e with sstCache := cache },
        Function.update readers k { readers k with stage := (found.bind shownValue).elim .idle .found })
    | _ => none
  | .populate k =>
    match (readers k).stage with
    | .found v => some ({ e with kvCache := e.kvCache.put (readers k).key v (readers k).readTs },
        Function.update readers k { readers k with stage := .idle })
    | _ => none

def step (s : State n) : Action n → Option (State n)
  | .write a => (Interleaving.step s.core a).map fun c => ⟨c, watch s.readers (completes s.core.writer a)⟩
  | .read a => (readerStep s.core.engine s.readers a).map fun p => ⟨{ s.core with engine := p.1 }, p.2⟩

/-- The answer is that of the last write of the key that has returned, or of the one in progress. -/
def Current (s : Interleaving.State) (key : Bytes) (ans : Option Bytes) : Prop :=
  ans = last s.committed key ∨ ∃ w ∈ s.writer.applied, w.key = key ∧ ans = shown w

/-- The condition on a step. A `Lookup` puts what it has found into the cache only if no write of its key has
returned since it read `global_ts_`. A write finds its key in the cache if it is there, and a value that is not
cached replaces none. The rest keeps the search right: see `Interleaving.Allowed`; a flush ends while a write is in
progress only if it drops no version that is seen below that write; a search does not ask for a key of the memtable
that the flush worker holds. -/
def Allowed (s : State n) : Action n → Prop
  | .write .finish => ∀ w ∈ s.core.writer.applied, s.core.engine.kvCache.Found w.key ∧
      (w.isTombstone = false → Config.pageSize / 2 < w.value.length → s.core.engine.kvCache.NotCached w.key)
  | .write .flushFinish => ∀ w ∈ s.core.writer.applied, ∀ m ∈ s.core.flight, Unmixed (w.timestamp - 1) m
  | .write a => Interleaving.Allowed s.core a
  | .read (.search k) => ∀ m ∈ s.core.flight, ∀ x ∈ m.entries, x.key ≠ (s.readers k).key
  | .read (.populate k) => (s.readers k).clean = true
  | _ => True

instance decidableAllowed (s : State n) : (a : Action n) → Decidable (Allowed s a)
  | .write .finish => inferInstanceAs (Decidable (∀ w ∈ s.core.writer.applied, _ ∧ (_ → _ → _)))
  | .write .flushFinish => inferInstanceAs (Decidable (∀ w ∈ s.core.writer.applied, ∀ m ∈ s.core.flight, _))
  | .write .memInsert => Interleaving.decidableAllowed s.core .memInsert
  | .write (.takeTimestamp _ _ _) | .write .bufferWrite | .write .freezeIfFull | .write .flushPop => isTrue trivial
  | .read (.search k) => inferInstanceAs (Decidable (∀ m ∈ s.core.flight, ∀ x ∈ m.entries, x.key ≠ (s.readers k).key))
  | .read (.populate k) => inferInstanceAs (Decidable ((s.readers k).clean = true))
  | .read (.start _ _) | .read (.get _) => isTrue trivial

theorem allowed_core {s : State n} {a : Interleaving.Action} (h : Allowed s (.write a)) : Interleaving.Allowed s.core a := by
  cases a with
  | finish => trivial
  | flushFinish => trivial
  | _ => exact h

/-! ## What a reader's step does -/

section Readers

variable {e : Engine} {readers : Fin n → Reader} {p : Engine × (Fin n → Reader)} {k : Fin n}

theorem start_cases {key : Bytes} (hs : readerStep e readers (.start k key) = some p) :
    (readers k).stage = .idle ∧ p = (e, Function.update readers k ⟨key, e.globalTs, .begun, true⟩) := by
  simp only [readerStep] at hs
  split at hs
  · next hidle =>
    cases hs
    exact ⟨hidle, rfl⟩
  · cases hs

theorem get_cases (hs : readerStep e readers (.get k) = some p) :
    (readers k).stage = .begun ∧
      p = ({ e with kvCache := (e.kvCache.get (readers k).key (readers k).readTs).2 },
        Function.update readers k { readers k with
          stage := if (e.kvCache.get (readers k).key (readers k).readTs).1.isSome then .idle else .missed }) := by
  simp only [readerStep] at hs
  split at hs
  · next hbegun =>
    cases hs
    exact ⟨hbegun, rfl⟩
  · cases hs

theorem search_cases (hs : readerStep e readers (.search k) = some p) :
    (readers k).stage = .missed ∧
      p = ({ e with sstCache := (e.lookupUncached (readers k).key (readers k).readTs).2 },
        Function.update readers k { readers k with
          stage := ((e.lookupUncached (readers k).key (readers k).readTs).1.bind shownValue).elim .idle .found }) := by
  simp only [readerStep] at hs
  split at hs
  · next hmissed =>
    cases hs
    exact ⟨hmissed, rfl⟩
  · cases hs

theorem populate_cases (hs : readerStep e readers (.populate k) = some p) :
    ∃ v, (readers k).stage = .found v ∧
      p = ({ e with kvCache := e.kvCache.put (readers k).key v (readers k).readTs },
        Function.update readers k { readers k with stage := .idle }) := by
  simp only [readerStep] at hs
  split at hs
  · next v hfound =>
    cases hs
    exact ⟨v, hfound, rfl⟩
  · cases hs

end Readers

/-! ## The invariant -/

/-- What is known of a reader that no write of its key has overtaken. -/
structure Watched (s : Interleaving.State) (r : Reader) : Prop where
  readTs : r.readTs ≤ s.engine.globalTs
  seen : ∀ src ∈ s.column r.key, ∀ x ∈ src.versions, x.timestamp ≤ r.readTs ∨
    ∃ w ∈ s.writer.applied, w.key = r.key ∧ x.timestamp = w.timestamp
  found : ∀ v, r.stage = .found v → Current s r.key (shownValue v)

structure Coherent (s : State n) : Prop where
  steady : Steady s.core
  before : ∀ w ∈ s.core.writer.applied, ∀ key, View (w.timestamp - 1) (s.core.column key) (last s.core.committed key)
  fresh : s.core.engine.kvCache.Fresh fun x => Current s.core x.key (shownValue x.value)
  watched : ∀ k, (s.readers k).stage ≠ .idle → (s.readers k).clean = true → Watched s.core (s.readers k)

/-! ## The writer and the flush worker -/

section Writes

variable {s t : Interleaving.State} {a : Interleaving.Action}

theorem Current.mono {key : Bytes} {ans : Option Bytes} (h : Current s key ans) (hcommitted : t.committed = s.committed)
    (happlied : ∀ w ∈ s.writer.applied, t.writer.applied = some w) : Current t key ans := by
  rcases h with hans | ⟨w, hw, hkey, hans⟩
  · left
    rw [hcommitted]
    exact hans
  · exact .inr ⟨w, happlied w hw, hkey, hans⟩

/-- The write that returns is the last one of its key, and for other keys nothing changes. -/
theorem Current.finish {key : Bytes} {ans : Option Bytes} (h : Current s key ans) {w : KeyValuePair}
    (hw : s.writer.applied = some w) (hcommitted : t.committed = effectOf w :: s.committed) (hkey : w.key ≠ key) :
    Current t key ans := by
  rcases h with hans | ⟨w', hw', hkey', -⟩
  · left
    rw [hcommitted, last_cons]
    exact hans.trans (if_neg hkey).symm
  · rw [hw] at hw'
    cases hw'
    exact absurd hkey' hkey

theorem Watched.write {r : Reader} (h : Watched s r) (hsteady : Steady s) (hok : Interleaving.Allowed s a)
    (hs : Interleaving.step s a = some t) (ha : a ≠ .finish) : Watched t r := by
  obtain ⟨hcommitted, -, happlied, hclock⟩ := Interleaving.step_frame ha hs
  refine ⟨h.readTs.trans hclock, ?_, ?_⟩
  · intro src hsrc x hx
    rcases hsteady.versions hok hs hsrc hx with ⟨src0, hsrc0, hx0⟩ | ⟨hnew, hkey⟩
    · rcases h.seen src0 hsrc0 x hx0 with hle | ⟨w, hw, hkey, hts⟩
      · exact .inl hle
      · exact .inr ⟨w, happlied w hw, hkey, hts⟩
    · exact .inr ⟨x, hnew, hkey, rfl⟩
  · exact fun v hv => (h.found v hv).mono hcommitted happlied

/-- The call of a write of another key returns. -/
theorem Watched.finish {r : Reader} (h : Watched s r) {w : KeyValuePair} (hw : s.writer.applied = some w)
    (hcolumn : ∀ key, t.column key = s.column key) (hclock : t.engine.globalTs = s.engine.globalTs)
    (hcommitted : t.committed = effectOf w :: s.committed) (hkey : w.key ≠ r.key) : Watched t r := by
  refine ⟨hclock ▸ h.readTs, ?_, ?_⟩
  · intro src hsrc x hx
    rw [hcolumn] at hsrc
    rcases h.seen src hsrc x hx with hle | ⟨w', hw', hkey', -⟩
    · exact .inl hle
    · rw [hw] at hw'
      cases hw'
      exact absurd hkey' hkey
  · exact fun v hv => (h.found v hv).finish hw hcommitted hkey

/-- The insertion of a version keeps the view below it. -/
theorem before_step (hsteady : Steady s) (hok : Interleaving.Allowed s a) (hs : Interleaving.step s a = some t)
    (ha : a ≠ .finish)
    (hbefore : ∀ w ∈ s.writer.applied, ∀ key, View (w.timestamp - 1) (s.column key) (last s.committed key))
    (hflush : a = .flushFinish → ∀ w ∈ s.writer.applied, ∀ m ∈ s.flight, Unmixed (w.timestamp - 1) m) :
    ∀ w ∈ t.writer.applied, ∀ key, View (w.timestamp - 1) (t.column key) (last t.committed key) := by
  intro w hw key
  obtain ⟨hcommitted, -, happlied, -⟩ := Interleaving.step_frame ha hs
  rw [hcommitted]
  cases hold : s.writer.applied with
  | some w0 =>
    have heq : w0 = w := Option.some_injective _ ((happlied w0 hold).symm.trans hw)
    subst heq
    have hclock : w0.timestamp - 1 ≤ s.settledTs := by
      have hnone : s.writer.coming = none := by
        cases hwriter : s.writer <;> rw [hwriter] at hold <;> first | rfl | cases hold
      rw [Interleaving.settledTs_of_none hnone, hsteady.applied w0 hold]
      omega
    exact hsteady.view_step hok hs hclock (fun hf => hflush hf w0 hold) (hbefore w0 hold key)
  | none =>
    have hview : View s.settledTs (s.column key) (last s.committed key) := by
      have hsound := hsteady.plain.sound.view key
      have heffects : s.effects = s.committed := by
        rw [Interleaving.State.effects, hold]
        rfl
      have hsettled : s.settled.committed = s.committed := heffects
      rw [hsettled] at hsound
      exact hsound
    have hts : w.timestamp - 1 = s.settledTs := by
      cases a with
      | memInsert =>
        obtain ⟨w', hw', rfl⟩ := Interleaving.memInsert_cases hs
        cases hw
        rw [hsteady.coming_ts (by rw [hw']; rfl)]
        rfl
      | takeTimestamp k value isTombstone =>
        obtain ⟨-, w', -, rfl⟩ := Interleaving.takeTimestamp_cases hs
        cases hw
      | bufferWrite =>
        obtain ⟨w', -, rfl⟩ := Interleaving.bufferWrite_cases hs
        cases hw
      | freezeIfFull =>
        obtain ⟨w', hw', rfl⟩ := Interleaving.freezeIfFull_cases hs
        rw [hw'] at hold
        cases hold
      | finish => exact absurd rfl ha
      | flushPop =>
        obtain ⟨-, m, rest, -, rfl⟩ := Interleaving.flushPop_cases hs
        exact absurd (hw.symm.trans hold) (by simp)
      | flushFinish =>
        obtain ⟨m, -, rfl⟩ := Interleaving.flushFinish_cases hs
        exact absurd (hw.symm.trans hold) (by simp)
    rw [hts]
    refine hsteady.view_step hok hs (Nat.le_refl _) ?_ hview
    rintro rfl m hm
    obtain ⟨m', -, rfl⟩ := Interleaving.flushFinish_cases hs
    exact absurd (hw.symm.trans hold) (by simp)

end Writes

section Steps

variable {s t : State n}

/-- Every step of a call but the last, and those of the flush worker. -/
theorem Coherent.write (h : Coherent s) {a : Interleaving.Action} (hok : Allowed s (.write a)) (ha : a ≠ .finish)
    (hs : step s (.write a) = some t) : Coherent t := by
  obtain ⟨c, hc, rfl⟩ := Option.map_eq_some_iff.mp hs
  have hcore := allowed_core hok
  have hnone : completes s.core.writer a = none := by
    cases a <;> first | rfl | exact absurd rfl ha
  obtain ⟨hcommitted, hkv, happlied, -⟩ := Interleaving.step_frame ha hc
  refine ⟨h.steady.step hcore hc, ?_, ?_, ?_⟩
  · refine before_step h.steady hcore hc ha h.before ?_
    rintro rfl
    exact hok
  · show c.engine.kvCache.Fresh _
    rw [hkv]
    exact h.fresh.mono fun x hx => Current.mono hx hcommitted happlied
  · intro k hstage hclean
    simp only [hnone, watch, Option.elim_none] at hstage hclean ⊢
    exact (h.watched k hstage hclean).write h.steady hcore hc ha

theorem Coherent.finish (h : Coherent s) (hok : Allowed s (.write .finish)) (hs : step s (.write .finish) = some t) :
    Coherent t := by
  obtain ⟨c, hc, rfl⟩ := Option.map_eq_some_iff.mp hs
  have hsteady := h.steady.finish hc
  obtain ⟨w, hw, rfl⟩ := Interleaving.finish_cases hc
  have happlied : s.core.writer.applied = some w := by
    rw [hw]
    rfl
  obtain ⟨hfound, hsmall⟩ := hok w happlied
  have hothers : ∀ x : KVCache.Entry, x.key ≠ w.key → Current s.core x.key (shownValue x.value) →
      Current ⟨{ s.core.engine with kvCache := updateCache s.core.engine.kvCache w }, s.core.flight,
        effectOf w :: s.core.committed, .idle⟩ x.key (shownValue x.value) :=
    fun x hne hx => Current.finish hx happlied rfl (Ne.symm hne)
  refine ⟨hsteady, fun _ hw' => (by cases hw'), ?_, ?_⟩
  · show (updateCache s.core.engine.kvCache w).Fresh _
    unfold Interleaving.updateCache
    split
    · exact h.fresh.erase hfound hothers
    · next hlive =>
      have hfalse : w.isTombstone = false := Bool.eq_false_iff.mpr hlive
      refine h.fresh.put hfound (hsmall hfalse) hothers ?_
      left
      show shownValue w.value = last (effectOf w :: s.core.committed) w.key
      rw [last_cons]
      simp [effectOf, shown, hfalse]
  · intro k hstage hclean
    have hcompletes : completes s.core.writer .finish = some w.key := by
      rw [completes, happlied]
      rfl
    simp only [hcompletes, watch, Option.elim_some, Reader.overtaken] at hstage hclean ⊢
    split at hstage
    · next heq =>
      rw [if_pos heq] at hclean
      cases hclean
    · next hne =>
      rw [if_neg hne] at hclean ⊢
      exact (h.watched k hstage hclean).finish happlied (fun _ => rfl) rfl rfl (Ne.symm hne)

/-! ## Readers -/

/-- A reader moves and the engine changes its caches at most. -/
theorem Coherent.reader (h : Coherent s) {e : Engine} (hsteady : Steady { s.core with engine := e })
    (hcolumn : ∀ key, e.column s.core.flight key = s.core.column key) (hclock : e.globalTs = s.core.engine.globalTs)
    (hfresh : e.kvCache.Fresh fun x => Current s.core x.key (shownValue x.value)) {k : Fin n} {r : Reader}
    (hr : r.stage ≠ .idle → r.clean = true → Watched s.core r) :
    Coherent ⟨{ s.core with engine := e }, Function.update s.readers k r⟩ := by
  have hkept : ∀ r, Watched s.core r → Watched { s.core with engine := e } r := by
    intro r hwatched
    refine ⟨hclock ▸ hwatched.readTs, ?_, hwatched.found⟩
    intro src hsrc
    have hsrc' : src ∈ e.column s.core.flight r.key := hsrc
    rw [hcolumn] at hsrc'
    exact hwatched.seen src hsrc'
  refine ⟨hsteady, ?_, hfresh, ?_⟩
  · intro w hw key
    have hview := h.before w hw key
    rw [← hcolumn] at hview
    exact hview
  · intro j hstage hclean
    by_cases hjk : j = k
    · simp only [hjk, Function.update_self] at hstage hclean ⊢
      exact hkept r (hr hstage hclean)
    · simp only [Function.update_of_ne hjk] at hstage hclean ⊢
      exact hkept _ (h.watched j hstage hclean)

/-- The key-value cache is not part of what a search sees. -/
theorem steady_kvCache {c : Interleaving.State} (h : Steady c) (kv : KVCache) :
    Steady { c with engine := { c.engine with kvCache := kv } } :=
  ⟨h.plain, h.coming, h.applied⟩

theorem Coherent.kvCache (h : Coherent s) {kv : KVCache}
    (hfresh : kv.Fresh fun x => Current s.core x.key (shownValue x.value)) {k : Fin n} {r : Reader}
    (hr : r.stage ≠ .idle → r.clean = true → Watched s.core r) :
    Coherent ⟨{ s.core with engine := { s.core.engine with kvCache := kv } }, Function.update s.readers k r⟩ :=
  h.reader (steady_kvCache h.steady kv) (fun _ => rfl) rfl hfresh hr

theorem Coherent.start (h : Coherent s) (k : Fin n) (key : Bytes) :
    Coherent ⟨s.core, Function.update s.readers k ⟨key, s.core.engine.globalTs, .begun, true⟩⟩ := by
  refine h.reader h.steady (fun _ => rfl) rfl h.fresh ?_
  intro _ _
  refine ⟨Nat.le_refl _, ?_, fun v hv => (by cases hv)⟩
  intro src hsrc x hx
  left
  have hsettled : s.core.settledTs ≤ s.core.engine.globalTs := by
    unfold Interleaving.State.settledTs
    split
    · omega
    · exact Nat.le_refl _
  rcases h.steady.plain.sound.dated key src hsrc x hx with hle | ⟨hbatch, -, -⟩
  · exact hle.trans hsettled
  · rw [h.steady.plain.idle] at hbatch
    cases hbatch

/-- What a reader finds that no write of its key has overtaken. -/
theorem Watched.search {c : Interleaving.State} {r : Reader} (h : Watched c r) (hsteady : Steady c)
    (hbefore : ∀ w ∈ c.writer.applied, ∀ key, View (w.timestamp - 1) (c.column key) (last c.committed key)) :
    ∃ ans, View r.readTs (c.column r.key) ans ∧ Current c r.key ans := by
  have hdated : ∀ src ∈ c.column r.key, ∀ x ∈ src.versions, x.timestamp ≤ c.settledTs := by
    intro src hsrc x hx
    rcases hsteady.plain.sound.dated r.key src hsrc x hx with hle | ⟨hbatch, -, -⟩
    · exact hle
    · rw [hsteady.plain.idle] at hbatch
      cases hbatch
  by_cases hbelow : ∃ w ∈ c.writer.applied, w.key = r.key ∧ r.readTs < w.timestamp
  · obtain ⟨w, hw, hkey, hlt⟩ := hbelow
    refine ⟨last c.committed r.key, ?_, .inl rfl⟩
    refine (hbefore w hw r.key).congr ?_
    intro src hsrc x hx
    rcases h.seen src hsrc x hx with hle | ⟨w', hw', -, hts⟩
    · omega
    · have heq : w' = w := Option.some_injective _ (hw'.symm.trans hw)
      rw [heq] at hts
      omega
  · refine ⟨last c.effects r.key, ?_, ?_⟩
    · refine (hsteady.plain.sound.view r.key).congr ?_
      intro src hsrc x hx
      have hle := hdated src hsrc x hx
      have hseen : x.timestamp ≤ r.readTs := by
        rcases h.seen src hsrc x hx with hle | ⟨w, hw, hkey, hts⟩
        · exact hle
        · have hnot : ¬ r.readTs < w.timestamp := fun hlt => hbelow ⟨w, hw, hkey, hlt⟩
          omega
      exact ⟨fun _ => hle, fun _ => hseen⟩
    · unfold Interleaving.State.effects
      cases happlied : c.writer.applied with
      | none => exact .inl rfl
      | some w =>
        show Current c r.key (last (effectOf w :: c.committed) r.key)
        rw [last_cons]
        by_cases hkey : w.key = r.key
        · exact .inr ⟨w, happlied, hkey, if_pos hkey⟩
        · exact .inl (if_neg hkey)

/-- An engine that caches no values only changes its SSTable cache in a lookup. -/
theorem lookupAt_noValues (e : Engine) (key : Bytes) (r : ℕ) :
    ({ e with kvCache := Interleaving.noValues }.lookupAt key r).2 =
      { e with kvCache := Interleaving.noValues, sstCache := (e.lookupUncached key r).2 } := by
  have hmiss : Interleaving.noValues.get key r = (none, Interleaving.noValues) := rfl
  have hput : ∀ v, Interleaving.noValues.put key v r = Interleaving.noValues := by
    intro v
    unfold KVCache.put
    split
    · rfl
    · rfl
  have hsame : ({ e with kvCache := Interleaving.noValues } : Engine).lookupUncached key r = e.lookupUncached key r := rfl
  unfold lookupAt
  simp only [hmiss, hsame, hput]
  rcases e.lookupUncached key r with ⟨found, cache⟩
  cases found with
  | none => rfl
  | some v =>
    simp only []
    split
    · rfl
    · rfl

theorem steady_search {c : Interleaving.State} (h : Steady c) (key : Bytes) (r : ℕ) :
    Steady { c with engine := { c.engine with sstCache := (c.engine.lookupUncached key r).2 } } := by
  have htabled := h.plain.sound.shelved.tabled
  have heq : (c.settled.engine.lookupAt key r).2 =
      { c.settled.engine with sstCache := (c.engine.lookupUncached key r).2 } :=
    lookupAt_noValues { c.engine with globalTs := c.settledTs } key r
  have hkeyed := htabled.keyed.lookupAt htabled.filed key r
  have hfiled := htabled.filed.lookupAt key r
  rw [heq] at hkeyed hfiled
  refine h.of_settled ?_ rfl h.coming h.applied
  exact h.plain.sound.quietly rfl rfl rfl rfl rfl (fun _ _ => rfl) hfiled hkeyed (Interleaving.noValues_fresh _)

theorem shownValue_eq_some {v u : Bytes} (h : shownValue v = some u) : v = u := by
  unfold shownValue at h
  split at h
  · cases h
  · exact Option.some_injective _ h

theorem Coherent.search (h : Coherent s) {k : Fin n} (hok : Allowed s (.read (.search k)))
    (hs : step s (.read (.search k)) = some t) : Coherent t := by
  obtain ⟨p, hp, rfl⟩ := Option.map_eq_some_iff.mp hs
  obtain ⟨hstage, rfl⟩ := search_cases hp
  refine h.reader (steady_search h.steady _ _) (fun _ => rfl) rfl h.fresh ?_
  intro _ hclean
  have hwatched := h.watched k (by rw [hstage]; exact ReaderStage.noConfusion) hclean
  refine ⟨hwatched.readTs, hwatched.seen, ?_⟩
  intro v hv
  obtain ⟨ans, hview, hcurrent⟩ := hwatched.search h.steady h.before
  have hans := h.steady.search hok hview
  simp only [hans] at hv
  cases ans with
  | none => cases hv
  | some u =>
    cases hv
    obtain ⟨v', -, hshown⟩ := Option.bind_eq_some_iff.mp hans
    rw [← hshown, shownValue_eq_some hshown] at hcurrent
    exact hcurrent

theorem Coherent.get (h : Coherent s) {k : Fin n} (hs : step s (.read (.get k)) = some t) : Coherent t := by
  obtain ⟨p, hp, rfl⟩ := Option.map_eq_some_iff.mp hs
  obtain ⟨hstage, rfl⟩ := get_cases hp
  refine h.kvCache (h.fresh.get _) ?_
  intro _ hclean
  have hwatched := h.watched k (by rw [hstage]; exact ReaderStage.noConfusion) hclean
  refine ⟨hwatched.readTs, hwatched.seen, ?_⟩
  intro v hv
  simp only [] at hv
  split at hv
  · cases hv
  · cases hv

theorem Coherent.populate (h : Coherent s) {k : Fin n} (hok : Allowed s (.read (.populate k)))
    (hs : step s (.read (.populate k)) = some t) : Coherent t := by
  obtain ⟨p, hp, rfl⟩ := Option.map_eq_some_iff.mp hs
  obtain ⟨v, hstage, rfl⟩ := populate_cases hp
  have hwatched := h.watched k (by rw [hstage]; exact ReaderStage.noConfusion) hok
  exact h.kvCache (h.fresh.put_same (hwatched.found v hstage)) fun hidle => absurd rfl hidle

theorem Coherent.step {a : Action n} (h : Coherent s) (hok : Allowed s a) (hs : CacheRace.step s a = some t) :
    Coherent t := by
  cases a with
  | write a =>
    by_cases ha : a = .finish
    · subst ha
      exact h.finish hok hs
    · exact h.write hok ha hs
  | read a =>
    cases a with
    | start k key =>
      obtain ⟨p, hp, rfl⟩ := Option.map_eq_some_iff.mp hs
      obtain ⟨-, rfl⟩ := start_cases hp
      exact h.start k key
    | get k => exact h.get hs
    | search k => exact h.search hok hs
    | populate k => exact h.populate hok hs

end Steps

theorem init_coherent (cfg : EngineConfig) (n : ℕ) : Coherent (init cfg n) :=
  ⟨Interleaving.init_steady cfg, fun _ hw => (by cases hw), KVCache.new_fresh _ _ _ _ _, fun _ hstage => absurd rfl hstage⟩

/-! ## Every interleaving -/

/-- The steps of one call. -/
def call (key value : Bytes) (isTombstone : Bool) : List (Action n) :=
  [.write (.takeTimestamp key value isTombstone), .write .bufferWrite, .write .memInsert, .write .freezeIfFull,
    .write .finish]

/-- A reader misses, a second one overlaps with a write and a write of another key passes between search and `Put`. -/
def overlappingRun : List (Action 2) :=
  ([.write (.takeTimestamp [1] [2] false), .write .bufferWrite, .read (.start 1 [1]),
    .write .memInsert, .read (.start 0 [1]), .read (.get 0), .write .freezeIfFull, .read (.search 0), .read (.populate 0), .write .finish] : List (Action 2)) ++
    call [2] [4] false ++
  ([.write (.takeTimestamp [1] [3] false), .read (.get 1), .write .bufferWrite, .write .memInsert,
    .read (.start 0 [1]), .read (.start 1 [2])] : List (Action 2))

theorem overlappingRun_allowed : (checked step Allowed (init smallConfig 2) overlappingRun).isSome = true := by
  decide

def overlappingState : State 2 := (checked step Allowed (init smallConfig 2) overlappingRun).get overlappingRun_allowed

/-- A reader finds a value, the key is overwritten, and the reader puts the old value into the cache. -/
def lateReader : List (Action 1) :=
  ([.write (.takeTimestamp [1] [2] false), .write .bufferWrite, .write .memInsert,
    .read (.start 0 [1]), .read (.get 0), .read (.search 0), .write .freezeIfFull, .write .finish] : List (Action 1)) ++ call [1] [3] false ++
    ([.read (.populate 0), .read (.start 0 [1])] : List (Action 1))

end Kvdb.CacheRace
