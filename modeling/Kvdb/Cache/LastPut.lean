import Kvdb.Cache.Freshness
import Kvdb.Lib.Runs

/-! # A hit is the last `Put` of its key

A shard of the key-value cache with the last operation of each key beside it. `Erase` and an eviction set the bucket to
empty in place, which cuts the probe of the keys that were entered behind it: a later `Put` of such a key enters it a second
time, and a later `Erase` does not see it. As long as every search finds the bucket that there is, a hit is what was put
last. -/
namespace Kvdb.KVCache
set_option autoImplicit false

open Kvdb.Runs

/-- The calls of a shard, under its lock. -/
inductive Call where
  | get (key : Bytes) (readTs : ℕ)
  | put (key value : Bytes) (ts : ℕ)
  | erase (key : Bytes)
  deriving DecidableEq, Repr

namespace Shard

/-- The shard behind a call. -/
def call (hash : Bytes → ℕ) (s : Shard) : Call → Shard
  | .get key readTs => (s.get hash key readTs).2
  | .put key value ts => s.put hash key value ts
  | .erase key => s.erase hash key

/-- `Put` has to evict an entry first. -/
def Evicts (hash : Bytes → ℕ) (s : Shard) (key value : Bytes) : Prop :=
  s.findSlot key (hash32 hash key) = none ∧
    (s.maxEntries ≤ s.entryCount ∨ s.maxBytes < s.currentBytes + value.length)

/-- `Evict` finds the bucket of the entry at the tail. -/
def TailFound (hash : Bytes → ℕ) (s : Shard) : Prop :=
  ∀ tail ∈ s.lru.getLast?, (s.findSlot (s.keyAt tail) (hash32 hash (s.keyAt tail))).map s.idxAt = some tail

instance decidableEvicts (hash : Bytes → ℕ) (s : Shard) (key value : Bytes) : Decidable (s.Evicts hash key value) :=
  inferInstanceAs (Decidable (_ ∧ _))

instance decidableTailFound (hash : Bytes → ℕ) (s : Shard) : Decidable (s.TailFound hash) :=
  inferInstanceAs (Decidable (∀ tail ∈ s.lru.getLast?, _))

end Shard

/-- `last` has the value and the timestamp of the last `Put` of a key that was not erased since. -/
structure Logged where
  shard : Shard
  last : Bytes → Option (Bytes × ℕ)

namespace Logged

def init (perE perB : ℕ) : Logged := ⟨Shard.init perE perB, fun _ => none⟩

/-- What a call does to the last operations. -/
def record (last : Bytes → Option (Bytes × ℕ)) : Call → Bytes → Option (Bytes × ℕ)
  | .get _ _ => last
  | .put key value ts => Function.update last key (some (value, ts))
  | .erase key => Function.update last key none

def step (hash : Bytes → ℕ) (s : Logged) (c : Call) : Option Logged :=
  some ⟨s.shard.call hash c, record s.last c⟩

/-- The searches of the call find the bucket of the entry, where there is one: those of `Put` and `Erase` for their key, and
that of an eviction for the key at the tail. -/
def Searchable (hash : Bytes → ℕ) (s : Logged) : Call → Prop
  | .get _ _ => True
  | .put key value _ => s.shard.Found hash key ∧ (s.shard.Evicts hash key value → s.shard.TailFound hash)
  | .erase key => s.shard.Found hash key

instance decidableSearchable (hash : Bytes → ℕ) (s : Logged) : ∀ c, Decidable (Searchable hash s c)
  | .get _ _ => isTrue trivial
  | .put key value _ =>
    inferInstanceAs (Decidable (s.shard.Found hash key ∧ (s.shard.Evicts hash key value → s.shard.TailFound hash)))
  | .erase key => inferInstanceAs (Decidable (s.shard.Found hash key))

/-- A hit has the value of the last `Put` of its key, at a timestamp that the reader sees; behind an `Erase` there is none. -/
def Current (hash : Bytes → ℕ) (s : Logged) : Prop :=
  ∀ key readTs value, (s.shard.get hash key readTs).1 = some value → ∃ ts ≤ readTs, s.last key = some (value, ts)

/-- The entries that a bucket refers to are those of the last operations. -/
def Exact (s : Logged) : Prop := s.shard.Fresh fun x => s.last x.key = some (x.value, x.timestamp)

variable {hash : Bytes → ℕ} {s t : Logged} {c : Call}

theorem Exact.current (h : s.Exact) : s.Current hash := by
  intro key readTs value hget
  obtain ⟨x, hx, hkey, hvalue, hts⟩ := Shard.Fresh.get_eq_some h hget
  refine ⟨x.timestamp, hts, ?_⟩
  rw [← hkey, ← hvalue]
  exact hx

theorem init_exact (perE perB : ℕ) : (init perE perB).Exact := by
  intro b hb i hi
  rw [(List.mem_replicate.mp hb).2] at hi
  cases hi

/-- A call whose searches find what there is leaves no old entry behind. -/
theorem Exact.step (h : s.Exact) (hok : s.Searchable hash c) (hstep : s.step hash c = some t) : t.Exact := by
  cases hstep
  cases c with
  | get key readTs => exact Shard.Fresh.get h readTs
  | put key value ts =>
    refine Shard.Fresh.put h hok.1 ?_ ?_
    · intro x hne hx
      exact (Function.update_of_ne hne _ s.last).trans hx
    · exact Function.update_self key _ s.last
  | erase key =>
    refine Shard.Fresh.erase h hok ?_
    intro x hne hx
    exact (Function.update_of_ne hne _ s.last).trans hx

end Logged

/-- For every hash function and every sequence of calls whose searches find what there is, a hit returns the value of the
last `Put` of its key and respects its timestamp, and a key that was erased last is not hit. -/
theorem hit_is_last_put (hash : Bytes → ℕ) (perE perB : ℕ) {calls : List Call} {s : Logged}
    (h : Run (Logged.step hash) (Logged.Searchable hash) (Logged.init perE perB) calls s) : s.Current hash := by
  have hexact : s.Exact :=
    h.invariant (I := Logged.Exact) (fun _ _ _ hok hstep hs => hs.step hok hstep) (Logged.init_exact perE perB)
  exact hexact.current

/-- Three keys that collide: the last one entered is erased, and the second one is put again. -/
def calmCalls : List Call :=
  [.put [1] [10] 1, .put [2] [20] 2, .put [3] [30] 3, .erase [3], .put [2] [21] 4, .get [2] 9]

theorem calmCalls_current : ∃ s, Run (Logged.step fun _ => 0) (Logged.Searchable fun _ => 0) (Logged.init 4 100) calmCalls s ∧
    (s.shard.get (fun _ => 0) [2] 9).1 = some [21] ∧ s.Current fun _ => 0 := by
  have hexists : ∃ s, Run (Logged.step fun _ => 0) (Logged.Searchable fun _ => 0) (Logged.init 4 100) calmCalls s ∧
      (s.shard.get (fun _ => 0) [2] 9).1 = some [21] := Run.exists_of_checked (by decide)
  obtain ⟨s, hrun, hhit⟩ := hexists
  exact ⟨s, hrun, hhit, hit_is_last_put (fun _ => 0) 4 100 hrun⟩

/-- The first of the three is erased: the second is entered again in its place, and that copy is erased. The third fills the
hole, and the old copy of the second is found behind it. -/
def cutCalls : List Call :=
  [.put [1] [10] 1, .put [2] [20] 2, .erase [1], .put [2] [21] 3, .erase [2], .put [3] [30] 4]

/-- A key that was erased last is hit, with the value that was put first. -/
theorem erased_key_hit : ∃ s, Run (Logged.step fun _ => 0) anyStep (Logged.init 4 100) cutCalls s ∧ s.last [2] = none ∧
    (s.shard.get (fun _ => 0) [2] 9).1 = some [20] ∧ ¬ s.Current fun _ => 0 := by
  have hexists : ∃ s, Run (Logged.step fun _ => 0) anyStep (Logged.init 4 100) cutCalls s ∧ s.last [2] = none ∧
      (s.shard.get (fun _ => 0) [2] 9).1 = some [20] := Run.exists_of_checked (by decide)
  obtain ⟨s, hrun, hlast, hhit⟩ := hexists
  refine ⟨s, hrun, hlast, hhit, fun hcurrent => ?_⟩
  obtain ⟨ts, -, heq⟩ := hcurrent [2] 9 [20] hhit
  rw [hlast] at heq
  cases heq

end Kvdb.KVCache
