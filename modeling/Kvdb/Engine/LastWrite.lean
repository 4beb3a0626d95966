import Kvdb.Engine.Serving

/-! # A lookup answers with the last write

One thread makes requests, the flush worker runs to completion after each of them, and in between the
compaction worker may run and the SSTable cache may drop entries. A following `Lookup` answers with
the last `Insert` or `Delete` of the key as long as the requests meet `Allowed`. -/
namespace Kvdb.LastWrite
set_option autoImplicit false

open Kvdb.Runs Kvdb.Engine
open Kvdb.Calls (Call returnedEngine)
open Kvdb.Compaction (Newest)

inductive Request where
  | insert (key value : Bytes)
  | delete (key : Bytes)
  | flush
  | waitForPendingFlushes
  | manualCompact (minSstables fromLevel : ℤ) (cascade : Bool)
  | compactionWorker
  | evict (keepHeavy : ℕ → Bool) (keepBlock : ℕ → ℕ → Bool)

/-- The engine after a request that returns. -/
def serve (e : Engine) : Request → Option Engine
  | .insert key value => (returnedEngine (e.insert key value)).map Engine.waitForPendingFlushes
  | .delete key => (returnedEngine (e.delete key)).map Engine.waitForPendingFlushes
  | .flush => some e.flush
  | .waitForPendingFlushes => some e.waitForPendingFlushes
  | .manualCompact minSstables fromLevel cascade => some (e.manualCompact minSstables fromLevel cascade).1
  | .compactionWorker => some e.compactionWorker
  | .evict keepHeavy keepBlock =>
    some { e with sstCache := e.sstCache.map fun c => c.evict keepHeavy keepBlock }

/-- What a request makes of the answer for the key, if it writes the key. -/
def outcome (key : Bytes) : Request → Option (Option Bytes)
  | .insert k value => if k = key then some (shownValue value) else none
  | .delete k => if k = key then some none else none
  | _ => none

/-- The answer that the last `Insert` or `Delete` of the key calls for. -/
def expected (requests : List Request) (key : Bytes) : Option Bytes :=
  (requests.reverse.findSome? (outcome key)).getD none

theorem expected_append (requests : List Request) (r : Request) (key : Bytes) :
    expected (requests ++ [r]) key = (outcome key r).getD (expected requests key) := by
  rw [expected, List.reverse_append, List.reverse_singleton, List.singleton_append, List.findSome?_cons]
  cases outcome key r <;> rfl

theorem expected_write (requests : List Request) {r : Request} {key : Bytes} {v : Option Bytes}
    (h : ∀ k, outcome k r = if key = k then some v else none) :
    expected (requests ++ [r]) = Function.update (expected requests) key v := by
  funext k
  rw [expected_append, h k, Function.update_apply]
  by_cases hk : key = k
  · rw [if_pos hk, if_pos hk.symm]
    rfl
  · rw [if_neg hk, if_neg (Ne.symm hk)]
    rfl

theorem expected_other (requests : List Request) {r : Request} (h : ∀ k, outcome k r = none) :
    expected (requests ++ [r]) = expected requests := by
  funext k
  rw [expected_append, h k]
  rfl

/-! ## The condition -/

/-- The newest version of the key in the tables, if there is one, is no value. -/
def NoValue (e : Engine) (key : Bytes) : Prop :=
  ∀ x ∈ e.tableVersions, Newest e.tableVersions x → x.key = key → shown x = none

/-- A compaction with work is mergeable. -/
def Compactable (e : Engine) (range : Option (ℕ × ℕ)) : Prop :=
  ∀ r ∈ range, e.nothingToCompact r.1 r.2 = false → Mergeable e r.1 r.2

def Allowed (e : Engine) : Request → Prop
  | .insert key value => Fits e ⟨key, value, e.globalTs + 1, false⟩ ∧ e.kvCache.Found key ∧
      (Config.pageSize / 2 < value.length → e.kvCache.NotCached key)
  | .delete key => Fits e ⟨key, [], e.globalTs + 1, true⟩ ∧ e.kvCache.Found key ∧ NoValue e key
  | .manualCompact minSstables fromLevel cascade => Compactable e (e.manualRange minSstables fromLevel cascade)
  | .compactionWorker => Compactable e e.workerRange
  | _ => True

/-! ## The invariant -/

structure Serving (ans : Bytes → Option Bytes) (e : Engine) : Prop where
  ready : Ready e
  idle : e.frozenMemtables = []
  answers : Answers ans e
  fresh : e.kvCache.Fresh fun x => shownValue x.value = ans x.key

variable {ans : Bytes → Option Bytes} {e e' : Engine}

theorem Serving.lookup (h : Serving ans e) (key : Bytes) : (e.lookup key).1 = ans key :=
  lookup_of_fresh key h.fresh (h.answers.lookupUncached h.ready h.idle key)

theorem wait_idle (hidle : e.frozenMemtables = []) : e.waitForPendingFlushes = e := by
  rw [Engine.waitForPendingFlushes, hidle]
  rfl

theorem wait_rotate (hidle : e.frozenMemtables = []) : e.rotate.waitForPendingFlushes = e.rotate.flushWorker := by
  have hrot : e.rotate.frozenMemtables = [e.activeMemtable.freeze] := by
    rw [rotate, hidle]
    rfl
  rw [Engine.waitForPendingFlushes, hrot]
  rfl

theorem flushWorker_kvCache (e : Engine) : e.flushWorker.kvCache = e.kvCache := by
  unfold flushWorker
  split
  · rfl
  · simp only []
    split
    · exact doFlush_keeps Engine.kvCache _ _ fun _ _ => rfl
    · rfl

theorem flushed_serving (hready : Ready e.rotate) (hidle : e.frozenMemtables = []) (hanswers : Answers ans e)
    (hfresh : e.kvCache.Fresh fun x => shownValue x.value = ans x.key) : Serving ans e.rotate.flushWorker := by
  refine ⟨?_, (rotate_flushWorker hready hidle).1, hanswers.flushed hready hidle, ?_⟩
  · refine hready.step (show Calls.step e.rotate .flushWorker = some e.rotate.flushWorker from rfl) ?_ ?_
    · intro w hw
      cases hw
    · intro bottom top hrange
      cases hrange
  · rw [flushWorker_kvCache]
    exact hfresh

/-! ## Requests -/

/-- A write, its effect on the key-value cache and the flush of a memtable that it has filled. -/
theorem Serving.write (h : Serving ans e) (call : Call) (w : KeyValuePair) {kv : KVCache}
    (hs : Calls.step e call = some { e.written w.key w.value w.isTombstone with kvCache := kv })
    (hw : Calls.writes e call = some w) (hts : w.timestamp = e.globalTs + 1) (hfits : Fits e w)
    (hdelete : w.isTombstone = true → NoValue e w.key) (hcall : Calls.compacted e call = none)
    (hfresh : kv.Fresh fun x => shownValue x.value = Function.update ans w.key (shown w) x.key) :
    Serving (Function.update ans w.key (shown w))
      ({ e.written w.key w.value w.isTombstone with kvCache := kv } : Engine).waitForPendingFlushes := by
  have hready : Ready { e.written w.key w.value w.isTombstone with kvCache := kv } := by
    refine h.ready.step hs ?_ ?_
    · intro w' hw'
      rw [hw] at hw'
      cases hw'
      exact hfits
    · intro bottom top hrange
      rw [hcall] at hrange
      cases hrange
  have hinserted := h.answers.inserted h.ready hfits hts fun htomb x hx => hdelete htomb x hx.1 hx
  have hanswers : Answers (Function.update ans w.key (shown w))
      { e.inserted w.key w.value w.isTombstone with kvCache := kv } := hinserted.congr rfl rfl
  have hidle : ({ e.inserted w.key w.value w.isTombstone with kvCache := kv } : Engine).frozenMemtables = [] :=
    h.idle
  rw [written_eq, freezeIfFull] at hready ⊢
  split at hready
  · next hfull =>
    rw [if_pos hfull]
    have hflushed := flushed_serving hready hidle hanswers hfresh
    rw [← wait_rotate hidle] at hflushed
    exact hflushed
  · next hroom =>
    rw [if_neg hroom, wait_idle hidle]
    exact ⟨hready, hidle, hanswers, hfresh⟩

theorem tableVersions_congr (hcat : e'.sstableMetadata = e.sstableMetadata)
    (hentries : ∀ md ∈ e.sstableMetadata, e'.tableEntries md = e.tableEntries md) :
    e'.tableVersions = e.tableVersions := by
  rw [tableVersions, tableVersions, hcat, List.flatMap_def, List.flatMap_def, List.map_congr_left hentries]

theorem Serving.drainFileGC (h : Serving ans e) (ts : ℕ) : Serving ans (e.drainFileGC ts) := by
  refine ⟨?_, h.idle, ?_, h.fresh⟩
  · refine h.ready.step (show Calls.step e (.drainFileGC ts) = some (e.drainFileGC ts) from rfl) ?_ ?_
    · intro w hw
      cases hw
    · intro bottom top hrange
      cases hrange
  · refine h.answers.congr rfl (tableVersions_congr rfl ?_)
    exact fun md hmd => tableEntries_congr (h.ready.searchable.running.filed.drain_files ts hmd)

theorem Serving.compact (h : Serving ans e) (call : Call) (hs : Calls.step e call = some e')
    (hcall : (∃ n l b, call = .manualCompact n l b) ∨ call = .compactionWorker)
    (hok : Compactable e (Calls.compacted e call)) : Serving ans e' := by
  have hready : Ready e' := by
    refine h.ready.step hs ?_ fun bottom top hrange => hok (bottom, top) hrange
    intro w hw
    rcases hcall with ⟨n, l, b, rfl⟩ | rfl <;> cases hw
  rcases Calls.compact_step hs hcall with ⟨-, rfl | rfl⟩ | ⟨bottom, top, hrange, rfl⟩
  · exact h
  · exact h.drainFileGC _
  · have hanswers := h.answers.compacted h.ready.searchable (hok (bottom, top) hrange)
    have hfiled := h.ready.searchable.running.filed.compactLevel bottom top
    refine ⟨hready, ?_, ?_, ?_⟩
    · show (e.compactLevel bottom top).frozenMemtables = []
      rw [compactLevel_keeps Engine.frozenMemtables e bottom top fun _ _ _ _ _ _ => rfl]
      exact h.idle
    · refine hanswers.congr rfl (tableVersions_congr rfl ?_)
      exact fun md hmd => tableEntries_congr (hfiled.drain_files _ hmd)
    · show (e.compactLevel bottom top).kvCache.Fresh _
      rw [compactLevel_keeps Engine.kvCache e bottom top fun _ _ _ _ _ _ => rfl]
      exact h.fresh

theorem Serving.serve (requests : List Request) (r : Request) (h : Serving (expected requests) e)
    (hok : Allowed e r) (hs : LastWrite.serve e r = some e') : Serving (expected (requests ++ [r])) e' := by
  cases r with
  | insert key value =>
    obtain ⟨hfits, hfound, hsmall⟩ := hok
    obtain ⟨e1, hreturned, rfl⟩ := Option.map_eq_some_iff.mp hs
    obtain ⟨-, rfl⟩ := Calls.insert_step hreturned
    rw [expected_write requests fun _ => rfl]
    refine h.write (.insert key value) ⟨key, value, e.globalTs + 1, false⟩ hreturned rfl rfl hfits
      (fun htomb => by cases htomb) rfl ?_
    refine h.fresh.put hfound hsmall ?_ ?_
    · intro x hx hold
      rw [Function.update_of_ne hx]
      exact hold
    · show shownValue value = Function.update (expected requests) key (shownValue value) key
      rw [Function.update_self]
  | delete key =>
    obtain ⟨hfits, hfound, hnovalue⟩ := hok
    obtain ⟨e1, hreturned, rfl⟩ := Option.map_eq_some_iff.mp hs
    obtain ⟨-, rfl⟩ := Calls.delete_step hreturned
    rw [expected_write requests fun _ => rfl]
    refine h.write (.delete key) ⟨key, [], e.globalTs + 1, true⟩ hreturned rfl rfl hfits (fun _ => hnovalue) rfl ?_
    refine h.fresh.erase hfound ?_
    intro x hx hold
    rw [Function.update_of_ne hx]
    exact hold
  | flush =>
    rw [expected_other requests fun _ => rfl]
    cases hs
    unfold Engine.flush
    split
    · exact h
    · next hcount =>
      have hready : Ready e.rotate := by
        refine h.ready.step (show Calls.step e .rotate = some e.rotate from if_neg hcount) ?_ ?_
        · intro w hw
          cases hw
        · intro bottom top hrange
          cases hrange
      rw [wait_rotate h.idle]
      exact flushed_serving hready h.idle h.answers h.fresh
  | waitForPendingFlushes =>
    rw [expected_other requests fun _ => rfl]
    cases hs
    rw [wait_idle h.idle]
    exact h
  | manualCompact minSstables fromLevel cascade =>
    rw [expected_other requests fun _ => rfl]
    exact h.compact (.manualCompact minSstables fromLevel cascade) hs (.inl ⟨_, _, _, rfl⟩) hok
  | compactionWorker =>
    rw [expected_other requests fun _ => rfl]
    exact h.compact .compactionWorker hs (.inr rfl) hok
  | evict keepHeavy keepBlock =>
    rw [expected_other requests fun _ => rfl]
    have hready : Ready e' := by
      refine h.ready.step (show Calls.step e (.evict keepHeavy keepBlock) = some e' from hs) ?_ ?_
      · intro w hw
        cases hw
      · intro bottom top hrange
        cases hrange
    cases hs
    exact ⟨hready, h.idle, h.answers.congr rfl rfl, h.fresh⟩

instance decidableNoValue (e : Engine) (key : Bytes) : Decidable (NoValue e key) :=
  inferInstanceAs (Decidable (∀ x ∈ e.tableVersions, Newest e.tableVersions x → x.key = key → shown x = none))

instance decidableCompactable (e : Engine) (range : Option (ℕ × ℕ)) : Decidable (Compactable e range) :=
  inferInstanceAs (Decidable (∀ r ∈ range, e.nothingToCompact r.1 r.2 = false → Mergeable e r.1 r.2))

instance decidableAllowed (e : Engine) (r : Request) : Decidable (Allowed e r) :=
  match r with
  | .insert key value => inferInstanceAs (Decidable (Fits e ⟨key, value, e.globalTs + 1, false⟩ ∧
      e.kvCache.Found key ∧ (Config.pageSize / 2 < value.length → e.kvCache.NotCached key)))
  | .delete key => inferInstanceAs (Decidable (Fits e ⟨key, [], e.globalTs + 1, true⟩ ∧ e.kvCache.Found key ∧
      NoValue e key))
  | .flush => inferInstanceAs (Decidable True)
  | .waitForPendingFlushes => inferInstanceAs (Decidable True)
  | .manualCompact minSstables fromLevel cascade =>
    inferInstanceAs (Decidable (Compactable e (e.manualRange minSstables fromLevel cascade)))
  | .compactionWorker => inferInstanceAs (Decidable (Compactable e e.workerRange))
  | .evict _ _ => inferInstanceAs (Decidable True)

/-- A key is overwritten across two flushes and a compaction, another one written and deleted. -/
def servedRequests : List Request :=
  [.insert [1] [2], .flush, .insert [1] [3], .flush, .manualCompact 2 0 false, .insert [2] [5], .delete [2], .flush]

theorem servedRequests_allowed : (checked serve Allowed (create smallConfig) servedRequests).isSome = true := by
  decide

/-- A value is flushed and its key deleted. -/
def deletedAfterFlush : List Request := [.insert [1] [2], .flush, .delete [1]]

end Kvdb.LastWrite
