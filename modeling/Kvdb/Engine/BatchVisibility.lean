import Kvdb.Engine.BatchServing

/-! # What readers see of committed and aborted batches

`Sound` says, key by key, what the column of the key shows to readers now and to readers after a commit of
the running batch. Each step changes the column in one place. -/
namespace Kvdb.BatchServing
set_option autoImplicit false

open Kvdb.Runs Kvdb.Engine
open Kvdb.ReadOrder (Source Reads top top_congr keepSource)

/-- A reader at `readTs` finds the answer `ans` in the column. -/
def View (readTs : ℕ) (sources : List (Source KeyValuePair)) (ans : Option Bytes) : Prop :=
  Reads KeyValuePair.isTombstone shown (visAt readTs) sources ans

structure Sound (s : State) : Prop where
  shelved : Shelved s.engine s.flight s.aborted
  ahead : s.engine.batchInProgress = true → s.engine.globalTs < s.engine.batchTs ∧ s.engine.batchTs ∉ s.aborted
  quiet : s.engine.batchInProgress = false ∨ s.engine.batchTouched = false → s.pending = []
  dated : ∀ key, ∀ src ∈ s.column key, ∀ x ∈ src.versions, x.timestamp ≤ s.engine.globalTs ∨
    (s.engine.batchInProgress = true ∧ x.timestamp = s.engine.batchTs ∧ key ∈ s.pending.map Effect.key)
  view : ∀ key, View s.engine.globalTs (s.column key) (last s.committed key)
  batchView : s.engine.batchInProgress = true →
    ∀ key, View s.engine.batchTs (s.column key) (last (s.pending ++ s.committed) key)
  fresh : s.engine.kvCache.Fresh fun x => shownValue x.value = last s.committed x.key

/-! ## Effects -/

theorem last_cons (x : Effect) (xs : List Effect) (key : Bytes) :
    last (x :: xs) key = if x.key = key then x.answer else last xs key := by
  rw [last, List.find?_cons]
  by_cases hkey : x.key = key
  · simp [hkey]
  · simp [hkey, last]

theorem last_append {xs : List Effect} {key : Bytes} (h : key ∉ xs.map Effect.key) (ys : List Effect) :
    last (xs ++ ys) key = last ys key := by
  induction xs with
  | nil => rfl
  | cons x xs ih =>
    have hne : x.key ≠ key := fun heq => h (by simp [heq])
    rw [List.cons_append, last_cons, if_neg hne]
    exact ih fun hmem => h (List.mem_cons_of_mem _ hmem)

theorem last_append_of_mem {xs : List Effect} {key : Bytes} (h : key ∈ xs.map Effect.key) (ys : List Effect) :
    last (xs ++ ys) key = last xs key := by
  induction xs with
  | nil => cases h
  | cons x xs ih =>
    rw [List.cons_append, last_cons, last_cons]
    by_cases hkey : x.key = key
    · rw [if_pos hkey, if_pos hkey]
    · rw [if_neg hkey, if_neg hkey]
      refine ih ((List.mem_cons.mp h).resolve_left ?_)
      exact fun heq => hkey heq.symm

/-- An effect on one key between effects on other keys. -/
theorem last_insert {xs : List Effect} {w : Effect} (hw : w.key ∉ xs.map Effect.key) (ys : List Effect) (key : Bytes) :
    last (xs ++ w :: ys) key = if w.key = key then w.answer else last (xs ++ ys) key := by
  by_cases hkey : w.key = key
  · rw [hkey] at hw
    rw [last_append hw, last_cons, if_pos hkey, if_pos hkey]
  · rw [if_neg hkey]
    induction xs with
    | nil => rw [List.nil_append, last_cons, if_neg hkey, List.nil_append]
    | cons x xs ih =>
      rw [List.cons_append, List.cons_append, last_cons, last_cons,
        ih fun hmem => hw (List.mem_cons_of_mem _ hmem)]

/-! ## Steps that leave the column alone -/

/-- The clock and the batch. -/
def clockOf (e : Engine) : ℕ × Bool × ℕ × Bool := (e.globalTs, e.batchInProgress, e.batchTs, e.batchTouched)

/-- A step that changes the sources and not what readers find in them. -/
theorem Sound.reshape {s : State} (h : Sound s) {e' : Engine} {flight' : Option MemTable}
    (hshelved : Shelved e' flight' s.aborted) (hclock : clockOf e' = clockOf s.engine)
    (hversions : ∀ key, ∀ src ∈ e'.column flight' key, ∀ x ∈ src.versions, ∃ src0 ∈ s.column key, x ∈ src0.versions)
    (hview : ∀ key ans, View s.engine.globalTs (s.column key) ans → View s.engine.globalTs (e'.column flight' key) ans)
    (hbatch : s.engine.batchInProgress = true → ∀ key ans, View s.engine.batchTs (s.column key) ans →
      View s.engine.batchTs (e'.column flight' key) ans)
    (hkv : e'.kvCache.Fresh fun x => shownValue x.value = last s.committed x.key) :
    Sound { s with engine := e', flight := flight' } := by
  obtain ⟨hglobal, hprogress, hbatchTs, htouched⟩ : e'.globalTs = s.engine.globalTs ∧
      e'.batchInProgress = s.engine.batchInProgress ∧ e'.batchTs = s.engine.batchTs ∧
      e'.batchTouched = s.engine.batchTouched := by
    simpa only [clockOf, Prod.mk.injEq] using hclock
  refine ⟨hshelved, ?_, ?_, ?_, ?_, ?_, hkv⟩
  · rw [hglobal, hprogress, hbatchTs]
    exact h.ahead
  · rw [hprogress, htouched]
    exact h.quiet
  · intro key src hsrc x hx
    obtain ⟨src0, hsrc0, hx0⟩ := hversions key src hsrc x hx
    rw [hglobal, hprogress, hbatchTs]
    exact h.dated key src0 hsrc0 x hx0
  · intro key
    rw [hglobal]
    exact hview key _ (h.view key)
  · intro hp key
    rw [hprogress] at hp
    rw [hbatchTs]
    exact hbatch hp key _ (h.batchView hp key)

theorem Sound.congr {s : State} (h : Sound s) {e' : Engine} {flight' : Option MemTable}
    (hshelved : Shelved e' flight' s.aborted) (hclock : clockOf e' = clockOf s.engine)
    (hcolumn : ∀ key, e'.column flight' key = s.column key)
    (hfresh : e'.kvCache.Fresh fun x => shownValue x.value = last s.committed x.key) :
    Sound { s with engine := e', flight := flight' } := by
  refine h.reshape hshelved hclock ?_ ?_ ?_ hfresh
  · intro key src hsrc x hx
    rw [hcolumn] at hsrc
    exact ⟨src, hsrc, hx⟩
  · intro key ans hview
    rw [hcolumn]
    exact hview
  · intro _ key ans hview
    rw [hcolumn]
    exact hview

/-- A step that changes neither memtables nor tables. -/
theorem Sound.quietly {s : State} (h : Sound s) {e' : Engine} (hclock : clockOf e' = clockOf s.engine)
    (hactive : e'.activeMemtable = s.engine.activeMemtable) (hfrozen : e'.frozenMemtables = s.engine.frozenMemtables)
    (hcat : e'.sstableMetadata = s.engine.sstableMetadata) (hnext : e'.nextTableId = s.engine.nextTableId)
    (hfiles : ∀ md ∈ s.engine.sstableMetadata, e'.files md.filepath = s.engine.files md.filepath)
    (hfiled : Filed e') (hkeyed : Keyed (fun _ => True) e')
    (hfresh : e'.kvCache.Fresh fun x => shownValue x.value = last s.committed x.key) :
    Sound { s with engine := e' } := by
  refine h.congr (h.shelved.congr ?_ hactive hfrozen hcat hnext) hclock ?_ hfresh
  · exact ⟨hfiled, hkeyed, h.shelved.tabled.labelled.congr hcat hfiles, h.shelved.tabled.clean.congr hcat hfiles⟩
  · intro key
    rw [State.column, column_eq, column_eq, hactive, columnTail_congr hfrozen hcat hfiles]

theorem Sound.tablesKept {s : State} (h : Sound s) {e' : Engine} (hclock : clockOf e' = clockOf s.engine)
    (hactive : e'.activeMemtable = s.engine.activeMemtable) (hfrozen : e'.frozenMemtables = s.engine.frozenMemtables)
    (hnext : e'.nextTableId = s.engine.nextTableId) (htables : e'.tables = s.engine.tables)
    (hkv : e'.kvCache = s.engine.kvCache) : Sound { s with engine := e' } := by
  have hcat : e'.sstableMetadata = s.engine.sstableMetadata := congrArg Prod.fst htables
  have hfiles : e'.files = s.engine.files := congrArg (fun t => t.2.1) htables
  refine h.quietly hclock hactive hfrozen hcat hnext (fun md _ => congrFun hfiles md.filepath)
    (h.shelved.tabled.filed.congr htables) (h.shelved.tabled.keyed.congr htables) ?_
  rw [hkv]
  exact h.fresh

theorem Sound.evict {s : State} (h : Sound s) (keepHeavy : ℕ → Bool) (keepBlock : ℕ → ℕ → Bool) :
    Sound { s with engine := { s.engine with
      sstCache := s.engine.sstCache.map fun c => c.evict keepHeavy keepBlock } } := by
  have hfiled := h.shelved.tabled.filed
  exact h.quietly rfl rfl rfl rfl rfl (fun _ _ => rfl) ⟨hfiled.nodup, hfiled.below, hfiled.files, hfiled.garbage⟩
    (h.shelved.tabled.keyed.evict keepHeavy keepBlock) h.fresh

theorem Sound.compactionWorker {s : State} (h : Sound s) (hidle : s.engine.workerRange = none) :
    Sound { s with engine := s.engine.compactionWorker } := by
  have hdrain : s.engine.compactionWorker = s.engine.drainFileGC uint64Max := by
    rw [Engine.compactionWorker, hidle]
  rw [hdrain]
  have hfiled := h.shelved.tabled.filed
  exact h.quietly rfl rfl rfl rfl rfl (fun md hmd => hfiled.drain_files _ hmd) (hfiled.drainFileGC _)
    (h.shelved.tabled.keyed.drainFileGC hfiled _) h.fresh

/-! ## Lookups -/

theorem column_flight {e : Engine} {flight : Option MemTable} {key : Bytes}
    (hflight : ∀ m ∈ flight, ∀ x ∈ m.entries, x.key ≠ key) {ans : Option Bytes} {readTs : ℕ}
    (h : View readTs (e.column flight key) ans) : View readTs (e.column none key) ans := by
  cases flight with
  | none => exact h
  | some m =>
    have hempty : memtableStack key m = ⟨true, []⟩ := by
      rw [memtableStack]
      refine congrArg _ (List.eq_nil_iff_forall_not_mem.mpr ?_)
      intro x hx
      obtain ⟨hx, hkey, -⟩ := mem_stackOf.mp hx
      exact hflight m rfl x hx hkey
    have hcolumn : e.column (some m) key =
        (e.activeMemtable :: e.frozenMemtables.reverse).map (memtableStack key) ++ ⟨true, []⟩ :: e.tableColumn key := by
      simp [column, memtableOrder, hempty]
    have hnone : e.column none key =
        (e.activeMemtable :: e.frozenMemtables.reverse).map (memtableStack key) ++ e.tableColumn key := by
      simp [column, memtableOrder]
    rw [hcolumn] at h
    rw [hnone]
    exact h.drop

/-- Behind the key-value cache a lookup finds the last committed effect. -/
theorem Sound.uncached {s : State} (h : Sound s) {key : Bytes}
    (hflight : ∀ m ∈ s.flight, ∀ x ∈ m.entries, x.key ≠ key) :
    (s.engine.lookupUncached key s.engine.globalTs).1.bind shownValue = last s.committed key := by
  rw [lookupUncached_column h.shelved.searched]
  exact Reads.answer_eq (column_flight hflight (h.view key)) shown_marker

theorem Sound.lookup_eq {s : State} (h : Sound s) {key : Bytes}
    (hflight : ∀ m ∈ s.flight, ∀ x ∈ m.entries, x.key ≠ key) : (s.engine.lookup key).1 = last s.committed key :=
  lookup_of_fresh key h.fresh (h.uncached hflight)

theorem Sound.lookup {s : State} (h : Sound s) {key : Bytes}
    (hflight : ∀ m ∈ s.flight, ∀ x ∈ m.entries, x.key ≠ key) : Sound { s with engine := (s.engine.lookup key).2 } := by
  have hfresh := lookup_keeps_fresh key h.fresh (h.uncached hflight)
  have hkeyed := h.shelved.tabled.keyed.lookupAt h.shelved.tabled.filed key s.engine.globalTs
  have hfiled := h.shelved.tabled.filed.lookupAt key s.engine.globalTs
  obtain ⟨kv, cache, heq, -⟩ := lookupAt_eq s.engine key s.engine.globalTs
  rw [Engine.lookup] at hfresh ⊢
  rw [heq] at hfresh hkeyed hfiled ⊢
  exact h.quietly rfl rfl rfl rfl rfl (fun _ _ => rfl) hfiled hkeyed hfresh

/-! ## Flushes -/

theorem Sound.rotate {s : State} (h : Sound s) : Sound { s with engine := s.engine.rotate } := by
  refine h.reshape h.shelved.rotate rfl ?_ ?_ ?_ h.fresh
  · intro key src hsrc x hx
    rw [column_rotate] at hsrc
    rcases List.mem_cons.mp hsrc with rfl | hsrc
    · cases hx
    · exact ⟨src, hsrc, hx⟩
  · intro key ans hview
    rw [column_rotate]
    exact hview.empty
  · intro _ key ans hview
    rw [column_rotate]
    exact hview.empty

theorem Sound.freezeIfFull {s : State} (h : Sound s) : Sound { s with engine := s.engine.freezeIfFull } := by
  unfold Engine.freezeIfFull
  split
  · exact h.rotate
  · exact h

theorem Sound.pop {s : State} (h : Sound s) {m : MemTable} {rest : List MemTable} (hflight : s.flight = none)
    (hfrozen : s.engine.frozenMemtables = m :: rest) :
    Sound { s with engine := { s.engine with frozenMemtables := rest }, flight := some m } := by
  have hshelved := h.shelved
  rw [hflight] at hshelved
  refine h.congr (hshelved.pop hfrozen) rfl ?_ h.fresh
  intro key
  rw [State.column, column, column, hflight, memtableOrder_pop hfrozen]
  rfl

/-- The top of a stack decides for a reader who sees all of it or nothing. -/
theorem find?_head {vs : List KeyValuePair} {readTs : ℕ}
    (h : ∀ x ∈ vs, ∀ y ∈ vs, x.timestamp ≤ readTs → y.timestamp ≤ readTs) :
    vs.head?.toList.find? (visAt readTs) = vs.find? (visAt readTs) := by
  cases vs with
  | nil => rfl
  | cons v vs =>
    by_cases hv : v.timestamp ≤ readTs
    · simp [visAt, hv]
    · have hnone : (v :: vs).find? (visAt readTs) = none := by
        refine List.find?_eq_none.mpr ?_
        intro x hx hvis
        exact hv (h x hx v List.mem_cons_self (of_decide_eq_true hvis))
      rw [hnone]
      simp [visAt, hv]

theorem View.flushed {before after : List (Source KeyValuePair)} {falls : Bool} {vs : List KeyValuePair} {readTs : ℕ}
    {ans : Option Bytes} (hview : View readTs (before ++ ⟨falls, vs⟩ :: after) ans)
    (h : ∀ x ∈ vs, ∀ y ∈ vs, x.timestamp ≤ readTs → y.timestamp ≤ readTs) :
    View readTs (before ++ ⟨false, vs.head?.toList⟩ :: after) ans :=
  Reads.replace hview (find?_head h) rfl

theorem column_of_flight {s : State} {m : MemTable} (hflight : s.flight = some m) (key : Bytes) :
    s.column key = (s.engine.activeMemtable :: s.engine.frozenMemtables.reverse).map (memtableStack key) ++
      ⟨true, (memtableStack key m).versions⟩ :: s.engine.tableColumn key := by
  rw [State.column, hflight]
  simp [column, memtableOrder, memtableStack]

/-- The table of a finished flush takes the place of its memtable with the top of each stack. -/
theorem Sound.column_flushed {s : State} (h : Sound s) {m : MemTable} (hflight : s.flight = some m)
    (hwalk : m.tree.memTableWalk = liveEntries m) (hcount : 0 < m.entryCount) (key : Bytes) :
    (BatchServing.finishFlush s.engine m).column none key =
      (s.engine.activeMemtable :: s.engine.frozenMemtables.reverse).map (memtableStack key) ++
        ⟨false, (memtableStack key m).versions.head?.toList⟩ :: s.engine.tableColumn key := by
  have hshelved := h.shelved
  rw [hflight] at hshelved
  have hneat := hshelved.neat m (mem_memtableOrder.mpr (.inr (.inr rfl)))
  obtain ⟨md, cache, hmd, heq⟩ := ((s.engine.doFlush_cases m).resolve_left fun hz => Nat.ne_of_gt hcount hz.1).2
  have htables : (s.engine.doFlush m).writeCheckpoint.tableColumn key =
      ⟨false, (memtableStack key m).versions.head?.toList⟩ :: s.engine.tableColumn key := by
    rw [← flushFile_stack hneat.keyOrdered hneat.descending hwalk s.engine hneat.keys key, heq]
    exact tableColumn_afterFlush hshelved.tabled.filed hmd key
  rw [BatchServing.finishFlush, if_pos hcount, column, htables]
  simp [memtableOrder, writeCheckpoint]

/-- A memtable that counts no entries is dropped. -/
theorem Sound.column_dropped {s : State} (h : Sound s) {m : MemTable} (hflight : s.flight = some m)
    (hcount : ¬ 0 < m.entryCount) (key : Bytes) :
    (memtableStack key m).versions = [] ∧
      (BatchServing.finishFlush s.engine m).column none key =
        (s.engine.activeMemtable :: s.engine.frozenMemtables.reverse).map (memtableStack key) ++
          s.engine.tableColumn key := by
  have hshelved := h.shelved
  rw [hflight] at hshelved
  have hneat := hshelved.neat m (mem_memtableOrder.mpr (.inr (.inr rfl)))
  constructor
  · refine List.eq_nil_iff_forall_not_mem.mpr ?_
    intro x hx
    have hentry := (mem_stackOf.mp hx).1
    rw [hneat.counted (Nat.eq_zero_of_not_pos hcount)] at hentry
    cases hentry
  · rw [BatchServing.finishFlush, if_neg hcount, column, memtableOrder, Option.toList_none, List.append_nil]

/-- What a finished flush makes of the column of a key: no version is added, and a reader who sees all
versions of the key in the memtable or none of them finds what it found before. -/
theorem Sound.column_finishFlush {s : State} (h : Sound s) {m : MemTable} (hflight : s.flight = some m)
    (hwalk : m.tree.memTableWalk = liveEntries m) (key : Bytes) :
    (∀ src ∈ (BatchServing.finishFlush s.engine m).column none key, ∀ x ∈ src.versions,
      ∃ src0 ∈ s.column key, x ∈ src0.versions) ∧
    ∀ r ans, (∀ x ∈ (memtableStack key m).versions, ∀ y ∈ (memtableStack key m).versions,
        x.timestamp ≤ r → y.timestamp ≤ r) →
      View r (s.column key) ans → View r ((BatchServing.finishFlush s.engine m).column none key) ans := by
  by_cases hcount : 0 < m.entryCount
  · rw [h.column_flushed hflight hwalk hcount, column_of_flight hflight]
    constructor
    · intro src hsrc x hx
      rcases List.mem_append.mp hsrc with hsrc | hsrc
      · exact ⟨src, List.mem_append_left _ hsrc, hx⟩
      · rcases List.mem_cons.mp hsrc with rfl | hsrc
        · exact ⟨_, List.mem_append_right _ List.mem_cons_self, List.mem_of_mem_head? (Option.mem_toList.mp hx)⟩
        · exact ⟨src, List.mem_append_right _ (List.mem_cons_of_mem _ hsrc), hx⟩
    · exact fun r ans hsame hview => hview.flushed hsame
  · obtain ⟨hempty, hcolumn⟩ := h.column_dropped hflight hcount key
    rw [hcolumn, column_of_flight hflight, hempty]
    constructor
    · intro src hsrc x hx
      refine ⟨src, ?_, hx⟩
      rcases List.mem_append.mp hsrc with hsrc | hsrc
      · exact List.mem_append_left _ hsrc
      · exact List.mem_append_right _ (List.mem_cons_of_mem _ hsrc)
    · exact fun r ans _ hview => hview.drop

/-- A finished flush keeps every version, or a newer one of the same memtable. -/
theorem Sound.kept_finishFlush {s : State} (h : Sound s) {m : MemTable} (hflight : s.flight = some m)
    (hwalk : m.tree.memTableWalk = liveEntries m) {key : Bytes} {src : Source KeyValuePair} (hsrc : src ∈ s.column key)
    {x : KeyValuePair} (hx : x ∈ src.versions) :
    ∃ src' ∈ (BatchServing.finishFlush s.engine m).column none key, ∃ y ∈ src'.versions,
      y = x ∨ (x ∈ m.entries ∧ y ∈ m.entries ∧ x.key = y.key ∧ x.timestamp ≤ y.timestamp) := by
  have hshelved := h.shelved
  rw [hflight] at hshelved
  have hneat := hshelved.neat m (mem_memtableOrder.mpr (.inr (.inr rfl)))
  rw [column_of_flight hflight] at hsrc
  by_cases hcount : 0 < m.entryCount
  · rw [h.column_flushed hflight hwalk hcount]
    rcases List.mem_append.mp hsrc with hsrc | hsrc
    · exact ⟨src, List.mem_append_left _ hsrc, x, hx, .inl rfl⟩
    · rcases List.mem_cons.mp hsrc with rfl | hsrc
      · have hdescending := hneat.descending key
        cases hstack : (memtableStack key m).versions with
        | nil =>
          rw [hstack] at hx
          cases hx
        | cons y rest =>
          have hy : y ∈ (memtableStack key m).versions := by
            rw [hstack]
            exact List.mem_cons_self
          refine ⟨_, List.mem_append_right _ List.mem_cons_self, y, List.mem_singleton.mpr rfl, ?_⟩
          rw [hstack] at hdescending
          obtain ⟨hxm, hxkey, -⟩ := mem_stackOf.mp hx
          obtain ⟨hym, hykey, -⟩ := mem_stackOf.mp hy
          rw [hstack] at hx
          rcases List.mem_cons.mp hx with rfl | hx
          · exact .inl rfl
          · exact .inr ⟨hxm, hym, hxkey.trans hykey.symm, (List.pairwise_cons.mp hdescending).1 x hx⟩
      · exact ⟨src, List.mem_append_right _ (List.mem_cons_of_mem _ hsrc), x, hx, .inl rfl⟩
  · obtain ⟨hempty, hcolumn⟩ := h.column_dropped hflight hcount key
    rw [hcolumn]
    rcases List.mem_append.mp hsrc with hsrc | hsrc
    · exact ⟨src, List.mem_append_left _ hsrc, x, hx, .inl rfl⟩
    · rcases List.mem_cons.mp hsrc with rfl | hsrc
      · rw [hempty] at hx
        cases hx
      · exact ⟨src, List.mem_append_right _ hsrc, x, hx, .inl rfl⟩

theorem Sound.finishFlush {s : State} (h : Sound s) {m : MemTable} (hflight : s.flight = some m)
    (hok : Flushable s.engine.globalTs m) :
    Sound { s with engine := BatchServing.finishFlush s.engine m, flight := none } := by
  have hshelved := h.shelved
  rw [hflight] at hshelved
  have hcolumn := fun key => h.column_finishFlush hflight hok.1 key
  have hsource : ∀ key, memtableStack key m ∈ s.column key := by
    intro key
    refine List.mem_append_left _ (List.mem_map_of_mem (mem_memtableOrder.mpr (.inr (.inr ?_))))
    rw [hflight]
    rfl
  have hkept : ∀ {α : Type} (field : Engine → α), (∀ md cache, field (s.engine.afterFlush m md cache) = field s.engine) →
      (∀ e : Engine, field e.writeCheckpoint = field e) → field (BatchServing.finishFlush s.engine m) = field s.engine := by
    intro α field hflush hcheckpoint
    unfold BatchServing.finishFlush
    split
    · rw [hcheckpoint]
      exact doFlush_keeps field _ _ hflush
    · rfl
  refine h.reshape (hshelved.finishFlush hok.1) (hkept clockOf (fun _ _ => rfl) fun _ => rfl)
    (fun key => (hcolumn key).1) ?_ ?_ ?_
  · intro key ans hview
    refine (hcolumn key).2 _ ans ?_ hview
    intro x hx y hy
    rw [← versionsOf_liveEntries] at hx hy
    obtain ⟨hx, hxkey⟩ := mem_versionsOf.mp hx
    obtain ⟨hy, hykey⟩ := mem_versionsOf.mp hy
    exact hok.2 x hx y hy (hxkey.trans hykey.symm)
  · intro hp key ans hview
    refine (hcolumn key).2 _ ans ?_ hview
    intro _ _ y hy _
    have hlt := (h.ahead hp).1
    rcases h.dated key _ (hsource key) y hy with hle | ⟨-, heq, -⟩
    · omega
    · omega
  · rw [hkept Engine.kvCache (fun _ _ => rfl) fun _ => rfl]
    exact h.fresh

/-! ## Writes -/

section Writes

variable {s : State} {w : KeyValuePair} {e' : Engine}

theorem Sound.column_push (h : Sound s) (hfits : Fits s.engine w) (hlive : w.timestamp ∉ s.aborted)
    (hactive : e'.activeMemtable = s.engine.activeMemtable.insert w.key w.value w.timestamp w.isTombstone)
    (hfrozen : e'.frozenMemtables = s.engine.frozenMemtables) (htables : e'.tables = s.engine.tables) (key : Bytes) :
    e'.column s.flight key =
      if w.key = key then
        ⟨true, w :: (memtableStack key s.engine.activeMemtable).versions⟩ :: s.engine.columnTail s.flight key
      else s.column key := by
  have hneat := h.shelved.neat s.engine.activeMemtable List.mem_cons_self
  have hmarked := h.shelved.marked s.engine.activeMemtable List.mem_cons_self
  exact Engine.column_push hneat.keyOrdered h.shelved.unfrozen hfits.placed (fun hts => hlive (hmarked.within _ hts))
    hactive hfrozen (congrArg Prod.fst htables) (congrArg (fun t => t.2.1) htables) key

/-- Where the versions of a column after a push come from. -/
theorem mem_pushed {key : Bytes} {src : Source KeyValuePair} {x : KeyValuePair}
    (hsrc : src ∈ if w.key = key then
        ⟨true, w :: (memtableStack key s.engine.activeMemtable).versions⟩ :: s.engine.columnTail s.flight key
      else s.column key)
    (hx : x ∈ src.versions) : (x = w ∧ w.key = key) ∨ ∃ src0 ∈ s.column key, x ∈ src0.versions := by
  rw [State.column, column_eq] at *
  by_cases hkey : w.key = key
  · rw [if_pos hkey] at hsrc
    rcases List.mem_cons.mp hsrc with rfl | hsrc
    · rcases List.mem_cons.mp hx with rfl | hx
      · exact .inl ⟨rfl, hkey⟩
      · exact .inr ⟨_, List.mem_cons_self, hx⟩
    · exact .inr ⟨src, List.mem_cons_of_mem _ hsrc, hx⟩
  · rw [if_neg hkey] at hsrc
    exact .inr ⟨src, hsrc, hx⟩

theorem View.congr {sources : List (Source KeyValuePair)} {ans : Option Bytes} {r r' : ℕ} (h : View r sources ans)
    (hts : ∀ src ∈ sources, ∀ x ∈ src.versions, x.timestamp ≤ r' ↔ x.timestamp ≤ r) : View r' sources ans := by
  refine Reads.congr h ?_
  intro src hsrc x hx
  simp [visAt, hts src hsrc x hx]

theorem top_visAt {sources : List (Source KeyValuePair)} {r r' : ℕ}
    (hts : ∀ src ∈ sources, ∀ x ∈ src.versions, x.timestamp ≤ r' ↔ x.timestamp ≤ r) :
    top shown (visAt r') sources = top shown (visAt r) sources := by
  refine top_congr ?_
  intro src hsrc x hx
  simp [visAt, hts src hsrc x hx]

/-- A push of a version that the reader sees. -/
theorem View.pushed {r : ℕ} {key : Bytes} {ans : Option Bytes} (h : View r (s.column key) ans) (hvis : w.timestamp ≤ r)
    (hbehind : w.isTombstone = true → w.key = key → top shown (visAt r) (s.engine.columnTail s.flight key) = none) :
    View r (if w.key = key then
        ⟨true, w :: (memtableStack key s.engine.activeMemtable).versions⟩ :: s.engine.columnTail s.flight key
      else s.column key) (if w.key = key then shown w else ans) := by
  by_cases hkey : w.key = key
  · rw [if_pos hkey, if_pos hkey]
    exact Reads.push h (by simp [visAt, hvis]) fun _ htomb => hbehind htomb hkey
  · rw [if_neg hkey, if_neg hkey]
    exact h

theorem View.pushed_hidden {r : ℕ} {key : Bytes} {ans : Option Bytes} (h : View r (s.column key) ans)
    (hvis : r < w.timestamp) :
    View r (if w.key = key then
        ⟨true, w :: (memtableStack key s.engine.activeMemtable).versions⟩ :: s.engine.columnTail s.flight key
      else s.column key) ans := by
  by_cases hkey : w.key = key
  · rw [if_pos hkey]
    exact Reads.push_hidden h (by simp [visAt, hvis])
  · rw [if_neg hkey]
    exact h

/-- The effect of a version on its key. -/
def effectOf (w : KeyValuePair) : Effect := ⟨w.key, shown w⟩

theorem Sound.write (h : Sound s) (hts : w.timestamp = s.engine.globalTs + 1) (hfits : Fits s.engine w)
    (hlive : w.timestamp ∉ s.aborted) (hapart : Apart s w.key)
    (hbehind : w.isTombstone = true → NothingBehind s w.key s.engine.globalTs)
    (hclock : clockOf e' = (s.engine.globalTs + 1, s.engine.batchInProgress, s.engine.batchTs, s.engine.batchTouched))
    (hactive : e'.activeMemtable = s.engine.activeMemtable.insert w.key w.value w.timestamp w.isTombstone)
    (hfrozen : e'.frozenMemtables = s.engine.frozenMemtables) (hnext : e'.nextTableId = s.engine.nextTableId)
    (htables : e'.tables = s.engine.tables)
    (hfresh : e'.kvCache.Fresh fun x => shownValue x.value = last (effectOf w :: s.committed) x.key) :
    Sound (s.written (effectOf w) e') := by
  obtain ⟨hglobal, hprogress, hbatchTs, htouched⟩ : e'.globalTs = s.engine.globalTs + 1 ∧
      e'.batchInProgress = s.engine.batchInProgress ∧ e'.batchTs = s.engine.batchTs ∧
      e'.batchTouched = s.engine.batchTouched := by
    simpa only [clockOf, Prod.mk.injEq] using hclock
  have hcolumn := h.column_push hfits hlive hactive hfrozen htables
  have htail : ∀ key, ∀ src ∈ s.engine.columnTail s.flight key, src ∈ s.column key :=
    fun key src hsrc => List.mem_cons_of_mem _ hsrc
  -- No version stands between the old and the new clock.
  have hstill : ∀ key, ∀ src ∈ s.column key, ∀ x ∈ src.versions,
      x.timestamp ≤ s.engine.globalTs + 1 ↔ x.timestamp ≤ s.engine.globalTs := by
    intro key src hsrc x hx
    rcases h.dated key src hsrc x hx with hle | ⟨hp, heq, -⟩
    · omega
    · have hlt := (hapart hp).1
      omega
  -- The batch has no version of the key.
  have hkeyOld : ∀ src ∈ s.column w.key, ∀ x ∈ src.versions, x.timestamp ≤ s.engine.globalTs := by
    intro src hsrc x hx
    rcases h.dated w.key src hsrc x hx with hle | ⟨hp, -, hkey⟩
    · exact hle
    · exact absurd hkey (hapart hp).2
  refine ⟨?_, ?_, ?_, ?_, ?_, ?_, hfresh⟩
  · refine h.shelved.push hfits hlive ?_ htables hactive hfrozen hnext
    intro x hx
    have hle := hkeyOld _ List.mem_cons_self x hx
    omega
  · intro hp
    have hp' : s.engine.batchInProgress = true := hprogress.symm.trans hp
    show e'.globalTs < e'.batchTs ∧ e'.batchTs ∉ s.aborted
    rw [hglobal, hbatchTs]
    exact ⟨(hapart hp').1, (h.ahead hp').2⟩
  · intro hq
    refine h.quiet ?_
    rw [← hprogress, ← htouched]
    exact hq
  · intro key src hsrc x hx
    show x.timestamp ≤ e'.globalTs ∨ (e'.batchInProgress = true ∧ x.timestamp = e'.batchTs ∧ _)
    rw [hglobal, hprogress, hbatchTs]
    have hsrc' : src ∈ e'.column s.flight key := hsrc
    rw [hcolumn] at hsrc'
    rcases mem_pushed hsrc' hx with ⟨rfl, -⟩ | ⟨src0, hsrc0, hx0⟩
    · exact .inl (Nat.le_of_eq hts)
    · exact (h.dated key src0 hsrc0 x hx0).imp_left fun hle => by omega
  · intro key
    show View e'.globalTs (e'.column s.flight key) (last (effectOf w :: s.committed) key)
    rw [hcolumn, hglobal, last_cons]
    refine View.pushed ((h.view key).congr (hstill key)) (Nat.le_of_eq hts) ?_
    rintro htomb rfl
    rw [top_visAt fun src hsrc => hstill w.key src (htail w.key src hsrc)]
    exact hbehind htomb
  · intro hp key
    have hp' : s.engine.batchInProgress = true := hprogress.symm.trans hp
    have hlt := (hapart hp').1
    show View e'.batchTs (e'.column s.flight key) (last (s.pending ++ effectOf w :: s.committed) key)
    rw [hcolumn, hbatchTs, last_insert (hapart hp').2]
    refine View.pushed (h.batchView hp' key) (by omega) ?_
    rintro htomb rfl
    rw [top_visAt (r := s.engine.globalTs)]
    · exact hbehind htomb
    · intro src hsrc x hx
      have hle := hkeyOld src (htail w.key src hsrc) x hx
      omega

theorem Sound.batchWrite (h : Sound s) (hts : w.timestamp = s.engine.batchTs) (hfits : Fits s.engine w)
    (hp : s.engine.batchInProgress = true)
    (hbehind : w.isTombstone = true → NothingBehind s w.key s.engine.batchTs)
    (hclock : clockOf e' = (s.engine.globalTs, true, s.engine.batchTs, true))
    (hactive : e'.activeMemtable = s.engine.activeMemtable.insert w.key w.value w.timestamp w.isTombstone)
    (hfrozen : e'.frozenMemtables = s.engine.frozenMemtables) (hnext : e'.nextTableId = s.engine.nextTableId)
    (htables : e'.tables = s.engine.tables) (hkv : e'.kvCache = s.engine.kvCache) :
    Sound (s.batchWritten (effectOf w) e') := by
  obtain ⟨hglobal, hprogress, hbatchTs, htouched⟩ : e'.globalTs = s.engine.globalTs ∧
      e'.batchInProgress = true ∧ e'.batchTs = s.engine.batchTs ∧ e'.batchTouched = true := by
    simpa only [clockOf, Prod.mk.injEq] using hclock
  obtain ⟨hahead, hlive⟩ := h.ahead hp
  rw [← hts] at hlive
  have hcolumn := h.column_push hfits hlive hactive hfrozen htables
  refine ⟨?_, ?_, ?_, ?_, ?_, ?_, ?_⟩
  · refine h.shelved.push hfits hlive ?_ htables hactive hfrozen hnext
    intro x hx
    rcases h.dated w.key _ List.mem_cons_self x hx with hle | ⟨-, heq, -⟩
    · omega
    · omega
  · intro _
    show e'.globalTs < e'.batchTs ∧ e'.batchTs ∉ s.aborted
    rw [hglobal, hbatchTs]
    exact h.ahead hp
  · rintro (hq | hq)
    · exact absurd (hprogress.symm.trans hq) (by simp)
    · exact absurd (htouched.symm.trans hq) (by simp)
  · intro key src hsrc x hx
    show x.timestamp ≤ e'.globalTs ∨
      (e'.batchInProgress = true ∧ x.timestamp = e'.batchTs ∧ key ∈ w.key :: s.pending.map Effect.key)
    rw [hglobal, hprogress, hbatchTs]
    have hsrc' : src ∈ e'.column s.flight key := hsrc
    rw [hcolumn] at hsrc'
    rcases mem_pushed hsrc' hx with ⟨rfl, rfl⟩ | ⟨src0, hsrc0, hx0⟩
    · exact .inr ⟨rfl, hts, List.mem_cons_self⟩
    · rcases h.dated key src0 hsrc0 x hx0 with hle | ⟨-, heq, hkey⟩
      · exact .inl hle
      · exact .inr ⟨rfl, heq, List.mem_cons_of_mem _ hkey⟩
  · intro key
    show View e'.globalTs (e'.column s.flight key) (last s.committed key)
    rw [hcolumn, hglobal]
    exact View.pushed_hidden (h.view key) (by omega)
  · intro _ key
    show View e'.batchTs (e'.column s.flight key) (last (effectOf w :: (s.pending ++ s.committed)) key)
    rw [hcolumn, hbatchTs, last_cons]
    refine View.pushed (h.batchView hp key) (Nat.le_of_eq hts) ?_
    rintro htomb rfl
    exact hbehind htomb
  · show e'.kvCache.Fresh fun x => shownValue x.value = last s.committed x.key
    rw [hkv]
    exact h.fresh

end Writes

/-! ## Starting, committing and aborting a batch -/

theorem Sound.startBatch {s : State} (h : Sound s) (hok : Allowed s .startBatch) :
    Sound { s with engine := s.engine.startBatch.2 } := by
  unfold Engine.startBatch
  cases hp : s.engine.batchInProgress with
  | true => exact h
  | false =>
    obtain ⟨hlt, hfree⟩ := hok hp
    have hpending := h.quiet (.inl hp)
    have hold : ∀ key, ∀ src ∈ s.column key, ∀ x ∈ src.versions, x.timestamp ≤ s.engine.globalTs := by
      intro key src hsrc x hx
      rcases h.dated key src hsrc x hx with hle | ⟨hp', -, -⟩
      · exact hle
      · rw [hp] at hp'
        cases hp'
    refine ⟨h.shelved.congr (h.shelved.tabled.congr rfl) rfl rfl rfl rfl, fun _ => ⟨hlt, hfree⟩, fun _ => hpending,
      fun key src hsrc x hx => .inl (hold key src hsrc x hx), h.view, ?_, h.fresh⟩
    intro _ key
    show View (nextBatchTs s.engine) (s.column key) (last (s.pending ++ s.committed) key)
    rw [hpending, List.nil_append]
    refine (h.view key).congr ?_
    intro src hsrc x hx
    have hle := hold key src hsrc x hx
    omega

theorem commitBatchFinalize_eq {e : Engine} (h : e.commitBatchFinalize.1 = true) :
    e.batchInProgress = true ∧ e.commitBatchFinalize.2 =
      { e with globalTs := (e.batchTs + 1) % 2 ^ 64, batchInProgress := false, batchCommitSeq := 0 } := by
  unfold Engine.commitBatchFinalize at h ⊢
  split at h
  · next hcond =>
    rw [if_pos hcond]
    exact ⟨(Bool.and_eq_true_iff.mp hcond).1, rfl⟩
  · cases h

theorem Sound.commit {s : State} (h : Sound s) (hdone : s.engine.commitBatchFinalize.1 = true)
    (hwrap : s.engine.batchTs + 1 < 2 ^ 64) (hrefreshed : Refreshed s) : Sound s.committedBatch := by
  obtain ⟨hp, heq⟩ := commitBatchFinalize_eq hdone
  have hlt := (h.ahead hp).1
  rw [Nat.mod_eq_of_lt hwrap] at heq
  have hbelow : ∀ key, ∀ src ∈ s.column key, ∀ x ∈ src.versions, x.timestamp ≤ s.engine.batchTs := by
    intro key src hsrc x hx
    rcases h.dated key src hsrc x hx with hle | ⟨-, hts, -⟩
    · omega
    · omega
  rw [State.committedBatch, heq]
  refine ⟨h.shelved.congr (h.shelved.tabled.congr rfl) rfl rfl rfl rfl, fun hp' => (by cases hp'), fun _ => rfl, ?_, ?_,
    fun hp' => (by cases hp'), ?_⟩
  · intro key src hsrc x hx
    have hle := hbelow key src hsrc x hx
    exact .inl (Nat.le_succ_of_le hle)
  · intro key
    refine (h.batchView hp key).congr ?_
    intro src hsrc x hx
    have hle := hbelow key src hsrc x hx
    show x.timestamp ≤ s.engine.batchTs + 1 ↔ x.timestamp ≤ s.engine.batchTs
    omega
  · intro shard hshard b hb i hi x hx
    show shownValue x.value = last (s.pending ++ s.committed) x.key
    by_cases hkey : x.key ∈ s.pending.map Effect.key
    · rw [last_append_of_mem hkey]
      exact hrefreshed shard hshard b hb i hi x hx hkey
    · rw [last_append hkey]
      exact h.fresh shard hshard b hb i hi x hx

theorem abortBatch_eq {e : Engine} (h : e.abortBatch.1 = true) : e.batchInProgress = true := by
  unfold Engine.abortBatch at h
  split at h
  · next hp => exact hp
  · cases h

theorem Sound.abort {s : State} (h : Sound s) (hdone : s.engine.abortBatch.1 = true) (hreached : Reached s) :
    Sound s.abortedBatch := by
  have hp := abortBatch_eq hdone
  have hlt := (h.ahead hp).1
  rw [State.abortedBatch, Engine.abortBatch, if_pos hp]
  cases htouched : s.engine.batchTouched with
  | false =>
    have hpending := h.quiet (.inr htouched)
    refine ⟨h.shelved.congr (h.shelved.tabled.congr rfl) rfl rfl rfl rfl, fun hp' => (by cases hp'), fun _ => rfl, ?_,
      h.view, fun hp' => (by cases hp'), h.fresh⟩
    intro key src hsrc x hx
    rcases h.dated key src hsrc x hx with hle | ⟨-, -, hkey⟩
    · exact .inl hle
    · rw [hpending] at hkey
      cases hkey
  | true =>
    have hfull : Aborted s.engine s.engine.abortBatch.2 := by
      rw [Engine.abortBatch, if_pos hp, htouched]
      exact ⟨rfl, rfl, rfl, rfl⟩
    have hcolumn := column_abort hfull hreached.1 hreached.2
    have hshelved := h.shelved.abort hfull hreached.1 hreached.2
    rw [Engine.abortBatch, if_pos hp, htouched] at hcolumn hshelved
    refine ⟨hshelved, fun hp' => (by cases hp'), fun _ => rfl, ?_, ?_, fun hp' => (by cases hp'), h.fresh⟩
    · intro key src hsrc x hx
      rw [State.column] at hsrc
      rw [show _ = _ from hcolumn key] at hsrc
      obtain ⟨src0, hsrc0, rfl⟩ := List.mem_map.mp hsrc
      obtain ⟨hx, hne⟩ := List.mem_filter.mp hx
      rcases h.dated key src0 hsrc0 x hx with hle | ⟨-, hts, -⟩
      · exact .inl hle
      · simp [hts] at hne
    · intro key
      rw [State.column]
      rw [show _ = _ from hcolumn key]
      refine Reads.keep (h.view key) ?_
      intro src hsrc x hx hbatch
      have hts : x.timestamp = s.engine.batchTs := by simpa using hbatch
      simp [visAt, hts, hlt]

end Kvdb.BatchServing
