import Kvdb.Engine.Answers
import Kvdb.Cache.Freshness

/-! # Writes, flushes and compactions keep the answers

`Ready` collects what makes every version findable. `Answers ans` says that the newest versions in the
memtable and in the tables give the answers `ans`: a live version in the memtable decides, otherwise
the newest version in the tables does. The memtable phase passes over a tombstone, so a tombstone in
the memtable is an answer only while the tables have no live version to offer. -/
namespace Kvdb.Engine
set_option autoImplicit false

open Kvdb.Compaction (Newest)
open Kvdb.Levels (Deep Newer NoneBelow)
open SSTableFile (Ascending)

/-- The answer that a value stands for: the empty value is read as absent. -/
def shownValue (value : Bytes) : Option Bytes := if value.isEmpty then none else some value

/-- The answer that a version stands for. -/
def shown (x : KeyValuePair) : Option Bytes := if x.isTombstone then none else shownValue x.value

/-- `Lookup` answers `ans` if the cached values and the search behind the cache do. -/
theorem lookup_of_fresh {e : Engine} {ans : Bytes → Option Bytes} (key : Bytes)
    (hfresh : e.kvCache.Fresh fun x => shownValue x.value = ans x.key)
    (huncached : (e.lookupUncached key e.globalTs).1.bind shownValue = ans key) : (e.lookup key).1 = ans key := by
  unfold lookup lookupAt
  split
  · next v kv hget =>
    obtain ⟨x, hx, hkey, rfl, -⟩ := hfresh.get_eq_some (congrArg Prod.fst hget)
    rw [← hkey, ← hx]
    rfl
  · split
    · next v cache hfound =>
      rw [hfound] at huncached
      rw [← huncached, Option.bind_some, shownValue]
      split <;> rfl
    · next cache hnone =>
      rw [hnone] at huncached
      exact huncached

/-- What such a read leaves in the key-value cache. -/
theorem lookup_keeps_fresh {e : Engine} {ans : Bytes → Option Bytes} (key : Bytes)
    (hfresh : e.kvCache.Fresh fun x => shownValue x.value = ans x.key)
    (huncached : (e.lookupUncached key e.globalTs).1.bind shownValue = ans key) :
    (e.lookup key).2.kvCache.Fresh fun x => shownValue x.value = ans x.key := by
  have hget : (e.kvCache.get key e.globalTs).2.Fresh _ := hfresh.get e.globalTs
  unfold lookup lookupAt
  split
  · next v kv heq =>
    rw [heq] at hget
    exact hget
  · next kv heq =>
    rw [heq] at hget
    split
    · next v cache hfound =>
      rw [hfound] at huncached
      split
      · exact hget
      · exact hget.put_same huncached
    · exact hget

/-! ## Findable versions -/

/-- A memtable in order, without the empty key, which a flush would drop. -/
structure Tidy (m : MemTable) : Prop where
  ordered : m.tree.Ordered
  keys : ∀ x ∈ m.entries, x.key ≠ []

/-- Every table and every memtable is in order. -/
structure Stored (e : Engine) : Prop where
  running : Running e
  described : Described e
  sorted : EachTable (fun _ f => f.Sorted) e
  memtables : EachMemtable Tidy e

structure Ready (e : Engine) : Prop where
  searchable : Searchable e
  memtables : EachMemtable Tidy e
  unfrozen : e.activeMemtable.frozen = false

/-- The memtable takes the version at its place, under a key that a flush keeps. -/
structure Fits (e : Engine) (w : KeyValuePair) : Prop where
  key : w.key ≠ []
  placed : e.activeMemtable.tree.Placed w

/-- At the last level, where the merge ends at the first tombstone it drops, no key with a value stands
behind one. -/
def Reached (e : Engine) (fromLevel topLevel : ℕ) : Prop :=
  topLevel + 1 = Config.maxLevel → ∀ x ∈ e.inputEntries fromLevel topLevel,
    Newest (e.inputEntries fromLevel topLevel) x → x.isTombstone = true →
      ∀ y ∈ e.inputEntries fromLevel topLevel, Newest (e.inputEntries fromLevel topLevel) y →
        (shown y).isSome = true → y.key < x.key

/-- What a compaction has to meet: its output gets a cache key of its own, its inputs are read in order,
no table below holds their keys, and the merge reaches every value. -/
structure Mergeable (e : Engine) (fromLevel topLevel : ℕ) : Prop where
  keyFree : KeyFree e fromLevel topLevel
  inOrder : ∀ i ∈ e.compactionInputs fromLevel topLevel, ∀ f ∈ e.files i.filepath,
    SSTableIterator.InOrder f (e.blocksCached i)
  noneBelow : NoneBelow e fromLevel topLevel
  reached : Reached e fromLevel topLevel

instance decidableFits (e : Engine) (w : KeyValuePair) : Decidable (Fits e w) :=
  decidable_of_iff (w.key ≠ [] ∧ e.activeMemtable.tree.Placed w)
    ⟨fun h => ⟨h.1, h.2⟩, fun h => ⟨h.key, h.placed⟩⟩

instance decidableReached (e : Engine) (fromLevel topLevel : ℕ) : Decidable (Reached e fromLevel topLevel) :=
  inferInstanceAs (Decidable (topLevel + 1 = Config.maxLevel → ∀ x ∈ e.inputEntries fromLevel topLevel,
    Newest (e.inputEntries fromLevel topLevel) x → x.isTombstone = true →
      ∀ y ∈ e.inputEntries fromLevel topLevel, Newest (e.inputEntries fromLevel topLevel) y →
        (shown y).isSome = true → y.key < x.key))

instance decidableMergeable (e : Engine) (fromLevel topLevel : ℕ) : Decidable (Mergeable e fromLevel topLevel) :=
  decidable_of_iff
    (KeyFree e fromLevel topLevel ∧
      (∀ i ∈ e.compactionInputs fromLevel topLevel, ∀ f ∈ e.files i.filepath,
        SSTableIterator.InOrder f (e.blocksCached i)) ∧
      NoneBelow e fromLevel topLevel ∧ Reached e fromLevel topLevel)
    ⟨fun h => ⟨h.1, h.2.1, h.2.2.1, h.2.2.2⟩, fun h => ⟨h.keyFree, h.inOrder, h.noneBelow, h.reached⟩⟩

variable {e e' : Engine}

theorem tidy_new (id maxBytes : ℕ) : Tidy (MemTable.new id maxBytes) :=
  ⟨BPlusTree.empty_ordered, fun _ hx => (by cases hx)⟩

theorem Tidy.freeze {m : MemTable} (h : Tidy m) : Tidy m.freeze := ⟨h.ordered, h.keys⟩

theorem Tidy.insert {m : MemTable} (h : Tidy m) {w : KeyValuePair} (hplaced : m.tree.Placed w) (hkey : w.key ≠ [])
    (hnew : ∀ x ∈ m.entries, x.timestamp < w.timestamp) :
    Tidy (m.insert w.key w.value w.timestamp w.isTombstone) := by
  refine ⟨?_, ?_⟩
  · unfold MemTable.insert
    split
    · exact h.ordered
    · exact h.ordered.insert hplaced fun x hx _ => hnew x hx
  · intro x hx
    rcases MemTable.mem_insert hx with rfl | hx
    · exact hkey
    · exact h.keys x hx

section Mergeable

variable {fromLevel topLevel : ℕ}

theorem Mergeable.readable (h : Mergeable e fromLevel topLevel) (hs : Searchable e) :
    Readable e fromLevel topLevel := by
  intro i hi f hf
  have hicat := ((mem_compactionInputs e fromLevel topLevel i).mp hi).1
  exact ⟨(hs.sorted i hicat f hf).ascending, h.inOrder i hi f hf⟩

theorem inputEntries_key (hs : Stored e) {x : KeyValuePair} (hx : x ∈ e.inputEntries fromLevel topLevel) :
    x.key ≠ [] := by
  obtain ⟨i, hi, hx⟩ := mem_inputEntries.mp hx
  have hicat := ((mem_compactionInputs e fromLevel topLevel i).mp hi).1
  obtain ⟨f, hfile⟩ := hs.running.filed.files i hicat
  rw [tableEntries, hfile] at hx
  exact (hs.sorted i hicat f hfile).keys x hx

theorem compactLevel_sorted (hs : Stored e)
    (hread : e.nothingToCompact fromLevel topLevel = false → Readable e fromLevel topLevel) :
    EachTable (fun _ f => f.Sorted) (e.compactLevel fromLevel topLevel) := by
  refine hs.sorted.compactLevel hs.running.filed ?_
  intro hwork md _ f hout _
  obtain ⟨batch, hbatch, rfl⟩ := hs.described.output hs.running.filed hout
  have hasc := merged_ascending hs.running hs.described (hread hwork)
  have hflat : (e.compactionJob fromLevel topLevel).batches.flatten =
      (e.compactionJob fromLevel topLevel).merged := Pack.pack_flatten _ _ _ _
  rw [← hflat, Ascending, List.pairwise_flatten] at hasc
  refine SSTableFile.write_sorted _ (hasc.1 batch hbatch) ?_
  intro x hx
  exact inputEntries_key hs (merged_newest hs.running hs.described (hread hwork) (mem_batches hbatch hx)).1

end Mergeable

theorem flushFile_sorted (e : Engine) {m : MemTable} (ht : Tidy m) (hc : m.Clean) : (e.flushFile m).Sorted := by
  rw [flushFile, BPlusTree.memTableWalk_eq hc.noAborted, hc.noAborted]
  exact SSTableFile.writeFromWalk_sorted _ _ ht.ordered.pairwise

theorem flushWorker_activeMemtable (e : Engine) : e.flushWorker.activeMemtable = e.activeMemtable := by
  unfold flushWorker
  split
  · rfl
  · simp only []
    split
    · exact doFlush_activeMemtable _ _
    · rfl

theorem writes_timestamp {call : Calls.Call} {w : KeyValuePair} (hw : Calls.writes e call = some w) :
    w.timestamp = e.globalTs + 1 := by
  unfold Calls.writes at hw
  split at hw
  · cases hw
    rfl
  · cases hw
    rfl
  · cases hw

/-- A call keeps tables and memtables in order, if its version fits and its compaction reads in order. -/
theorem Stored.step (h : Stored e) {call : Calls.Call} (hs : Calls.step e call = some e')
    (hwrite : ∀ w, Calls.writes e call = some w → Fits e w)
    (hcompact : ∀ bottom top, Calls.compacted e call = some (bottom, top) →
      e.nothingToCompact bottom top = false → Readable e bottom top) : Stored e' := by
  have hactive : e.activeMemtable ∈ e.memtables := List.mem_append_right _ List.mem_cons_self
  refine ⟨h.running.step hs, h.described.step h.running hs, ?_, ?_⟩
  · refine h.sorted.step h.running.filed hs ?_ fun bottom top hrange =>
      compactLevel_sorted h (hcompact bottom top hrange)
    intro m hm _ _ _ _
    have hmem : m ∈ e.memtables := List.mem_append_left _ hm
    exact e.flushFile_sorted (h.memtables m hmem) (h.described.memtables m hmem)
  · refine h.memtables.step hs ?_ (fun _ hm => hm.freeze) tidy_new
    intro w hw
    rw [← writes_timestamp hw]
    refine (h.memtables _ hactive).insert (hwrite w hw).placed (hwrite w hw).key ?_
    intro x hx
    have hle := h.running.recent.memtablesVisible _ hactive x hx
    rw [writes_timestamp hw]
    omega

theorem create_stored (cfg : EngineConfig) : Stored (create cfg) := by
  refine ⟨create_running cfg, create_described cfg, fun _ hmd => (by cases hmd), ?_⟩
  intro m hm
  rw [List.mem_singleton.mp hm]
  exact tidy_new _ _

theorem Ready.stored (h : Ready e) : Stored e :=
  ⟨h.searchable.running, h.searchable.described, h.searchable.sorted, h.memtables⟩

/-- A call keeps the engine ready, if its version fits and its compaction is mergeable. -/
theorem Ready.step (h : Ready e) {call : Calls.Call} (hs : Calls.step e call = some e')
    (hwrite : ∀ w, Calls.writes e call = some w → Fits e w)
    (hcompact : ∀ bottom top, Calls.compacted e call = some (bottom, top) →
      e.nothingToCompact bottom top = false → Mergeable e bottom top) : Ready e' := by
  have hsearch := h.searchable
  have hstored : Stored e' := h.stored.step hs hwrite fun bottom top hrange hwork =>
    (hcompact bottom top hrange hwork).readable hsearch
  refine ⟨⟨hstored.running, ?_, hstored.described, hstored.sorted, ?_⟩, hstored.memtables, ?_⟩
  · exact hsearch.keyed.step hsearch.running.filed
      (fun bottom top hrange hwork _ => (hcompact bottom top hrange hwork).keyFree) hs
  · refine hsearch.ordered.step hsearch.running.filed hs ?_
    intro bottom top hrange
    refine Levels.compactLevel_newer hsearch.running hsearch.described hsearch.ordered ?_
    intro hwork
    have hm := hcompact bottom top hrange hwork
    exact ⟨hm.readable hsearch, hm.noneBelow⟩
  · refine Calls.step_rule (P := fun e => e.activeMemtable.frozen = false) hs h.unfrozen ?_ ?_ ?_ ?_ ?_ ?_ ?_
    · intro w kv _ _
      refine written_rule (P := fun e => e.activeMemtable.frozen = false) kv ?_ (fun _ _ => rfl) fun _ _ h1 => h1
      exact (MemTable.insert_frozen _ _ _ _ _).trans h.unfrozen
    · exact fun _ => rfl
    · rw [flushWorker_activeMemtable]
      exact h.unfrozen
    · intro bottom top _
      rw [compactLevel_keeps Engine.activeMemtable e bottom top fun _ _ _ _ _ _ => rfl]
      exact h.unfrozen
    · exact fun _ _ h1 => h1
    · intro key readTs
      obtain ⟨kv, cache, heq, -⟩ := e.lookupAt_eq key readTs
      rw [heq]
      exact h.unfrozen
    · exact fun _ _ => h.unfrozen

theorem create_ready (cfg : EngineConfig) : Ready (create cfg) := by
  have h := create_stored cfg
  exact ⟨⟨h.running, create_keyed _ cfg, h.described, h.sorted, List.Pairwise.nil⟩, h.memtables, rfl⟩

/-! ## The answers -/

structure Answers (ans : Bytes → Option Bytes) (e : Engine) : Prop where
  memtable : ∀ x, Newest e.activeMemtable.entries x → shown x = ans x.key
  tables : ∀ x, Newest e.tableVersions x →
    (∀ y, Newest e.activeMemtable.entries y → y.key = x.key → y.isTombstone = true) → shown x = ans x.key
  absent : ∀ key, (∀ x ∈ e.activeMemtable.entries, x.key ≠ key) → (∀ x ∈ e.tableVersions, x.key ≠ key) →
    ans key = none

variable {ans : Bytes → Option Bytes}

theorem Answers.congr (h : Answers ans e) (hactive : e'.activeMemtable = e.activeMemtable)
    (htables : e'.tableVersions = e.tableVersions) : Answers ans e' :=
  ⟨by rw [hactive]; exact h.memtable, by rw [hactive, htables]; exact h.tables,
    by rw [hactive, htables]; exact h.absent⟩

theorem exists_newest_key {es : List KeyValuePair} {key : Bytes} (h : ∃ x ∈ es, x.key = key) :
    ∃ x, Newest es x ∧ x.key = key := by
  obtain ⟨x0, hx0, hkey0⟩ := h
  have hne : es.filter (fun x => decide (x.key = key)) ≠ [] :=
    List.ne_nil_of_mem (List.mem_filter.mpr ⟨hx0, decide_eq_true hkey0⟩)
  obtain ⟨x, hx, hmax⟩ := Levels.exists_newest hne
  obtain ⟨hmem, hkey⟩ := List.mem_filter.mp hx
  have hxkey : x.key = key := of_decide_eq_true hkey
  refine ⟨x, ⟨hmem, ?_⟩, hxkey⟩
  intro y hy hykey
  exact hmax y (List.mem_filter.mpr ⟨hy, decide_eq_true (hykey.trans hxkey)⟩)

theorem newest_unique {es : List KeyValuePair} (h : es.Pairwise Before) {x y : KeyValuePair} (hx : Newest es x)
    (hy : Newest es y) (hkey : x.key = y.key) : x = y := by
  have hts : x.timestamp = y.timestamp := Nat.le_antisymm (hy.2 x hx.1 hkey) (hx.2 y hy.1 hkey.symm)
  exact eq_of_before h hx.1 hy.1 hkey hts

/-- What `Lookup` finds behind the key-value cache. -/
theorem Answers.lookupUncached (h : Answers ans e) (hr : Ready e) (hidle : e.frozenMemtables = []) (key : Bytes) :
    (e.lookupUncached key e.globalTs).1.bind shownValue = ans key := by
  have hactive : e.activeMemtable ∈ e.memtables := List.mem_append_right _ List.mem_cons_self
  have hmem := lookupVersion_newest (hr.memtables _ hactive).ordered
    (hr.searchable.described.memtables _ hactive) key (hr.searchable.running.recent.memtablesVisible _ hactive)
  have hprobe : e.probeMemtables key e.globalTs = e.activeMemtable.tree.lookup key e.globalTs := by
    rw [probeMemtables, hidle, List.reverse_nil, List.findSome?_cons, MemTable.lookup]
    cases e.activeMemtable.tree.lookup key e.globalTs <;> rfl
  have htables : (∀ y, Newest e.activeMemtable.entries y → y.key = key → y.isTombstone = true) →
      ((∀ y ∈ e.activeMemtable.entries, y.key ≠ key) ∨ ans key = none) →
      (((e.probeSSTables key e.globalTs).1.map valueOf).bind shownValue) = ans key := by
    intro htomb habsent
    rcases probeSSTables_newest hr.searchable hidle key with ⟨x, hx, hkey, hnewest⟩ | ⟨hnone, hother⟩
    · have hshown := h.tables x hnewest (by rw [hkey]; exact htomb)
      rw [hx, ← hkey, ← hshown, Option.map_some, Option.bind_some, valueOf, shown]
      cases x.isTombstone <;> rfl
    · rw [hnone]
      rcases habsent with habsent | habsent
      · exact (h.absent key habsent hother).symm
      · exact habsent.symm
  unfold Engine.lookupUncached
  rw [hprobe, BPlusTree.lookup]
  rcases hmem with ⟨x, hx, hkey, hnewest⟩ | ⟨hnone, hother⟩
  · have hshown := h.memtable x hnewest
    rw [hx]
    simp only []
    cases htomb : x.isTombstone with
    | false =>
      rw [← hkey, ← hshown, shown, htomb]
      rfl
    | true =>
      refine htables ?_ ?_
      · intro y hy hykey
        rw [newest_unique (hr.memtables _ hactive).ordered.pairwise hy hnewest (hykey.trans hkey.symm)]
        exact htomb
      · right
        rw [← hkey, ← hshown, shown, htomb]
        rfl
  · rw [hnone]
    refine htables ?_ (.inl hother)
    intro y hy hykey
    exact absurd hykey (hother y hy.1)

/-! ## A write -/

/-- A write changes the answer of its key. The tombstone of a `Delete` is not enough where the tables
still have a value of the key. -/
theorem Answers.inserted (h : Answers ans e) (hr : Ready e) {w : KeyValuePair} (hfits : Fits e w)
    (hts : w.timestamp = e.globalTs + 1)
    (hdelete : w.isTombstone = true → ∀ x, Newest e.tableVersions x → x.key = w.key → shown x = none) :
    Answers (Function.update ans w.key (shown w)) (e.inserted w.key w.value w.isTombstone) := by
  have hactive : e.activeMemtable ∈ e.memtables := List.mem_append_right _ List.mem_cons_self
  have hperm := MemTable.insert_perm hr.unfrozen hfits.placed.kept
  rw [hts] at hperm
  have hmem : ∀ x, x ∈ (e.inserted w.key w.value w.isTombstone).activeMemtable.entries ↔
      x = w ∨ x ∈ e.activeMemtable.entries := by
    intro x
    exact (hperm.mem_iff).trans List.mem_cons
  have hold : ∀ x ∈ e.activeMemtable.entries, x.timestamp ≤ e.globalTs :=
    hr.searchable.running.recent.memtablesVisible _ hactive
  have hwnewest : Newest (e.inserted w.key w.value w.isTombstone).activeMemtable.entries w := by
    refine ⟨(hmem w).mpr (.inl rfl), ?_⟩
    intro y hy _
    rcases (hmem y).mp hy with rfl | hy
    · exact Nat.le_refl _
    · have := hold y hy
      omega
  refine ⟨?_, ?_, ?_⟩
  · intro x hx
    by_cases hkey : x.key = w.key
    · have hxw : x = w := by
        rcases (hmem x).mp hx.1 with hxw | hxold
        · exact hxw
        · have h1 := hx.2 w hwnewest.1 hkey.symm
          have h2 := hold x hxold
          omega
      rw [hxw, Function.update_self]
    · rw [Function.update_of_ne hkey]
      refine h.memtable x ⟨?_, fun y hy => hx.2 y ((hmem y).mpr (.inr hy))⟩
      exact ((hmem x).mp hx.1).resolve_left fun heq => hkey (by rw [heq])
  · intro x hx htomb
    by_cases hkey : x.key = w.key
    · have hwtomb := htomb w hwnewest hkey.symm
      rw [hkey, Function.update_self, hdelete hwtomb x hx hkey, shown, hwtomb]
      rfl
    · rw [Function.update_of_ne hkey]
      refine h.tables x hx ?_
      intro y hy hykey
      refine htomb y ⟨(hmem y).mpr (.inr hy.1), ?_⟩ hykey
      intro z hz hzkey
      rcases (hmem z).mp hz with rfl | hz
      · exact absurd (hzkey.trans hykey).symm hkey
      · exact hy.2 z hz hzkey
  · intro key hnone htables
    have hkey : key ≠ w.key := fun heq => hnone w hwnewest.1 heq.symm
    rw [Function.update_of_ne hkey]
    exact h.absent key (fun x hx => hnone x ((hmem x).mpr (.inr hx))) htables

/-! ## A flush -/

/-- A flush writes the newest version of each key. -/
theorem flushFile_newest (e : Engine) {m : MemTable} (ht : Tidy m) (hc : m.Clean) (x : KeyValuePair) :
    x ∈ (e.flushFile m).entries ↔ Newest m.entries x := by
  have hsorted : m.tree.entries.Pairwise Before := ht.ordered.pairwise
  rw [flushFile, SSTableFile.entries_writeFromWalk, BPlusTree.memTableWalk_eq hc.noAborted,
    (SSTableFile.flushEntries_sorted _ hsorted).2 x]
  exact ⟨fun hx => ⟨hx.1, hx.2.2⟩, fun hx => ⟨hx.1, ht.keys x hx.1, hx.2⟩⟩

theorem freeze_mem_rotate (e : Engine) : e.activeMemtable.freeze ∈ e.rotate.memtables :=
  List.mem_append_left _ (List.mem_append_right _ List.mem_cons_self)

/-- The memtable becomes a table that holds the newest version of each of its keys. -/
theorem rotate_flushWorker (hr : Ready e.rotate) (hidle : e.frozenMemtables = []) :
    e.rotate.flushWorker.frozenMemtables = [] ∧ e.rotate.flushWorker.activeMemtable.entries = [] ∧
      ∀ x, x ∈ e.rotate.flushWorker.tableVersions ↔
        x ∈ e.tableVersions ∨ Newest e.activeMemtable.entries x := by
  have hfrozen := e.freeze_mem_rotate
  have htidy := hr.memtables _ hfrozen
  have hclean := hr.searchable.described.memtables _ hfrozen
  have hrot : e.rotate.frozenMemtables = [e.activeMemtable.freeze] := by
    rw [rotate, hidle]
    rfl
  have hpopped : Filed { e.rotate with frozenMemtables := [] } := hr.searchable.running.filed.congr rfl
  unfold flushWorker
  rw [hrot]
  simp only []
  split
  · refine ⟨doFlush_frozenMemtables _ _, congrArg MemTable.entries (doFlush_activeMemtable _ _), ?_⟩
    intro x
    rcases doFlush_cases { e.rotate with frozenMemtables := [] } e.activeMemtable.freeze with
      ⟨hcount, -⟩ | ⟨-, md, cache, hmd, heq⟩
    · omega
    · have hnew := flushFile_newest { e.rotate with frozenMemtables := [] } htidy hclean x
      show x ∈ (({ e.rotate with frozenMemtables := [] }.doFlush e.activeMemtable.freeze)).tableVersions ↔ _
      rw [MemTable.entries_freeze, ← tableEntries_afterFlush_new hmd] at hnew
      rw [heq, ← hnew, mem_tableVersions, mem_tableVersions]
      constructor
      · rintro ⟨md', hmd', hx⟩
        rcases List.mem_append.mp hmd' with hmd' | hmd'
        · rw [tableEntries_afterFlush_old hpopped hmd'] at hx
          exact .inl ⟨md', hmd', hx⟩
        · rw [List.mem_singleton.mp hmd'] at hx
          exact .inr hx
      · rintro (⟨md', hmd', hx⟩ | hx)
        · refine ⟨md', List.mem_append_left _ hmd', ?_⟩
          rw [tableEntries_afterFlush_old hpopped hmd']
          exact hx
        · exact ⟨md, List.mem_append_right _ List.mem_cons_self, hx⟩
  · next hcount =>
    refine ⟨rfl, rfl, ?_⟩
    intro x
    have hempty : e.activeMemtable.entries = [] := hclean.counted (Nat.eq_zero_of_not_pos hcount)
    rw [hempty]
    exact ⟨.inl, fun hx => hx.resolve_right fun hn => absurd hn.1 List.not_mem_nil⟩

theorem Answers.flushed (h : Answers ans e) (hr : Ready e.rotate) (hidle : e.frozenMemtables = []) :
    Answers ans e.rotate.flushWorker := by
  obtain ⟨-, hempty, hmem⟩ := rotate_flushWorker hr hidle
  have holder : ∀ x ∈ e.tableVersions, ∀ y ∈ e.activeMemtable.entries, x.timestamp < y.timestamp := by
    intro x hx y hy
    obtain ⟨md, hmd, hx⟩ := mem_tableVersions.mp hx
    exact hr.searchable.running.recent.tablesOlder md hmd _ e.freeze_mem_rotate x hx y hy
  refine ⟨?_, ?_, ?_⟩
  · intro x hx
    rw [hempty] at hx
    exact absurd hx.1 List.not_mem_nil
  · intro x hx _
    rcases (hmem x).mp hx.1 with hxold | hxmem
    · have hnone : ∀ y ∈ e.activeMemtable.entries, y.key ≠ x.key := by
        intro y hy hykey
        obtain ⟨z, hz, hzkey⟩ := exists_newest_key ⟨y, hy, hykey⟩
        have h1 := hx.2 z ((hmem z).mpr (.inr hz)) hzkey
        have h2 := holder x hxold z hz.1
        omega
      refine h.tables x ⟨hxold, fun y hy => hx.2 y ((hmem y).mpr (.inl hy))⟩ ?_
      exact fun y hy hykey => absurd hykey (hnone y hy.1)
    · exact h.memtable x hxmem
  · intro key _ hnone
    refine h.absent key ?_ fun x hx => hnone x ((hmem x).mpr (.inl hx))
    intro x hx hkey
    obtain ⟨z, hz, hzkey⟩ := exists_newest_key ⟨x, hx, hkey⟩
    exact hnone z ((hmem z).mpr (.inr hz)) hzkey

/-! ## A compaction -/

section Compaction

variable {fromLevel topLevel : ℕ} (hs : Searchable e) (hm : Mergeable e fromLevel topLevel)
  (hwork : e.nothingToCompact fromLevel topLevel = false)

include hs hm hwork

theorem merged_in_tables {x : KeyValuePair} (hx : x ∈ (e.compactionJob fromLevel topLevel).merged) :
    x ∈ (e.compactLevel fromLevel topLevel).tableVersions := by
  have hread := hm.readable hs
  have hsources : (e.compactionJob fromLevel topLevel).sources ≠ [] := by
    intro hnil
    have hin := (mem_sources_iff hs.running hs.described hread x).mpr
      (merged_newest hs.running hs.described hread hx).1
    rw [hnil] at hin
    cases hin
  have hflat : (e.compactionJob fromLevel topLevel).batches.flatten =
      (e.compactionJob fromLevel topLevel).merged := Pack.pack_flatten _ _ _ _
  rw [← hflat, ← outputs_entries hwork hsources] at hx
  obtain ⟨es, hes, hx⟩ := List.mem_flatten.mp hx
  obtain ⟨md, hmd, rfl⟩ := List.mem_map.mp hes
  refine mem_tableVersions.mpr ⟨md, ?_, hx⟩
  rw [compactLevel_survivors hwork]
  exact List.mem_append_right _ hmd

/-- The newest version after the compaction was the newest one before. -/
theorem newest_of_compacted {x : KeyValuePair} (hx : Newest (e.compactLevel fromLevel topLevel).tableVersions x) :
    Newest e.tableVersions x := by
  have hread := hm.readable hs
  obtain ⟨md, hmd, hxmd⟩ := mem_tableVersions.mp hx.1
  obtain ⟨md0, hmd0, hx0, horigin⟩ := compacted_origin hs.running.filed hs.running.keyed hwork hmd hxmd
  refine ⟨mem_tableVersions.mpr ⟨md0, hmd0, hx0⟩, ?_⟩
  intro y hy hykey
  obtain ⟨i, hi, hyi⟩ := mem_tableVersions.mp hy
  by_cases hlevel : fromLevel ≤ i.level ∧ i.level ≤ topLevel
  · have hinput : i ∈ e.compactionInputs fromLevel topLevel :=
      (mem_compactionInputs e fromLevel topLevel i).mpr ⟨hi, hlevel⟩
    have hyin : y ∈ e.inputEntries fromLevel topLevel := mem_inputEntries.mpr ⟨i, hinput, hyi⟩
    rw [compactLevel_survivors hwork, List.mem_append] at hmd
    rcases hmd with hmd | hmd
    · rw [tableEntries_survivor hs.running.filed hwork hmd] at hxmd
      obtain ⟨hcat, hsurv⟩ := hs.running.filed.mem_survivors.mp hmd
      by_cases hbelow : topLevel < md.level
      · exact absurd hykey (hm.noneBelow md hcat hbelow y hyin x hxmd)
      · exact Nat.le_of_lt (hs.running.recent.levels md hcat i hi (by omega) y hyi x hxmd)
    · obtain ⟨hmerged, -⟩ := mem_output hs.running.filed hs.running.keyed hwork hmd hxmd
      exact (merged_newest hs.running hs.described hread hmerged).2 y hyin hykey
  · have hsurv := hs.running.filed.mem_survivors.mpr ⟨hi, hlevel⟩
    refine hx.2 y (mem_tableVersions.mpr ⟨i, ?_, ?_⟩) hykey
    · rw [compactLevel_survivors hwork]
      exact List.mem_append_left _ hsurv
    · rw [tableEntries_survivor hs.running.filed hwork hsurv]
      exact hyi

/-- A key that the compaction removes had no value. -/
theorem removed_has_no_value {x : KeyValuePair} (hx : Newest e.tableVersions x)
    (hgone : ∀ y ∈ (e.compactLevel fromLevel topLevel).tableVersions, y.key ≠ x.key) : shown x = none := by
  have hread := hm.readable hs
  obtain ⟨i, hi, hxi⟩ := mem_tableVersions.mp hx.1
  have hinput : i ∈ e.compactionInputs fromLevel topLevel := by
    by_contra hnot
    have hsurv : i ∈ e.survivors fromLevel topLevel := by
      refine hs.running.filed.mem_survivors.mpr ⟨hi, ?_⟩
      exact fun hlevel => hnot ((mem_compactionInputs e fromLevel topLevel i).mpr ⟨hi, hlevel⟩)
    refine hgone x (mem_tableVersions.mpr ⟨i, ?_, ?_⟩) rfl
    · rw [compactLevel_survivors hwork]
      exact List.mem_append_left _ hsurv
    · rw [tableEntries_survivor hs.running.filed hwork hsurv]
      exact hxi
  have hxin : x ∈ e.inputEntries fromLevel topLevel := mem_inputEntries.mpr ⟨i, hinput, hxi⟩
  have hxnewest : Newest (e.inputEntries fromLevel topLevel) x := by
    refine ⟨hxin, ?_⟩
    intro y hy
    obtain ⟨j, hj, hyj⟩ := mem_inputEntries.mp hy
    exact hx.2 y (mem_tableVersions.mpr ⟨j, ((mem_compactionInputs e fromLevel topLevel j).mp hj).1, hyj⟩)
  by_cases hlast : topLevel + 1 = Config.maxLevel
  · by_contra hlive
    obtain ⟨z, hz, hzkey⟩ := merged_last_complete hs.running hs.described hread hlast hxin
      fun w hw htomb => hm.reached hlast w hw.1 hw htomb x hxin hxnewest (Option.isSome_iff_ne_none.mpr hlive)
    exact hgone z (merged_in_tables hs hm hwork hz) hzkey
  · obtain ⟨z, hz, hzkey⟩ := merged_complete hs.running hs.described hread hlast hxin
    exact absurd hzkey (hgone z (merged_in_tables hs hm hwork hz))

end Compaction

theorem Answers.compacted (h : Answers ans e) (hs : Searchable e) {fromLevel topLevel : ℕ}
    (hm : e.nothingToCompact fromLevel topLevel = false → Mergeable e fromLevel topLevel) :
    Answers ans (e.compactLevel fromLevel topLevel) := by
  cases hwork : e.nothingToCompact fromLevel topLevel with
  | true =>
    rw [compactLevel_of_nothing e fromLevel topLevel hwork]
    exact h
  | false =>
    have hactive : (e.compactLevel fromLevel topLevel).activeMemtable = e.activeMemtable :=
      compactLevel_keeps Engine.activeMemtable e fromLevel topLevel fun _ _ _ _ _ _ => rfl
    refine ⟨?_, ?_, ?_⟩
    · rw [hactive]
      exact h.memtable
    · rw [hactive]
      exact fun x hx => h.tables x (newest_of_compacted hs (hm hwork) hwork hx)
    · rw [hactive]
      intro key hnone hgone
      by_cases hkey : ∃ x ∈ e.tableVersions, x.key = key
      · obtain ⟨x, hx, rfl⟩ := exists_newest_key hkey
        rw [← h.tables x hx fun y hy hykey => absurd hykey (hnone y hy.1)]
        exact removed_has_no_value hs (hm hwork) hwork hx hgone
      · refine h.absent key hnone ?_
        exact fun x hx hxkey => hkey ⟨x, hx, hxkey⟩

end Kvdb.Engine
