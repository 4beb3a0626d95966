import Kvdb.Engine.Serving
import Kvdb.Lib.ReadOrder

/-! # The column of a key

`Lookup` reads a key from the active memtable, the frozen ones from the newest on and the tables in the
order of the catalogue. Each of them is a source with the versions of the key that its own aborted set
leaves. A memtable lets a tombstone fall through, a table does not. -/
namespace Kvdb.Engine
set_option autoImplicit false

open Kvdb.ReadOrder (Source answer top Tight)

/-- The versions of a key that a set of aborted batches leaves. -/
def stackOf (aborted : List ℕ) (key : Bytes) (es : List KeyValuePair) : List KeyValuePair :=
  (versionsOf key es).filter fun x => !decide (x.timestamp ∈ aborted)

/-- The test of a reader on the timestamp of a version. -/
def visAt (readTs : ℕ) (x : KeyValuePair) : Bool := decide (x.timestamp ≤ readTs)

def memtableStack (key : Bytes) (m : MemTable) : Source KeyValuePair :=
  ⟨true, stackOf m.tree.abortedBatchTs key m.entries⟩

/-- A read goes by the aborted set in the file, not by that of the catalogue. -/
def tableStack (e : Engine) (key : Bytes) (md : Metadata) : Source KeyValuePair :=
  ⟨false, ((e.files md.filepath).map fun f => stackOf f.abortedBatchTs key f.entries).getD []⟩

/-- The versions of a memtable that are not aborted. -/
def liveEntries (m : MemTable) : List KeyValuePair :=
  m.entries.filter fun x => !decide (x.timestamp ∈ m.tree.abortedBatchTs)

/-- The memtables from the newest on; `flight` is the one that the flush worker has taken off the queue. -/
def memtableOrder (e : Engine) (flight : Option MemTable) : List MemTable :=
  e.activeMemtable :: e.frozenMemtables.reverse ++ flight.toList

def tableColumn (e : Engine) (key : Bytes) : List (Source KeyValuePair) :=
  (lookupOrder e.sstableMetadata).map (e.tableStack key)

def column (e : Engine) (flight : Option MemTable) (key : Bytes) : List (Source KeyValuePair) :=
  (e.memtableOrder flight).map (memtableStack key) ++ e.tableColumn key

/-- The sources behind the active memtable. -/
def columnTail (e : Engine) (flight : Option MemTable) (key : Bytes) : List (Source KeyValuePair) :=
  (e.frozenMemtables.reverse ++ flight.toList).map (memtableStack key) ++ e.tableColumn key

/-- What a read of the column answers. -/
def columnAnswer (readTs : ℕ) (sources : List (Source KeyValuePair)) : Option Bytes :=
  answer KeyValuePair.isTombstone shown (visAt readTs) sources

/-- The catalogue record describes the file. -/
structure Labelled (md : Metadata) (f : SSTableFile) : Prop where
  arranged : f.Arranged
  minKey : md.minKey = f.minKey
  maxKey : md.maxKey = f.maxKey
  bloom : md.bloom = f.bloom

/-- What makes the read path find the column. -/
structure Searched (e : Engine) : Prop where
  filed : Filed e
  keyed : Keyed (fun _ => True) e
  labelled : EachTable Labelled e
  memtables : EachMemtable (fun m => m.tree.KeyOrdered) e
  unscanned : ∀ md ∈ e.sstableMetadata, ∀ m ∈ e.frozenMemtables, md.sourceTableId ≠ m.id

/-! ## The sources -/

theorem mem_stackOf {aborted : List ℕ} {key : Bytes} {es : List KeyValuePair} {x : KeyValuePair} :
    x ∈ stackOf aborted key es ↔ x ∈ es ∧ x.key = key ∧ x.timestamp ∉ aborted := by
  simp only [stackOf, List.mem_filter, mem_versionsOf, Bool.not_eq_true', decide_eq_false_iff_not, and_assoc]

theorem find?_visible (aborted : List ℕ) (readTs : ℕ) (key : Bytes) (es : List KeyValuePair) :
    (versionsOf key es).find? (BPlusTree.visible aborted readTs) =
      (stackOf aborted key es).find? (visAt readTs) := by
  rw [stackOf, List.find?_filter]
  congr 1
  funext x
  simp [BPlusTree.visible, visAt]

theorem shown_marker (x : KeyValuePair) (h : x.isTombstone = true) : shown x = none := by
  rw [shown, h]
  rfl

theorem shownValue_valueOf (x : KeyValuePair) : shownValue (valueOf x) = shown x := by
  unfold valueOf shown
  split
  · rfl
  · rfl

theorem column_eq (e : Engine) (flight : Option MemTable) (key : Bytes) :
    e.column flight key = memtableStack key e.activeMemtable :: e.columnTail flight key := rfl

theorem tableColumn_congr {e e' : Engine} (hcat : e'.sstableMetadata = e.sstableMetadata)
    (hfiles : ∀ md ∈ e.sstableMetadata, e'.files md.filepath = e.files md.filepath) (key : Bytes) :
    e'.tableColumn key = e.tableColumn key := by
  rw [tableColumn, tableColumn, hcat]
  refine List.map_congr_left ?_
  intro md hmd
  rw [tableStack, tableStack, hfiles md (mem_lookupOrder.mp hmd)]

theorem columnTail_congr {e e' : Engine} (hfrozen : e'.frozenMemtables = e.frozenMemtables)
    (hcat : e'.sstableMetadata = e.sstableMetadata)
    (hfiles : ∀ md ∈ e.sstableMetadata, e'.files md.filepath = e.files md.filepath) (flight : Option MemTable)
    (key : Bytes) : e'.columnTail flight key = e.columnTail flight key := by
  rw [columnTail, columnTail, hfrozen, tableColumn_congr hcat hfiles]

theorem column_rotate (e : Engine) (flight : Option MemTable) (key : Bytes) :
    e.rotate.column flight key = ⟨true, []⟩ :: e.column flight key := by
  have htables : e.rotate.tableColumn key = e.tableColumn key := tableColumn_congr rfl (fun _ _ => rfl) key
  have hfrozen : e.rotate.frozenMemtables.reverse = e.activeMemtable.freeze :: e.frozenMemtables.reverse := by
    simp [rotate]
  rw [column_eq, columnTail, htables, hfrozen]
  rfl

/-- An insertion pushes the version on the stack of its key. -/
theorem memtableStack_insert {m : MemTable} (h : m.tree.KeyOrdered) (hfrozen : m.frozen = false) {w : KeyValuePair}
    (hplaced : m.tree.Placed w) (hlive : w.timestamp ∉ m.tree.abortedBatchTs) (key : Bytes) :
    memtableStack key (m.insert w.key w.value w.timestamp w.isTombstone) =
      if w.key = key then ⟨true, w :: (memtableStack key m).versions⟩ else memtableStack key m := by
  have hinsert : m.insert w.key w.value w.timestamp w.isTombstone = { m with tree := m.tree.insert w } := by
    rw [MemTable.insert, hfrozen]
    rfl
  have hversions : versionsOf key (m.tree.insert w).entries =
      if w.key = key then w :: versionsOf key m.tree.entries else versionsOf key m.tree.entries :=
    BPlusTree.versionsOf_insert h hplaced key
  rw [hinsert, memtableStack, stackOf, MemTable.entries, hversions]
  by_cases hkey : w.key = key
  · rw [if_pos hkey, if_pos hkey, List.filter_cons_of_pos (by simp [hlive])]
    rfl
  · rw [if_neg hkey, if_neg hkey]
    rfl

theorem column_push {e e' : Engine} {flight : Option MemTable} (h : e.activeMemtable.tree.KeyOrdered)
    (hfrozen : e.activeMemtable.frozen = false) {w : KeyValuePair} (hplaced : e.activeMemtable.tree.Placed w)
    (hlive : w.timestamp ∉ e.activeMemtable.tree.abortedBatchTs)
    (hactive : e'.activeMemtable = e.activeMemtable.insert w.key w.value w.timestamp w.isTombstone)
    (hqueue : e'.frozenMemtables = e.frozenMemtables) (hcat : e'.sstableMetadata = e.sstableMetadata)
    (hfiles : e'.files = e.files) (key : Bytes) :
    e'.column flight key =
      if w.key = key then ⟨true, w :: (memtableStack key e.activeMemtable).versions⟩ :: e.columnTail flight key
      else e.column flight key := by
  rw [column_eq, column_eq, hactive, memtableStack_insert h hfrozen hplaced hlive,
    columnTail_congr hqueue hcat fun md _ => congrFun hfiles md.filepath]
  by_cases hkey : w.key = key
  · rw [if_pos hkey, if_pos hkey]
  · rw [if_neg hkey, if_neg hkey]

/-- A table that a flush adds is searched before the others. -/
theorem lookupOrder_append {catalogue : List Metadata} {md : Metadata} (hlevel : md.level = 0) :
    lookupOrder (catalogue ++ [md]) = md :: lookupOrder catalogue := by
  simp [lookupOrder, hlevel]

theorem lookupOrder_map {g : Metadata → Metadata} (hg : ∀ md, (g md).level = md.level) (catalogue : List Metadata) :
    lookupOrder (catalogue.map g) = (lookupOrder catalogue).map g := by
  simp only [lookupOrder, ← List.map_reverse, List.filter_map, List.map_append]
  congr 2
  · congr 1
    funext md
    simp [hg]
  · congr 1
    funext md
    simp [hg]

/-! ## A flush -/

theorem versionsOf_liveEntries (key : Bytes) (m : MemTable) :
    versionsOf key (liveEntries m) = (memtableStack key m).versions := by
  simp only [versionsOf, liveEntries, memtableStack, stackOf, List.filter_filter]
  congr 1
  funext x
  exact Bool.and_comm _ _

section Flush

variable {m : MemTable} (h : m.tree.KeyOrdered)
  (hsorted : ∀ key, (memtableStack key m).versions.Pairwise fun a b => b.timestamp ≤ a.timestamp)
  (hwalk : m.tree.memTableWalk = liveEntries m)

include h hsorted hwalk

theorem walk_descending : m.tree.memTableWalk.Pairwise SSTableFile.Descending := by
  rw [hwalk]
  refine pairwise_versions (h.pairwise.filter _) ?_
  intro key
  rw [versionsOf_liveEntries]
  exact hsorted key

/-- The file of a flush keeps the top of each stack. -/
theorem flushFile_stack (e : Engine) (hkeys : ∀ x ∈ m.entries, x.key ≠ []) (key : Bytes) :
    stackOf (e.flushFile m).abortedBatchTs key (e.flushFile m).entries =
      (memtableStack key m).versions.head?.toList := by
  obtain ⟨-, hne, hheads⟩ := SSTableFile.flushEntries_heads _ (walk_descending h hsorted hwalk)
  have hentries : (e.flushFile m).entries = SSTableFile.flushEntries m.tree.memTableWalk :=
    SSTableFile.entries_writeFromWalk _ _ _ _
  by_cases hkey : key = []
  · have hmem : (memtableStack key m).versions = [] := by
      refine List.eq_nil_iff_forall_not_mem.mpr ?_
      intro x hx
      obtain ⟨hx, hxkey, -⟩ := mem_stackOf.mp hx
      exact hkeys x hx (hxkey.trans hkey)
    rw [hmem, stackOf, hentries, versionsOf_eq_nil fun x hx hxkey => hne x hx (hxkey.trans hkey)]
    rfl
  · rw [stackOf, hentries, hheads key hkey, hwalk, versionsOf_liveEntries]
    refine List.filter_eq_self.mpr ?_
    intro x hx
    have hx : x ∈ (memtableStack key m).versions := List.mem_of_mem_head? (Option.mem_toList.mp hx)
    have hlive : x.timestamp ∉ (e.flushFile m).abortedBatchTs := (mem_stackOf.mp hx).2.2
    simpa using hlive

end Flush

theorem tableColumn_afterFlush {e : Engine} (hf : Filed e) {m : MemTable} {md : Metadata} {cache : Option SSTableCache}
    (hmd : Flushed e m md cache) (key : Bytes) :
    (e.afterFlush m md cache).tableColumn key =
      ⟨false, stackOf (e.flushFile m).abortedBatchTs key (e.flushFile m).entries⟩ :: e.tableColumn key := by
  have hnew : (e.afterFlush m md cache).files md.filepath = some (e.flushFile m) := if_pos hmd.filepath
  have hcat : (e.afterFlush m md cache).sstableMetadata = e.sstableMetadata ++ [md] := rfl
  rw [tableColumn, hcat, lookupOrder_append hmd.level, List.map_cons, tableStack, hnew]
  refine congrArg _ (List.map_congr_left ?_)
  intro md' hmd'
  have hold : (e.afterFlush m md cache).files md'.filepath = e.files md'.filepath :=
    if_neg (Nat.ne_of_lt (hf.below md' (mem_lookupOrder.mp hmd')))
  rw [tableStack, tableStack, hold]

/-! ## The memtable phase -/

theorem columnAnswer_memtable {m : MemTable} (h : m.tree.KeyOrdered) (key : Bytes) (readTs : ℕ)
    (rest : List (Source KeyValuePair)) :
    columnAnswer readTs (memtableStack key m :: rest) =
      match m.lookup key readTs with
      | some v => shownValue v
      | none => columnAnswer readTs rest := by
  have hfind : (memtableStack key m).versions.find? (visAt readTs) = m.tree.lookupVersion key readTs := by
    rw [BPlusTree.lookupVersion_eq h, find?_visible]
    rfl
  rw [columnAnswer, answer, hfind, MemTable.lookup, BPlusTree.lookup]
  cases m.tree.lookupVersion key readTs with
  | none => rfl
  | some x =>
    simp only [memtableStack, Bool.true_and]
    by_cases htomb : x.isTombstone = true
    · rw [if_pos htomb, if_pos htomb]
      rfl
    · rw [if_neg htomb, if_neg htomb, shown, if_neg htomb]

theorem columnAnswer_memtables {ms : List MemTable} (h : ∀ m ∈ ms, m.tree.KeyOrdered) (key : Bytes) (readTs : ℕ)
    (rest : List (Source KeyValuePair)) :
    columnAnswer readTs (ms.map (memtableStack key) ++ rest) =
      match ms.findSome? fun m => m.lookup key readTs with
      | some v => shownValue v
      | none => columnAnswer readTs rest := by
  induction ms with
  | nil => rfl
  | cons m ms ih =>
    have hrest := ih fun m' hm' => h m' (List.mem_cons_of_mem m hm')
    rw [List.map_cons, List.cons_append, columnAnswer_memtable (h m List.mem_cons_self), List.findSome?_cons]
    cases m.lookup key readTs with
    | none => exact hrest
    | some v => rfl

/-! ## The SSTable phase -/

section Searched

variable {e : Engine} (h : Searched e)

include h

/-- A table that `Lookup` passes over for its range or its filter holds no version of the key. -/
theorem tableStack_of_skips {md : Metadata} (hmd : md ∈ e.sstableMetadata) {scanned : List ℕ} {key : Bytes}
    (hscanned : md.sourceTableId ∉ scanned) (hskip : skips scanned key md = true) :
    (e.tableStack key md).versions = [] := by
  obtain ⟨f, hfile⟩ := h.filed.files md hmd
  have hlabel := h.labelled md hmd f hfile
  rw [tableStack, hfile, Option.map_some, Option.getD_some, List.eq_nil_iff_forall_not_mem]
  intro x hx
  obtain ⟨hx, hkey, -⟩ := mem_stackOf.mp hx
  obtain ⟨hmin, hmax⟩ := hlabel.arranged.range x hx
  have hrejects := hlabel.arranged.rejects x hx
  rw [hkey, ← hlabel.minKey] at hmin
  rw [hkey, ← hlabel.maxKey] at hmax
  rw [hkey, ← hlabel.bloom] at hrejects
  simp only [skips, hscanned, decide_false, Bool.false_or, Bool.or_eq_true, Bool.and_eq_true,
    decide_eq_true_eq, hrejects, Bool.false_eq_true, or_false] at hskip
  rcases hskip with ⟨-, hlt⟩ | ⟨-, hlt⟩
  · exact absurd hmin (not_le.mpr hlt)
  · exact absurd hmax (not_le.mpr hlt)

theorem lookupKey_tableStack {md : Metadata} (hmd : md ∈ e.sstableMetadata) (key : Bytes) (readTs : ℕ)
    {cache : Option SSTableCache} (hc : CacheFor (fun _ => True) e cache) :
    ∃ cache', lookupKey (e.files md.filepath) key readTs cache md.manifestSeq =
        some ((e.tableStack key md).versions.find? (visAt readTs), cache') ∧
      CacheFor (fun _ => True) e cache' := by
  obtain ⟨f, hfile⟩ := h.filed.files md hmd
  have hfind : (lookupIn (some f) f.heavy key readTs md.manifestSeq none).1 =
      (e.tableStack key md).versions.find? (visAt readTs) := by
    rw [(h.labelled md hmd f hfile).arranged.lookupIn_eq, find?_visible, tableStack, hfile]
    rfl
  have hlookup : ∃ cache', lookupKey (some f) key readTs cache md.manifestSeq =
      some ((e.tableStack key md).versions.find? (visAt readTs), cache') := by
    rw [← hfind]
    cases cache with
    | none => exact ⟨_, lookupKey_none f key readTs md.manifestSeq⟩
    | some c =>
      obtain ⟨c', heq, -⟩ := lookupKey_agrees key readTs (hc.agrees c rfl md hmd trivial f hfile)
      exact ⟨_, heq⟩
  obtain ⟨cache', heq⟩ := hlookup
  rw [hfile]
  exact ⟨cache', heq, CacheFor.lookupKey h.keyed hc hmd hfile heq⟩

theorem columnAnswer_tables {scanned : List ℕ} (key : Bytes) (readTs : ℕ) (mds : List Metadata)
    (hmds : ∀ md ∈ mds, md ∈ e.sstableMetadata) (hscanned : ∀ md ∈ mds, md.sourceTableId ∉ scanned)
    {cache : Option SSTableCache} (hc : CacheFor (fun _ => True) e cache) :
    columnAnswer readTs (mds.map (e.tableStack key)) =
      (probeTables e.files scanned key readTs mds cache).1.bind shown := by
  induction mds generalizing cache with
  | nil => rfl
  | cons md mds ih =>
    have hmd := hmds md List.mem_cons_self
    have hmds' : ∀ md' ∈ mds, md' ∈ e.sstableMetadata := fun md' hmd' => hmds md' (List.mem_cons_of_mem md hmd')
    have hscanned' : ∀ md' ∈ mds, md'.sourceTableId ∉ scanned :=
      fun md' hmd' => hscanned md' (List.mem_cons_of_mem md hmd')
    rw [List.map_cons, columnAnswer, answer]
    unfold probeTables
    by_cases hskip : skips scanned key md = true
    · rw [if_pos hskip, tableStack_of_skips h hmd (hscanned md List.mem_cons_self) hskip]
      exact ih hmds' hscanned' hc
    · obtain ⟨cache', heq, hc'⟩ := lookupKey_tableStack h hmd key readTs hc
      rw [if_neg hskip, heq]
      cases (e.tableStack key md).versions.find? (visAt readTs) with
      | none => exact ih hmds' hscanned' hc'
      | some x => rfl

/-- `Lookup` after a miss in the key-value cache reads the column. -/
theorem lookupUncached_column (key : Bytes) (readTs : ℕ) :
    (e.lookupUncached key readTs).1.bind shownValue = columnAnswer readTs (e.column none key) := by
  have hordered : ∀ m ∈ e.memtableOrder none, m.tree.KeyOrdered := by
    intro m hm
    refine h.memtables m ?_
    simpa [memtableOrder, memtables, or_comm] using hm
  have htables : columnAnswer readTs (e.tableColumn key) = (e.probeSSTables key readTs).1.bind shown := by
    refine columnAnswer_tables h key readTs _ (fun md hmd => mem_lookupOrder.mp hmd) ?_ h.keyed.cacheFor
    intro md hmd hid
    obtain ⟨m, hm, hmid⟩ := List.mem_map.mp hid
    exact h.unscanned md (mem_lookupOrder.mp hmd) m hm hmid.symm
  have hprobe : ((e.memtableOrder none).findSome? fun m => m.lookup key readTs) = e.probeMemtables key readTs := by
    rw [memtableOrder, Option.toList_none, List.append_nil]
    rfl
  rw [column, columnAnswer_memtables hordered, hprobe, htables, lookupUncached]
  cases e.probeMemtables key readTs with
  | some v => rfl
  | none =>
    simp only []
    cases (e.probeSSTables key readTs).1 with
    | none => rfl
    | some x => exact shownValue_valueOf x

end Searched

end Kvdb.Engine
