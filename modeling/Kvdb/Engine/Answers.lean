import Kvdb.Engine.Levels
import Kvdb.MemTable.Order

/-! # What the two phases of `Lookup` find

The memtable phase finds the newest version of the key in an ordered memtable. The SSTable phase finds
the newest version in the tables if the cache keys are distinct, every file is sorted and the tables
are searched from newer to older (`Searchable`). -/
namespace Kvdb.Engine
set_option autoImplicit false

open Kvdb.Compaction (Newest)
open Kvdb.Levels (Deep Newer)

/-! ## The memtable phase -/

theorem filter_key_newest {es : List KeyValuePair} (h : es.Pairwise Before) {key : Bytes} {x : KeyValuePair}
    {xs : List KeyValuePair} (hfilter : es.filter (fun y => decide (y.key = key)) = x :: xs) :
    x.key = key ∧ Newest es x := by
  have hx : x ∈ es.filter fun y => decide (y.key = key) := by
    rw [hfilter]
    exact List.mem_cons_self
  obtain ⟨hmem, hkey⟩ := List.mem_filter.mp hx
  have hxkey : x.key = key := of_decide_eq_true hkey
  refine ⟨hxkey, hmem, ?_⟩
  intro y hy hykey
  have hyfilter : y ∈ es.filter fun y => decide (y.key = key) :=
    List.mem_filter.mpr ⟨hy, decide_eq_true (hykey.trans hxkey)⟩
  have hsorted := h.sublist (List.filter_sublist (p := fun y => decide (y.key = key)))
  rw [hfilter] at hyfilter hsorted
  rcases List.mem_cons.mp hyfilter with rfl | hyxs
  · exact Nat.le_refl _
  · rcases (List.pairwise_cons.mp hsorted).1 y hyxs with hlt | ⟨-, hlt⟩
    · exact absurd hykey (ne_of_gt hlt)
    · exact Nat.le_of_lt hlt

/-- In an ordered memtable `Lookup` stops at the newest version of the key. -/
theorem lookupVersion_newest {m : MemTable} (ho : m.tree.Ordered) (hc : m.Clean) (key : Bytes) {readTs : ℕ}
    (hvis : ∀ x ∈ m.entries, x.timestamp ≤ readTs) :
    (∃ x, m.tree.lookupVersion key readTs = some x ∧ x.key = key ∧ Newest m.entries x) ∨
      (m.tree.lookupVersion key readTs = none ∧ ∀ x ∈ m.entries, x.key ≠ key) := by
  rw [BPlusTree.lookupVersion_eq ho.keyOrdered, hc.noAborted, versionsOf]
  cases hfilter : m.tree.entries.filter (fun x => decide (x.key = key)) with
  | nil =>
    refine .inr ⟨rfl, ?_⟩
    intro x hx hkey
    exact List.filter_eq_nil_iff.mp hfilter x hx (decide_eq_true hkey)
  | cons x xs =>
    obtain ⟨hkey, hnewest⟩ := filter_key_newest ho.pairwise hfilter
    refine .inl ⟨x, ?_, hkey, hnewest⟩
    rw [List.find?_cons_of_pos]
    simp [BPlusTree.visible, hvis x hnewest.1]

/-! ## The SSTable phase -/

structure Searchable (e : Engine) : Prop where
  running : Running e
  keyed : Keyed (fun _ => True) e
  described : Described e
  sorted : EachTable (fun _ f => f.Sorted) e
  ordered : Deep Newer e

/-- The versions in the tables. -/
def tableVersions (e : Engine) : List KeyValuePair := e.sstableMetadata.flatMap e.tableEntries

theorem mem_tableVersions {e : Engine} {x : KeyValuePair} :
    x ∈ e.tableVersions ↔ ∃ md ∈ e.sstableMetadata, x ∈ e.tableEntries md := List.mem_flatMap

/-- The test of a reader on a version. -/
def seen (key : Bytes) (readTs : ℕ) (x : KeyValuePair) : Bool :=
  decide (x.key = key) && decide (x.timestamp ≤ readTs)

theorem sorted_lookupIn {f : SSTableFile} (h : f.Sorted) (key : Bytes) (readTs seq : ℕ) :
    (lookupIn (some f) f.heavy key readTs seq none).1 = f.entries.find? (seen key readTs) := by
  refine Option.ext ?_
  intro x
  rw [h.lookupIn]
  constructor
  · rintro ⟨hx, hkey, hts⟩
    have hseen : seen key readTs x = true := by simp [seen, hkey, hts]
    have hsome : (f.entries.find? (seen key readTs)).isSome = true := List.find?_isSome.mpr ⟨x, hx, hseen⟩
    obtain ⟨y, hy⟩ := Option.isSome_iff_exists.mp hsome
    have hyseen := List.find?_some hy
    simp only [seen, Bool.and_eq_true, decide_eq_true_eq] at hyseen
    rw [hy, SSTableFile.Ascending.eq_of_key h.ascending (List.mem_of_find?_eq_some hy) hx
      (hyseen.1.trans hkey.symm)]
  · intro hx
    have hseen := List.find?_some hx
    simp only [seen, Bool.and_eq_true, decide_eq_true_eq] at hseen
    exact ⟨List.mem_of_find?_eq_some hx, hseen⟩

section Searchable

variable {e : Engine} (h : Searchable e)

include h

/-- A table that `Lookup` passes over does not hold the key. -/
theorem skips_find {md : Metadata} (hmd : md ∈ e.sstableMetadata) (key : Bytes) (readTs : ℕ)
    (hskip : skips [] key md = true) : (e.tableEntries md).find? (seen key readTs) = none := by
  obtain ⟨f, hfile⟩ := h.running.filed.files md hmd
  have hrec := h.described.tables md hmd f hfile
  have hsorted := h.sorted md hmd f hfile
  rw [tableEntries, hfile, Option.map_some, Option.getD_some, List.find?_eq_none]
  intro x hx hseen
  simp only [seen, Bool.and_eq_true, decide_eq_true_eq] at hseen
  obtain ⟨hmin, hmax⟩ := hsorted.range x hx
  have hrejects := hsorted.rejects x hx
  rw [hseen.1, ← hrec.minKey] at hmin
  rw [hseen.1, ← hrec.maxKey] at hmax
  rw [hseen.1, ← hrec.bloom] at hrejects
  simp only [skips, List.not_mem_nil, decide_false, Bool.false_or, Bool.or_eq_true, Bool.and_eq_true,
    decide_eq_true_eq, hrejects, Bool.false_eq_true, or_false] at hskip
  rcases hskip with ⟨-, hlt⟩ | ⟨-, hlt⟩
  · exact absurd hmin (not_le.mpr hlt)
  · exact absurd hmax (not_le.mpr hlt)

/-- `LookupKey` on a catalogued table finds what its file holds. -/
theorem lookupKey_table {md : Metadata} (hmd : md ∈ e.sstableMetadata) (key : Bytes) (readTs : ℕ)
    {cache : Option SSTableCache} (hc : CacheFor (fun _ => True) e cache) :
    ∃ cache', lookupKey (e.files md.filepath) key readTs cache md.manifestSeq =
        some ((e.tableEntries md).find? (seen key readTs), cache') ∧ CacheFor (fun _ => True) e cache' := by
  obtain ⟨f, hfile⟩ := h.running.filed.files md hmd
  have hfind : (lookupIn (some f) f.heavy key readTs md.manifestSeq none).1 =
      (e.tableEntries md).find? (seen key readTs) := by
    rw [sorted_lookupIn (h.sorted md hmd f hfile), tableEntries, hfile]
    rfl
  have hlookup : ∃ cache', lookupKey (some f) key readTs cache md.manifestSeq =
      some ((e.tableEntries md).find? (seen key readTs), cache') := by
    rw [← hfind]
    cases cache with
    | none => exact ⟨_, lookupKey_none f key readTs md.manifestSeq⟩
    | some c =>
      obtain ⟨c', heq, -⟩ := lookupKey_agrees key readTs (hc.agrees c rfl md hmd trivial f hfile)
      exact ⟨_, heq⟩
  obtain ⟨cache', heq⟩ := hlookup
  rw [hfile]
  exact ⟨cache', heq, CacheFor.lookupKey h.keyed hc hmd hfile heq⟩

theorem probeTables_eq (key : Bytes) (readTs : ℕ) (mds : List Metadata) (hmds : ∀ md ∈ mds, md ∈ e.sstableMetadata)
    {cache : Option SSTableCache} (hc : CacheFor (fun _ => True) e cache) :
    (probeTables e.files [] key readTs mds cache).1 =
      mds.findSome? fun md => (e.tableEntries md).find? (seen key readTs) := by
  induction mds generalizing cache with
  | nil => rfl
  | cons md mds ih =>
    have hmd := hmds md List.mem_cons_self
    have hrest := fun md' hmd' => hmds md' (List.mem_cons_of_mem md hmd')
    rw [List.findSome?_cons]
    unfold probeTables
    split
    · next hskip =>
      rw [skips_find h hmd key readTs hskip]
      exact ih hrest hc
    · obtain ⟨cache', heq, hc'⟩ := lookupKey_table h hmd key readTs hc
      rw [heq]
      cases hfound : (e.tableEntries md).find? (seen key readTs) with
      | none => exact ih hrest hc'
      | some x => rfl

/-- With no memtable waiting, the SSTable phase finds the newest version in the tables. -/
theorem probeSSTables_newest (hidle : e.frozenMemtables = []) (key : Bytes) :
    (∃ x, (e.probeSSTables key e.globalTs).1 = some x ∧ x.key = key ∧ Newest e.tableVersions x) ∨
      ((e.probeSSTables key e.globalTs).1 = none ∧ ∀ x ∈ e.tableVersions, x.key ≠ key) := by
  have hprobe : (e.probeSSTables key e.globalTs).1 =
      (lookupOrder e.sstableMetadata).findSome? fun md => (e.tableEntries md).find? (seen key e.globalTs) := by
    rw [probeSSTables, hidle]
    exact probeTables_eq h key e.globalTs _ (fun md hmd => mem_lookupOrder.mp hmd) h.keyed.cacheFor
  have hseen : ∀ md ∈ e.sstableMetadata, ∀ x ∈ e.tableEntries md, x.key = key → seen key e.globalTs x = true := by
    intro md hmd x hx hkey
    simp [seen, hkey, h.running.recent.tablesVisible md hmd x hx]
  rw [hprobe]
  cases hfound : (lookupOrder e.sstableMetadata).findSome?
      fun md => (e.tableEntries md).find? (seen key e.globalTs) with
  | none =>
    refine .inr ⟨rfl, ?_⟩
    intro x hx hkey
    obtain ⟨md, hmd, hx⟩ := mem_tableVersions.mp hx
    have hnone := List.findSome?_eq_none_iff.mp hfound md (mem_lookupOrder.mpr hmd)
    exact List.find?_eq_none.mp hnone x hx (hseen md hmd x hx hkey)
  | some x =>
    obtain ⟨before, md, after, hsplit, hfind, hbefore⟩ := List.findSome?_eq_some_iff.mp hfound
    have hmd : md ∈ e.sstableMetadata := by
      rw [← mem_lookupOrder, hsplit]
      exact List.mem_append_right _ List.mem_cons_self
    have hx := List.mem_of_find?_eq_some hfind
    have hxseen := List.find?_some hfind
    simp only [seen, Bool.and_eq_true, decide_eq_true_eq] at hxseen
    refine .inl ⟨x, rfl, hxseen.1, mem_tableVersions.mpr ⟨md, hmd, hx⟩, ?_⟩
    intro y hy hykey
    obtain ⟨md', hmd', hy⟩ := mem_tableVersions.mp hy
    have hkey : y.key = key := hykey.trans hxseen.1
    have hpair := Levels.lookupOrder_newer h.running.recent h.ordered
    rw [hsplit, List.pairwise_append, List.pairwise_cons] at hpair
    have hmem := mem_lookupOrder.mpr hmd'
    rw [hsplit, List.mem_append, List.mem_cons] at hmem
    rcases hmem with hmem | rfl | hmem
    · exact absurd (hseen md' hmd' y hy hkey) (List.find?_eq_none.mp (hbefore md' hmem) y hy)
    · obtain ⟨f, hfile⟩ := h.running.filed.files md' hmd'
      have hentries : e.tableEntries md' = f.entries := by
        rw [tableEntries, hfile]
        rfl
      rw [hentries] at hx hy
      rw [SSTableFile.Ascending.eq_of_key (h.sorted md' hmd' f hfile).ascending hy hx hykey]
    · exact Nat.le_of_lt (hpair.2.1.1 md' hmem x hx y hy hykey.symm)

end Searchable

end Kvdb.Engine
