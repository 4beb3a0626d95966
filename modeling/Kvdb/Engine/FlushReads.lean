import Kvdb.Engine.Recovery
import Kvdb.SSTable.VersionOrder

/-! # Reading a memtable and the table it is flushed to (`LSMTreeEngine::DoFlush`)

A flush writes one version of each key, the newest that the walk yields, whatever its timestamp. A reader whose `read_ts`
is below that version, as one is while a batch is open, finds an older version in the memtable and none in the table. -/
namespace Kvdb
set_option autoImplicit false

open BPlusTree (live mem_live)
open SSTableFile (NewestAt Descending)

namespace MemTable

/-- The live versions of a key, from the newest to the oldest. -/
def liveOf (m : MemTable) (key : Bytes) : List KeyValuePair := live m.tree.abortedBatchTs (versionsOf key m.entries)

/-- The leaf chain is in order: by key, and the versions of a key from the newest to the oldest. -/
structure InOrder (m : MemTable) : Prop where
  keys : m.tree.KeyOrdered
  versions : m.entries.Pairwise Descending

variable {m : MemTable} {key : Bytes} {readTs : ℕ}

theorem mem_liveOf {x : KeyValuePair} : x ∈ m.liveOf key ↔ x ∈ m.entries ∧ x.key = key ∧ x.timestamp ∉ m.tree.abortedBatchTs := by
  rw [liveOf, mem_live, mem_versionsOf, and_assoc]

theorem find?_visible (m : MemTable) (key : Bytes) (readTs : ℕ) :
    (versionsOf key m.entries).find? (BPlusTree.visible m.tree.abortedBatchTs readTs) =
      (m.liveOf key).find? fun e => decide (e.timestamp ≤ readTs) := by
  rw [liveOf, live, List.find?_filter]
  congr 1
  funext x
  simp only [BPlusTree.visible, Bool.decide_and, Bool.decide_eq_true]

theorem InOrder.liveOf_pairwise (h : m.InOrder) (key : Bytes) :
    (m.liveOf key).Pairwise fun a b => b.timestamp ≤ a.timestamp := by
  have hsub : (m.liveOf key).Sublist m.entries := List.filter_sublist.trans List.filter_sublist
  refine (List.Pairwise.and_mem.mp (h.versions.sublist hsub)).imp ?_
  rintro a b ⟨ha, hb, hlt | heq⟩
  · exact absurd ((mem_liveOf.mp ha).2.1.trans (mem_liveOf.mp hb).2.1.symm) (ne_of_lt hlt)
  · exact heq.2

/-- The read of the memtable: the first live version up to `read_ts`, which is the newest one. -/
theorem InOrder.lookupVersion (h : m.InOrder) (key : Bytes) (readTs : ℕ) :
    m.tree.lookupVersion key readTs = (m.liveOf key).find? (fun e => decide (e.timestamp ≤ readTs)) ∧
      NewestAt (m.liveOf key) readTs (m.tree.lookupVersion key readTs) := by
  have hread : m.tree.lookupVersion key readTs = (m.liveOf key).find? fun e => decide (e.timestamp ≤ readTs) := by
    rw [BPlusTree.lookupVersion_eq h.keys]
    exact m.find?_visible key readTs
  refine ⟨hread, ?_⟩
  rw [hread]
  cases hfind : (m.liveOf key).find? fun e => decide (e.timestamp ≤ readTs) with
  | none =>
    intro y hy
    simpa using List.find?_eq_none.mp hfind y hy
  | some x =>
    obtain ⟨hx, before, after, hsplit, hbefore⟩ := List.find?_eq_some_iff_append.mp hfind
    have hmem : x ∈ m.liveOf key := List.mem_of_find?_eq_some hfind
    refine ⟨hmem, by simpa using hx, fun y hy hle => ?_⟩
    rw [hsplit] at hy
    rcases List.mem_append.mp hy with hy | hy
    · have hnot := hbefore y hy
      simp [hle] at hnot
    · have hpair := h.liveOf_pairwise key
      rw [hsplit] at hpair
      rcases List.mem_cons.mp hy with rfl | hy
      · exact Nat.le_refl _
      · exact (List.pairwise_cons.mp (List.pairwise_append.mp hpair).2.1).1 y hy

/-- What a flush may collapse at `globalTs`: of each key that has a live version, the newest one is the first that the
walk yields, and no reader needs an older one. -/
def Collapsible (m : MemTable) (globalTs : ℕ) : Prop :=
  ∀ key, ∀ newest ∈ (m.liveOf key).head?,
    key ≠ [] ∧ (versionsOf key m.tree.memTableWalk).head? = some newest ∧
      (newest.timestamp ≤ globalTs ∨ ∀ y ∈ m.liveOf key, y.timestamp = newest.timestamp)

end MemTable

namespace Engine

variable {e : Engine} {m : MemTable} {key : Bytes} {readTs seq : ℕ} {cache : Option SSTableCache}

theorem walk_inOrder (h : m.InOrder) : m.tree.memTableWalk.Pairwise Descending :=
  h.versions.sublist (BPlusTree.memTableWalk_sublist m.tree)

/-- The read of the table: the first version that the walk yields, if it is visible. -/
theorem flushFile_lookupKey (h : m.InOrder) (hcache : (e.flushFile m).Cached seq cache) (key : Bytes) (readTs : ℕ) :
    ∃ cache', lookupKey (some (e.flushFile m)) key readTs cache seq =
      some ((if key = [] then none else (versionsOf key m.tree.memTableWalk).head?).filter
        (BPlusTree.visible m.tree.abortedBatchTs readTs), cache') := by
  have harranged : (e.flushFile m).Arranged := SSTableFile.writeFromWalk_arranged _ _ _ (walk_inOrder h)
  obtain ⟨cache', hlookup⟩ := hcache.lookupKey harranged.rejects key readTs
  obtain ⟨-, hkeys, hheads⟩ := SSTableFile.flushEntries_heads _ (walk_inOrder h)
  have hentries : (e.flushFile m).entries = SSTableFile.flushEntries m.tree.memTableWalk :=
    SSTableFile.entries_writeFromWalk _ _ _ _
  have hread := (SSTableFile.cached_none (e.flushFile m) seq).lookupIn harranged.rejects key readTs
  rw [harranged.lookupIn_eq, hentries] at hread
  rw [hlookup, ← hread]
  refine ⟨cache', congrArg some (Prod.ext ?_ rfl)⟩
  show (versionsOf key (SSTableFile.flushEntries m.tree.memTableWalk)).find?
    (BPlusTree.visible m.tree.abortedBatchTs readTs) = _
  by_cases hkey : key = []
  · rw [if_pos hkey, versionsOf_eq_nil fun x hx heq => hkeys x hx (heq.trans hkey)]
    rfl
  · rw [if_neg hkey, hheads key hkey]
    cases (versionsOf key m.tree.memTableWalk).head? with
    | none => rfl
    | some x =>
      rw [Option.toList_some, List.find?_singleton, Option.filter_some]

/-- Each key reads the same from the table as from the memtable, at every `read_ts` from `globalTs` on, if and only if
the flush may collapse the versions. -/
theorem flushFile_reads_alike_iff (e : Engine) (m : MemTable) (h : m.InOrder) (globalTs seq : ℕ)
    (cache : Option SSTableCache) (hcache : (e.flushFile m).Cached seq cache) :
    (∀ key readTs, globalTs ≤ readTs → ∃ r, lookupKey (some (e.flushFile m)) key readTs cache seq = some r ∧
        r.1 = m.tree.lookupVersion key readTs ∧ NewestAt (m.liveOf key) readTs r.1) ↔ m.Collapsible globalTs := by
  -- the property as an equation between the two searches
  have hprop : ∀ key readTs, (∃ r, lookupKey (some (e.flushFile m)) key readTs cache seq = some r ∧
      r.1 = m.tree.lookupVersion key readTs ∧ NewestAt (m.liveOf key) readTs r.1) ↔
      (if key = [] then none else (versionsOf key m.tree.memTableWalk).head?).filter
        (BPlusTree.visible m.tree.abortedBatchTs readTs) =
      (m.liveOf key).find? fun e => decide (e.timestamp ≤ readTs) := by
    intro key readTs
    obtain ⟨hmem, hnewest⟩ := h.lookupVersion key readTs
    obtain ⟨cache', hlookup⟩ := flushFile_lookupKey h hcache key readTs
    rw [hlookup, ← hmem]
    refine ⟨?_, fun heq => ⟨_, rfl, heq, ?_⟩⟩
    · rintro ⟨r, hr, heq, -⟩
      cases hr
      exact heq
    · show NewestAt (m.liveOf key) readTs (Option.filter _ _)
      rw [heq]
      exact hnewest
  refine ⟨fun hall key newest hhead => ?_, fun hcollapse key readTs hts => ?_⟩
  · obtain ⟨older, hlive⟩ : ∃ older, m.liveOf key = newest :: older := List.head?_eq_some_iff.mp hhead
    have hat := (hprop key (max globalTs newest.timestamp)).mp (hall key _ (Nat.le_max_left _ _))
    rw [hlive, List.find?_cons_of_pos (by simp)] at hat
    obtain ⟨hfirst, hvis⟩ := Option.filter_eq_some_iff.mp hat
    have hkey : key ≠ [] := by
      intro hnil
      rw [if_pos hnil] at hfirst
      cases hfirst
    rw [if_neg hkey] at hfirst
    refine ⟨hkey, hfirst, ?_⟩
    by_contra hnot
    rw [not_or, Classical.not_forall] at hnot
    obtain ⟨hgt, y, hy⟩ := hnot
    obtain ⟨hymem, hyne⟩ := Classical.not_imp.mp hy
    have hyle : y.timestamp ≤ newest.timestamp := by
      have hpair := h.liveOf_pairwise key
      rw [hlive] at hpair hymem
      rcases List.mem_cons.mp hymem with rfl | hymem
      · exact Nat.le_refl _
      · exact (List.pairwise_cons.mp hpair).1 y hymem
    -- a reader just below the newest version
    have hbelow := (hprop key (newest.timestamp - 1)).mp (hall key _ (by omega))
    rw [if_neg hkey, hfirst, Option.filter_some, if_neg (by simp [BPlusTree.visible]; omega)] at hbelow
    have hmissed := List.find?_eq_none.mp hbelow.symm y hymem
    rw [decide_eq_true_eq] at hmissed
    omega
  · refine (hprop key readTs).mpr ?_
    cases hlive : m.liveOf key with
    | nil =>
      have hnone : ∀ x ∈ versionsOf key m.tree.memTableWalk, x.timestamp ∈ m.tree.abortedBatchTs := by
        intro x hx
        obtain ⟨hxmem, hxkey⟩ := mem_versionsOf.mp hx
        have hin := (BPlusTree.memTableWalk_sublist m.tree).subset hxmem
        by_contra hnot
        have hmem : x ∈ m.liveOf key := MemTable.mem_liveOf.mpr ⟨hin, hxkey, hnot⟩
        rw [hlive] at hmem
        cases hmem
      rw [List.find?_nil, Option.filter_eq_none_iff]
      intro x hx hvis
      split at hx
      · cases hx
      · have hab := hnone x (List.mem_of_mem_head? hx)
        simp [BPlusTree.visible, hab] at hvis
    | cons newest older =>
      have hhead : newest ∈ (m.liveOf key).head? := by rw [hlive]; rfl
      obtain ⟨hkey, hfirst, hneed⟩ := hcollapse key newest hhead
      have hab : newest.timestamp ∉ m.tree.abortedBatchTs :=
        (MemTable.mem_liveOf.mp (List.mem_of_mem_head? hhead)).2.2
      rw [if_neg hkey, hfirst, Option.filter_some]
      by_cases hle : newest.timestamp ≤ readTs
      · rw [if_pos (by simp [BPlusTree.visible, hab, hle]), List.find?_cons_of_pos (by simpa using hle)]
      · rw [if_neg (by simp [BPlusTree.visible, hle]), eq_comm, List.find?_eq_none]
        intro y hy
        rw [← hlive] at hy
        have hsame := (hneed.resolve_left (by omega)) y hy
        simpa [hsame] using hle

/-- A version, and one of an open batch over it. -/
def openBatchTable : MemTable := ((MemTable.new 1 4096).insert [1] [7] 1 false).insert [1] [8] 9 false

theorem openBatchTable_inOrder : openBatchTable.InOrder := by
  have hentries : openBatchTable.entries = [⟨[1], [8], 9, false⟩, ⟨[1], [7], 1, false⟩] := by decide
  have hchain : openBatchTable.tree.rest = [] := by decide
  refine ⟨?_, ?_⟩
  · show BPlusTree.ChainKeyed openBatchTable.tree.firstLeaf openBatchTable.tree.rest
    have hslots : openBatchTable.tree.firstLeaf.slots = [⟨[1], [8], 9, false⟩, ⟨[1], [7], 1, false⟩] := by decide
    rw [hchain, BPlusTree.ChainKeyed, hslots]
    simp [KeyLe]
  · rw [hentries]
    simp [Descending]

theorem openBatchTable_alike_iff : openBatchTable.InOrder ∧
    ((∀ key readTs, 1 ≤ readTs → ∃ r, lookupKey (some ((create smallConfig).flushFile openBatchTable)) key readTs none 2 = some r ∧
        r.1 = openBatchTable.tree.lookupVersion key readTs ∧ NewestAt (openBatchTable.liveOf key) readTs r.1) ↔
      openBatchTable.Collapsible 1) :=
  ⟨openBatchTable_inOrder, flushFile_reads_alike_iff (create smallConfig) openBatchTable openBatchTable_inOrder 1 2 none
    (SSTableFile.cached_none _ 2)⟩

/-- A reader below the batch finds the older version in the memtable, and none in the table. -/
theorem older_version_flushed_away :
    ¬ ∀ (e : Engine) (m : MemTable), m.InOrder → ∀ (globalTs seq : ℕ) (cache : Option SSTableCache),
      (e.flushFile m).Cached seq cache → ∀ (key : Bytes) (readTs : ℕ), globalTs ≤ readTs →
      ∃ r, lookupKey (some (e.flushFile m)) key readTs cache seq = some r ∧
        r.1 = m.tree.lookupVersion key readTs ∧ NewestAt (m.liveOf key) readTs r.1 := by
  intro h
  obtain ⟨r, hr, heq, -⟩ := h (create smallConfig) openBatchTable openBatchTable_inOrder 1 2 none (SSTableFile.cached_none _ 2) [1] 5 (by decide)
  have hfile : (lookupKey (some ((create smallConfig).flushFile openBatchTable)) [1] 5 none 2).map Prod.fst = some none := by
    decide
  have hmem : openBatchTable.tree.lookupVersion [1] 5 = some ⟨[1], [7], 1, false⟩ := by decide
  rw [hr, Option.map_some, Option.some.injEq, heq, hmem] at hfile
  cases hfile

end Engine

end Kvdb
