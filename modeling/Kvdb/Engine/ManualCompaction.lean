import Kvdb.Engine.Outputs
import Kvdb.SSTable.Selection

/-! # What a manual compaction reports (`ManualCompact`, `CompactLevel`)

`ManualCompact` chooses the levels and reports how many they are; `CompactLevel` merges them, or returns without work when
there is no level above the topmost of them, and `ManualCompact` does not see the difference. An exception of
`CompactLevel` is swallowed and 0 is reported, also when the catalogue has been swapped already. -/
namespace Kvdb.Engine
set_option autoImplicit false

open SSTableFile (KeySorted)
open BPlusTree (live)
open Compaction (selected mergedAborted Clean)

/-- Where `CompactLevel` throws: in `SSTable::Compact` with that many output files written, or at the MANIFEST with that
many records written. -/
inductive CompactFault where
  | merge (files : ℕ)
  | record (records : ℕ)
  deriving DecidableEq, Repr

/-- What `CompactLevel` has done when it throws. The number of an addition is taken before its record is written. -/
def compactLevelThrow (e : Engine) (fromLevel topLevel : ℕ) : CompactFault → Engine
  | .merge files => (e.reserveSeq reservedOutputs).writeOutputs ((e.runCompact fromLevel topLevel).files.take files)
  | .record records =>
    let inputs := e.compactionInputs fromLevel topLevel
    let result := e.runCompact fromLevel topLevel
    let published :=
      ((e.reserveSeq reservedOutputs).writeOutputs result.files).publishCompaction inputs result.outputs
    { published with
      manifest := (compactionRecords published.manifest published.sstableSeq inputs.length result.outputs).take
        (published.manifest.length + records)
      sstableSeq := published.sstableSeq + min result.outputs.length (records + 1 - inputs.length) }

/-- The `try` block of `ManualCompact` and the result of the call. Without work `CompactLevel` does not get to what can
throw. -/
def compactRange (e : Engine) (fault : Option CompactFault) (minActiveTs trigger top : ℕ) : Engine × ℕ :=
  match if e.nothingToCompact trigger top then none else fault with
  | none => ((e.compactLevel trigger top).drainFileGC minActiveTs, top - trigger + 1)
  | some fault => (e.compactLevelThrow trigger top fault, 0)

/-- `ManualCompact` when `CompactLevel` may throw; `minActiveTs` is the smaller of the two trackers' minima. -/
def manualCompactWith (e : Engine) (minSstables fromLevel : ℤ) (cascade : Bool) (fault : Option CompactFault)
    (minActiveTs : ℕ) : Engine × ℕ :=
  match e.manualRange minSstables fromLevel cascade with
  | none => (e, 0)
  | some (trigger, top) => e.compactRange fault minActiveTs trigger top

theorem manualCompactWith_none (e : Engine) (minSstables fromLevel : ℤ) (cascade : Bool) :
    e.manualCompactWith minSstables fromLevel cascade none uint64Max = e.manualCompact minSstables fromLevel cascade := by
  unfold manualCompactWith manualCompact
  rcases e.manualRange minSstables fromLevel cascade with - | ⟨trigger, top⟩
  · rfl
  · simp only [compactRange, ite_self]

/-! ## The levels of a call -/

/-- `level` is the first one from `fromLevel` on that has enough tables. -/
structure FirstQualifying (e : Engine) (minSstables fromLevel : ℤ) (level : ℕ) : Prop where
  ge : fromLevel ≤ level
  le : level ≤ Config.maxLevel
  enough : minSstables ≤ e.levelCount level
  least : ∀ l : ℕ, fromLevel ≤ l → l < level → (e.levelCount l : ℤ) < minSstables

variable {e e' : Engine} {minSstables fromLevel : ℤ} {cascade : Bool} {first top : ℕ}

theorem FirstQualifying.unique {l l' : ℕ} (h : FirstQualifying e minSstables fromLevel l)
    (h' : FirstQualifying e minSstables fromLevel l') : l = l' := by
  rcases Nat.lt_trichotomy l l' with hlt | heq | hlt
  · exact absurd h.enough (not_le.mpr (h'.least l h.ge hlt))
  · exact heq
  · exact absurd h'.enough (not_le.mpr (h.least l' h'.ge hlt))

theorem triggerLevel_spec {threshold fuel level trigger : ℕ} (h : e.triggerLevel threshold fuel level = some trigger) :
    level ≤ trigger ∧ trigger ≤ Config.maxLevel ∧ threshold ≤ e.levelCount trigger ∧
      ∀ l, level ≤ l → l < trigger → e.levelCount l < threshold := by
  induction fuel generalizing level with
  | zero => cases h
  | succ fuel ih =>
    unfold triggerLevel at h
    split at h
    · cases h
    · next hle =>
      split at h
      · next henough =>
        cases h
        exact ⟨Nat.le_refl _, Nat.le_of_not_lt hle, henough, fun l hl hlt => absurd hl (Nat.not_le_of_lt hlt)⟩
      · next hfew =>
        obtain ⟨hge, hmax, henough, hleast⟩ := ih h
        refine ⟨by omega, hmax, henough, fun l hl hlt => ?_⟩
        rcases Nat.eq_or_lt_of_le hl with rfl | hbelow
        · exact Nat.lt_of_not_le hfew
        · exact hleast l hbelow hlt

theorem cascadeTop_bounds (e : Engine) (threshold fuel top : ℕ) (h : top ≤ Config.maxLevel) :
    top ≤ e.cascadeTop threshold fuel top ∧ e.cascadeTop threshold fuel top ≤ Config.maxLevel := by
  induction fuel generalizing top with
  | zero => exact ⟨Nat.le_refl _, h⟩
  | succ fuel ih =>
    unfold cascadeTop
    split
    · next hnext =>
      obtain ⟨hge, hle⟩ := ih (top + 1) hnext.1
      exact ⟨by omega, hle⟩
    · exact ⟨Nat.le_refl _, h⟩

/-- The levels of a call begin at the first one that qualifies, and none of them is above the last level. -/
theorem manualRange_spec (h : e.manualRange minSstables fromLevel cascade = some (first, top)) :
    2 ≤ minSstables ∧ FirstQualifying e minSstables fromLevel first ∧ first ≤ top ∧ top ≤ Config.maxLevel := by
  unfold manualRange at h
  split at h
  · cases h
  · next hok =>
    obtain ⟨trigger, htrigger, heq⟩ := Option.map_eq_some_iff.mp h
    obtain ⟨hge, hle, henough, hleast⟩ := triggerLevel_spec htrigger
    obtain ⟨rfl, htop⟩ := Prod.mk.injEq .. ▸ heq
    refine ⟨by omega, ⟨by omega, hle, by omega, fun l hl hlt => ?_⟩, ?_⟩
    · have := hleast l (by omega) hlt
      omega
    · rw [← htop]
      split
      · exact cascadeTop_bounds e _ _ _ hle
      · exact ⟨Nat.le_refl _, hle⟩

theorem levelCount_pos {level : ℕ} (h : 0 < e.levelCount level) : ∃ m ∈ e.sstableMetadata, m.level = level := by
  obtain ⟨m, hm⟩ := List.exists_mem_of_length_pos h
  obtain ⟨hcat, hlevel⟩ := List.mem_filter.mp hm
  exact ⟨m, hcat, of_decide_eq_true hlevel⟩

/-- A call that finds levels finds a table of the first of them. -/
theorem FirstQualifying.exists_table (h : FirstQualifying e minSstables fromLevel first) (hmin : 2 ≤ minSstables) :
    ∃ m ∈ e.sstableMetadata, m.level = first := by
  have := h.enough
  exact levelCount_pos (by omega)

/-! ## What a result promises -/

/-- From `e` to `e'` the tables of the levels `first` to `top` are replaced by tables of the next level, which hold what is
to be kept of their versions. -/
structure Merged (e e' : Engine) (first top : ℕ) (new : List Metadata) : Prop where
  catalogue : e'.sstableMetadata =
    (e.sstableMetadata.filter fun m => !decide (first ≤ m.level ∧ m.level ≤ top)) ++ new
  level : ∀ m ∈ new, m.level = top + 1
  content : new.flatMap e'.tableEntries = selected e.globalTs (decide (top + 1 = Config.maxLevel))
    (live (mergedAborted (e.compactionInputs first top)) (e.compactionJob first top).versions)

/-- A result above 0 is the number of levels that were merged, from the first one that qualifies; with the result 0 the
catalogue is as it was. -/
def Promised (e : Engine) (minSstables fromLevel : ℤ) (result : Engine × ℕ) : Prop :=
  (result.2 = 0 → result.1.sstableMetadata = e.sstableMetadata) ∧
    (0 < result.2 → ∃ first, FirstQualifying e minSstables fromLevel first ∧
      (∀ m ∈ result.1.sstableMetadata, ¬ (first ≤ m.level ∧ m.level < first + result.2)) ∧
      ∃ new, Merged e result.1 first (first + result.2 - 1) new)

/-- The tables have sorted files, and of each of them an iterator yields what it yields with nothing cached. -/
structure Legible (e : Engine) : Prop where
  filed : Filed e
  sorted : ∀ m ∈ e.sstableMetadata, ∀ f ∈ e.files m.filepath, f.WellFormed ∧ KeySorted f.entries
  uncached : ∀ first top, ∀ m ∈ e.compactionInputs first top,
    SSTableIterator.stream (e.files m.filepath) (e.blocksCached m) (mergedAborted (e.compactionInputs first top)) =
      SSTableIterator.stream (e.files m.filepath) (fun _ => none) (mergedAborted (e.compactionInputs first top))

/-- There is a level above, nothing is thrown behind the swap of the catalogue, and a merge that is not cut short loses no
key behind a dropped one and lets no aborted version through. -/
def Effective (e : Engine) (first top : ℕ) (fault : Option CompactFault) : Prop :=
  top < Config.maxLevel ∧
    match fault with
    | none => Clean (mergedAborted (e.compactionInputs first top)) e.globalTs (decide (top + 1 = Config.maxLevel))
        (e.compactionJob first top).read
    | some (.merge _) => True
    | some (.record _) => False

/-! ## A merge -/

theorem survivors_eq (h : Filed e) :
    e.survivors first top = e.sstableMetadata.filter fun m => !decide (first ≤ m.level ∧ m.level ≤ top) := by
  refine List.filter_congr fun m hm => ?_
  have hmem : m ∈ e.survivors first top ↔ m ∈ e.sstableMetadata ∧ ¬ (first ≤ m.level ∧ m.level ≤ top) :=
    h.mem_survivors
  simp only [survivors, List.mem_filter, hm, true_and] at hmem
  rw [Bool.eq_iff_iff, hmem, Bool.not_eq_true', decide_eq_false_iff_not]

section Work

variable (hwork : e.nothingToCompact first top = false)

include hwork

theorem output_level {m : Metadata} (hm : m ∈ (e.runCompact first top).outputs) : m.level = top + 1 := by
  obtain ⟨f, -, heq, -⟩ := output_file hwork hm
  rw [heq]
  rfl

/-- The catalogue without the inputs is not what it was. -/
theorem swapped_ne (h : Filed e) :
    e.survivors first top ++ (e.runCompact first top).outputs ≠ e.sstableMetadata := by
  intro heq
  obtain ⟨-, m, hm⟩ := exists_input e first top hwork
  obtain ⟨hcat, hge, hle⟩ := (mem_compactionInputs e first top m).mp hm
  rw [← heq, List.mem_append] at hcat
  rcases hcat with hstay | hout
  · exact (h.mem_survivors.mp hstay).2 ⟨hge, hle⟩
  · have := output_level hwork hout
    omega

/-- The outputs hold what the merge yields, also when the garbage is gone. -/
theorem outputs_content (h : Filed e) (ts : ℕ) :
    (e.runCompact first top).outputs.flatMap ((e.compactLevel first top).drainFileGC ts).tableEntries =
      (e.compactionJob first top).merged := by
  have hfiled := h.compactLevel first top
  have hcat := compactLevel_survivors hwork
  have hkeep : (e.runCompact first top).outputs.flatMap ((e.compactLevel first top).drainFileGC ts).tableEntries =
      (e.runCompact first top).outputs.flatMap (e.compactLevel first top).tableEntries := by
    rw [List.flatMap, List.flatMap]
    refine congrArg List.flatten (List.map_congr_left fun m hm => tableEntries_congr (hfiled.drain_files ts ?_))
    rw [hcat]
    exact List.mem_append_right _ hm
  rw [hkeep, List.flatMap]
  by_cases hsources : (e.compactionJob first top).sources = []
  · rw [outputs_of_no_sources hsources, Compaction.Job.merged, Compaction.merge, hsources]
    rfl
  · rw [outputs_entries hwork hsources]
    exact Pack.pack_flatten _ _ _ _

end Work

theorem cachedBlocks_empty (seq : ℕ) : cachedBlocks SSTableCache.empty seq = fun _ => none := by
  funext i
  exact ite_self none

/-- The merge yields what is to be kept, if and only if the versions that are read allow it. -/
theorem Legible.merged_iff (h : Legible e) (first top : ℕ) :
    (e.compactionJob first top).merged = selected e.globalTs (decide (top + 1 = Config.maxLevel))
        (live (mergedAborted (e.compactionInputs first top)) (e.compactionJob first top).versions) ↔
      Clean (mergedAborted (e.compactionInputs first top)) e.globalTs (decide (top + 1 = Config.maxLevel))
        (e.compactionJob first top).read := by
  let cold : Compaction.Job := { e.compactionJob first top with cache := SSTableCache.empty }
  have hcold : cold.Plain := by
    refine ⟨rfl, rfl, fun m _ i => congrFun (cachedBlocks_empty m.manifestSeq) i, fun m hm => ?_⟩
    have hcat := ((mem_compactionInputs e first top m).mp hm).1
    obtain ⟨f, hf⟩ := h.filed.files m hcat
    exact ⟨f, hf, h.sorted m hcat f hf⟩
  have hsources : cold.sources = (e.compactionJob first top).sources := by
    refine congrArg (List.filter fun s : List KeyValuePair => !s.isEmpty) (List.map_congr_left fun m hm => ?_)
    show SSTableIterator.stream (e.files m.filepath) (cachedBlocks SSTableCache.empty m.manifestSeq) _ = _
    rw [cachedBlocks_empty]
    exact (h.uncached first top m ((List.mem_insertionSort _).mp hm)).symm
  have hiff : Compaction.merge e.globalTs (decide (top + 1 = Config.maxLevel)) [] [] cold.sources =
        selected e.globalTs (decide (top + 1 = Config.maxLevel))
          (live (mergedAborted (e.compactionInputs first top)) cold.sources.flatten) ↔
      Clean (mergedAborted (e.compactionInputs first top)) e.globalTs (decide (top + 1 = Config.maxLevel))
        cold.sources.flatten := Compaction.merge_eq_selected_iff hcold.sources_sorted _
  have hlive : live (mergedAborted (e.compactionInputs first top)) (e.compactionJob first top).read =
      live (mergedAborted (e.compactionInputs first top)) (e.compactionJob first top).versions :=
    (e.compactionJob first top).live_read
  rw [← hlive]
  rw [hcold.sources_flatten, hsources] at hiff
  exact hiff

/-- `CompactLevel` with work merges the levels exactly if the versions that it reads allow it. -/
theorem Legible.exists_merged_iff (h : Legible e) (hwork : e.nothingToCompact first top = false) (ts : ℕ) :
    (∃ new, Merged e ((e.compactLevel first top).drainFileGC ts) first top new) ↔
      Clean (mergedAborted (e.compactionInputs first top)) e.globalTs (decide (top + 1 = Config.maxLevel))
        (e.compactionJob first top).read := by
  have hcat : ((e.compactLevel first top).drainFileGC ts).sstableMetadata =
      (e.sstableMetadata.filter fun m => !decide (first ≤ m.level ∧ m.level ≤ top)) ++
        (e.runCompact first top).outputs := by
    rw [← survivors_eq h.filed]
    exact compactLevel_survivors hwork
  have hcontent := outputs_content hwork h.filed ts
  rw [← h.merged_iff first top, ← hcontent]
  constructor
  · rintro ⟨new, hnew⟩
    obtain rfl : new = (e.runCompact first top).outputs :=
      List.append_cancel_left (hnew.catalogue.symm.trans hcat)
    exact hnew.content
  · exact fun heq => ⟨_, hcat, fun m hm => output_level hwork hm, heq⟩

/-! ## The result of a call -/

/-- With a table in the first of them the levels are merged unless the topmost one is the last level. -/
theorem nothingToCompact_iff (hfirst : ∃ m ∈ e.sstableMetadata, m.level = first) (hle : first ≤ top) :
    e.nothingToCompact first top = true ↔ Config.maxLevel < top + 1 := by
  obtain ⟨m, hm, hlevel⟩ := hfirst
  have hinput : m ∈ e.compactionInputs first top :=
    (mem_compactionInputs e first top m).mpr ⟨hm, by omega, by omega⟩
  rw [nothingToCompact, Bool.or_eq_true, decide_eq_true_iff, List.isEmpty_iff]
  exact or_iff_left (List.ne_nil_of_mem hinput)

/-- A catalogue that is as it was has the tables of the levels still. -/
theorem not_promised_of_kept (hqual : FirstQualifying e minSstables fromLevel first) (hmin : 2 ≤ minSstables)
    {result : Engine × ℕ} (hpos : 0 < result.2) (hsame : result.1.sstableMetadata = e.sstableMetadata) :
    ¬ Promised e minSstables fromLevel result := by
  intro hpromise
  obtain ⟨first', hqual', hempty, -⟩ := hpromise.2 hpos
  obtain rfl := hqual'.unique hqual
  obtain ⟨m, hm, hlevel⟩ := hqual.exists_table hmin
  exact hempty m (hsame ▸ hm) ⟨by omega, by omega⟩

/-- `CompactLevel` with work keeps the promise exactly if the levels are merged. -/
theorem promised_of_work (hqual : FirstQualifying e minSstables fromLevel first) (hle : first ≤ top)
    (hwork : e.nothingToCompact first top = false) (ts : ℕ) :
    Promised e minSstables fromLevel ((e.compactLevel first top).drainFileGC ts, top - first + 1) ↔
      ∃ new, Merged e ((e.compactLevel first top).drainFileGC ts) first top new := by
  have hlast : first + (top - first + 1) - 1 = top := by omega
  constructor
  · intro hpromise
    obtain ⟨first', hqual', -, new, hnew⟩ := hpromise.2 (Nat.succ_pos _)
    obtain rfl := hqual'.unique hqual
    rw [hlast] at hnew
    exact ⟨new, hnew⟩
  · rintro ⟨new, hnew⟩
    refine ⟨fun hzero => absurd hzero (Nat.succ_ne_zero _), fun _ => ⟨first, hqual, ?_, new, ?_⟩⟩
    · rintro m hm ⟨hge, hlt⟩
      have hbelow : m.level < first + (top - first + 1) := hlt
      have hcat : m ∈ (e.sstableMetadata.filter fun m => !decide (first ≤ m.level ∧ m.level ≤ top)) ++ new :=
        hnew.catalogue ▸ hm
      rcases List.mem_append.mp hcat with hstay | hout
      · have hout := (List.mem_filter.mp hstay).2
        rw [Bool.not_eq_true', decide_eq_false_iff_not] at hout
        exact hout ⟨hge, by omega⟩
      · have := hnew.level m hout
        omega
    · show Merged e _ first (first + (top - first + 1) - 1) new
      rw [hlast]
      exact hnew

/-- What `CompactLevel` leaves behind when it throws keeps the promise exactly if it throws before the swap. -/
theorem promised_of_throw (hfiled : Filed e) (hwork : e.nothingToCompact first top = false) (fault : CompactFault) :
    Promised e minSstables fromLevel (e.compactLevelThrow first top fault, 0) ↔ ∃ files, fault = .merge files := by
  cases fault with
  | merge files =>
    refine ⟨fun _ => ⟨files, rfl⟩, fun _ => ⟨fun _ => ?_, fun hpos => absurd hpos (Nat.lt_irrefl 0)⟩⟩
    exact writeOutputs_catalogue _ _
  | record records =>
    refine ⟨fun hpromise => ?_, nofun⟩
    have hsame := hpromise.1 rfl
    have hswap : (e.compactLevelThrow first top (.record records)).sstableMetadata =
        e.survivors first top ++ (e.runCompact first top).outputs := by
      simp only [compactLevelThrow, publishCompaction, writeOutputs_catalogue]
      rfl
    exact absurd (hswap.symm.trans hsame) (swapped_ne hwork hfiled)

/-- In a state that calls have reached the tables are legible if their files are sorted and no block that is cached stands
before one that is not. -/
theorem Running.legible (hr : Running e) (hd : Described e)
    (h : ∀ m ∈ e.sstableMetadata, ∀ f ∈ e.files m.filepath,
      KeySorted f.entries ∧ SSTableIterator.InOrder f (e.blocksCached m)) : Legible e := by
  refine ⟨hr.filed, fun m hm f hf => ⟨(hd.tables m hm f hf).wellFormed, (h m hm f hf).1⟩, fun first top m hm => ?_⟩
  have hcat := ((mem_compactionInputs e first top m).mp hm).1
  obtain ⟨f, hf⟩ := hr.filed.files m hcat
  have hwell := (hd.tables m hcat f hf).wellFormed
  rw [hd.mergedAborted hr.filed, hf]
  have hwarm := SSTableIterator.stream_eq hwell (hr.keyed.cachedFrom hcat hf) (h m hcat f hf).2
  have hcold : SSTableIterator.stream (some f) (fun _ => none) [] = f.entries :=
    SSTableIterator.stream_eq hwell nofun nofun
  exact hwarm.trans hcold.symm

/-- Above no last level, and with nothing aborted, what is read may be merged. -/
theorem clean_of_unaborted {ts : ℕ} (es : List KeyValuePair) : Clean [] ts false es := by
  intro key
  refine ⟨?_, fun _ => ⟨fun x hx hab => (by cases hab), fun w _ hab => (by cases hab)⟩⟩
  rintro ⟨-, -, hlast, -⟩
  cases hlast

theorem Described.effective (hr : Running e) (hd : Described e) (hlast : top + 1 < Config.maxLevel) :
    Effective e first top none := by
  refine ⟨by omega, ?_⟩
  show Clean (Compaction.mergedAborted (e.compactionInputs first top)) _ (decide (top + 1 = Config.maxLevel)) _
  rw [hd.mergedAborted hr.filed, decide_eq_false (by omega)]
  exact clean_of_unaborted _

def twoFlushes : List Calls.Call := Calls.flushed [1] [2] ++ Calls.flushed [3] [4]

theorem twoFlushes_enabled : (Runs.checked Calls.step Runs.anyStep (create smallConfig) twoFlushes).isSome = true := by
  decide

def twoTables : Engine :=
  (Runs.checked Calls.step Runs.anyStep (create smallConfig) twoFlushes).get twoFlushes_enabled

/-- Two tables of the last level, which nothing is above. -/
def lastTables : Engine := { create smallConfig with
  sstableSeq := 3
  sstableMetadata := [{ filepath := 1, level := 7 }, { filepath := 2, level := 7 }]
  files := fun n =>
    if n = 1 then some (SSTableFile.write smallConfig.bloomSizing [⟨[1], [2], 1, false⟩] [])
    else if n = 2 then some (SSTableFile.write smallConfig.bloomSizing [⟨[3], [4], 2, false⟩] [])
    else none }

theorem lastTables_legible : Legible lastTables := by
  refine ⟨⟨by decide, by decide, ?_, nofun⟩, ?_, fun first top m hm => ?_⟩
  · intro m hm
    rcases List.mem_pair.mp hm with rfl | rfl
    · exact ⟨_, rfl⟩
    · exact ⟨_, rfl⟩
  · intro m hm f hf
    rcases List.mem_pair.mp hm with rfl | rfl <;> cases hf
    · exact ⟨SSTableFile.write_wellFormed _ _ _, by decide⟩
    · exact ⟨SSTableFile.write_wellFormed _ _ _, by decide⟩
  · show SSTableIterator.stream _ (cachedBlocks SSTableCache.empty m.manifestSeq) _ = _
    rw [cachedBlocks_empty]

end Kvdb.Engine
