import Kvdb.Engine.Outputs

/-! # The order and the ranges of the tables of levels 1 and above

A compaction appends its outputs at the end of the catalogue, one level below its inputs, and leaves
the tables of that level as they are. The key ranges of a level stay disjoint if the inputs do not
meet the ranges of the tables already there. `Lookup` goes through levels 1 and above from the front
of the catalogue and stops at the first hit: that is the newest version as long as no key of an input
stands in a table below the compacted levels. -/
namespace Kvdb.Levels
set_option autoImplicit false

open Kvdb.Runs Kvdb.Engine Kvdb.Calls

/-! ## Relations between the tables of levels 1 and above -/

/-- `R` relates any two tables of these levels, with their versions, in catalogue order. -/
def Deep (R : Metadata → List KeyValuePair → Metadata → List KeyValuePair → Prop) (e : Engine) : Prop :=
  e.sstableMetadata.Pairwise fun a b => a.level ≠ 0 → b.level ≠ 0 → R a (e.tableEntries a) b (e.tableEntries b)

variable {R : Metadata → List KeyValuePair → Metadata → List KeyValuePair → Prop} {e e' : Engine}

theorem Deep.congr (h : Deep R e) (hcat : e'.sstableMetadata = e.sstableMetadata)
    (hentries : ∀ md ∈ e.sstableMetadata, e'.tableEntries md = e.tableEntries md) : Deep R e' := by
  rw [Deep, hcat]
  refine h.imp_of_mem ?_
  intro a b ha hb hab
  rw [hentries a ha, hentries b hb]
  exact hab

theorem Deep.doFlush (h : Deep R e) (hf : Filed e) (m : MemTable) : Deep R (e.doFlush m) := by
  rcases e.doFlush_cases m with ⟨-, heq⟩ | ⟨-, md, cache, hmd, heq⟩
  · rw [heq]
    exact h
  · rw [heq]
    show (e.sstableMetadata ++ [md]).Pairwise _
    rw [List.pairwise_append]
    refine ⟨?_, List.pairwise_singleton _ _, ?_⟩
    · refine h.imp_of_mem ?_
      intro a b ha hb hab
      rw [tableEntries_afterFlush_old hf ha, tableEntries_afterFlush_old hf hb]
      exact hab
    · intro a _ b hb _ hlevel
      rw [List.mem_singleton.mp hb] at hlevel
      exact absurd hmd.level hlevel

theorem Deep.compactLevel (h : Deep R e) (hf : Filed e) {fromLevel topLevel : ℕ}
    (houtputs : e.nothingToCompact fromLevel topLevel = false →
      (e.runCompact fromLevel topLevel).outputs.Pairwise fun a b =>
        R a ((e.compactLevel fromLevel topLevel).tableEntries a) b
          ((e.compactLevel fromLevel topLevel).tableEntries b))
    (hcross : e.nothingToCompact fromLevel topLevel = false →
      ∀ a ∈ e.survivors fromLevel topLevel, a.level ≠ 0 → ∀ b ∈ (e.runCompact fromLevel topLevel).outputs,
        R a (e.tableEntries a) b ((e.compactLevel fromLevel topLevel).tableEntries b)) :
    Deep R (e.compactLevel fromLevel topLevel) := by
  cases hwork : e.nothingToCompact fromLevel topLevel with
  | true =>
    rw [compactLevel_of_nothing e fromLevel topLevel hwork]
    exact h
  | false =>
    rw [Deep, compactLevel_survivors hwork, List.pairwise_append]
    refine ⟨?_, ?_, ?_⟩
    · refine (h.sublist List.filter_sublist).imp_of_mem ?_
      intro a b ha hb hab
      rw [tableEntries_survivor hf hwork ha, tableEntries_survivor hf hwork hb]
      exact hab
    · exact (houtputs hwork).imp fun hab _ _ => hab
    · intro a ha b hb hlevel _
      rw [tableEntries_survivor hf hwork ha]
      exact hcross hwork a ha hlevel b hb

theorem Deep.step (h : Deep R e) (hf : Filed e) {call : Call} (hs : Calls.step e call = some e')
    (hcompact : ∀ bottom top, compacted e call = some (bottom, top) → Deep R (e.compactLevel bottom top)) :
    Deep R e' := by
  refine catalogue_rule hs h hf ?_ ?_ hcompact
  · intro e e' hcat hfiles h1
    exact h1.congr hcat fun md hmd => tableEntries_congr (hfiles md hmd)
  · intro m _ rest
    have hpopped : Deep R { e with frozenMemtables := rest } := h
    exact hpopped.doFlush (hf.congr rfl) m

/-- A compaction with work meets `C`. -/
def Compacts (C : Engine → ℕ → ℕ → Prop) (e : Engine) (call : Call) : Prop :=
  ∀ r ∈ compacted e call, e.nothingToCompact r.1 r.2 = false → Readable e r.1 r.2 ∧ C e r.1 r.2

instance decidableCompacts (C : Engine → ℕ → ℕ → Prop) [∀ e bottom top, Decidable (C e bottom top)] (e : Engine)
    (call : Call) : Decidable (Compacts C e call) :=
  inferInstanceAs (Decidable (∀ r ∈ compacted e call, e.nothingToCompact r.1 r.2 = false →
    Readable e r.1 r.2 ∧ C e r.1 r.2))

/-- Every run keeps the relation, if compactions with readable inputs that meet `C` keep it. -/
theorem run_deep {C : Engine → ℕ → ℕ → Prop} (cfg : EngineConfig) {calls : List Call}
    (h : Run step (Compacts C) (create cfg) calls e)
    (hcompact : ∀ e bottom top, Running e → Described e → Deep R e →
      (e.nothingToCompact bottom top = false → Readable e bottom top ∧ C e bottom top) →
        Deep R (e.compactLevel bottom top)) : Deep R e ∧ Running e := by
  have hinv : Deep R e ∧ Running e ∧ Described e := by
    refine h.invariant (I := fun e => Deep R e ∧ Running e ∧ Described e) ?_
      ⟨List.Pairwise.nil, create_running cfg, create_described cfg⟩
    rintro e call e' hok hs ⟨hdeep, hr, hd⟩
    refine ⟨hdeep.step hr.filed hs ?_, hr.step hs, hd.step hr hs⟩
    intro bottom top hrange
    exact hcompact e bottom top hr hd hdeep (hok (bottom, top) hrange)
  exact ⟨hinv.1, hinv.2.1⟩

/-- Two compactions of level 0, each of two flushes of one key. -/
def overlappingRun : List Call :=
  flushed [1] [2] ++ flushed [1] [3] ++ ([.manualCompact 2 0 false] : List Call) ++
    flushed [1] [4] ++ flushed [1] [5] ++ ([.manualCompact 2 0 false] : List Call)

theorem overlappingRun_enabled : (checked step anyStep (create smallConfig) overlappingRun).isSome = true := by
  decide

def overlapping : Engine := (checked step anyStep (create smallConfig) overlappingRun).get overlappingRun_enabled

/-- Two compactions of level 0 with a key of its own each. -/
def separateRun : List Call :=
  flushed [1] [2] ++ flushed [1] [3] ++ ([.manualCompact 2 0 false] : List Call) ++
    flushed [4] [4] ++ flushed [4] [5] ++ ([.manualCompact 2 0 false] : List Call)

/-! ## Key ranges -/

/-- The tables of a level have disjoint key ranges. -/
def RangesDisjoint (e : Engine) : Prop :=
  e.sstableMetadata.Pairwise fun a b => 1 ≤ a.level → a.level = b.level → a.maxKey < b.minKey ∨ b.maxKey < a.minKey

instance decidableRangesDisjoint (e : Engine) : Decidable (RangesDisjoint e) :=
  inferInstanceAs (Decidable (e.sstableMetadata.Pairwise fun a b => 1 ≤ a.level → a.level = b.level →
    a.maxKey < b.minKey ∨ b.maxKey < a.minKey))

/-- Each table of the output level stands on one side of all keys of the inputs. -/
def Apart (e : Engine) (fromLevel topLevel : ℕ) : Prop :=
  ∀ md ∈ e.sstableMetadata, md.level = topLevel + 1 →
    (∀ x ∈ e.inputEntries fromLevel topLevel, x.key < md.minKey) ∨
      ∀ x ∈ e.inputEntries fromLevel topLevel, md.maxKey < x.key

instance decidableApart (e : Engine) (fromLevel topLevel : ℕ) : Decidable (Apart e fromLevel topLevel) :=
  inferInstanceAs (Decidable (∀ md ∈ e.sstableMetadata, md.level = topLevel + 1 →
    (∀ x ∈ e.inputEntries fromLevel topLevel, x.key < md.minKey) ∨
      ∀ x ∈ e.inputEntries fromLevel topLevel, md.maxKey < x.key))

def OtherRange (a : Metadata) (_ : List KeyValuePair) (b : Metadata) (_ : List KeyValuePair) : Prop :=
  a.level = b.level → a.maxKey < b.minKey ∨ b.maxKey < a.minKey

theorem compactLevel_otherRange {fromLevel topLevel : ℕ} (hr : Running e) (hd : Described e)
    (h : Deep OtherRange e) (hok : e.nothingToCompact fromLevel topLevel = false →
      Readable e fromLevel topLevel ∧ Apart e fromLevel topLevel) :
    Deep OtherRange (e.compactLevel fromLevel topLevel) := by
  refine h.compactLevel hr.filed ?_ ?_
  · intro hwork
    refine (outputs_ascending hr hd (hok hwork).1 hwork).imp_of_mem ?_
    intro a b ha hb hab _
    obtain ⟨x, hx, hmax⟩ := (output_range hr.filed hd hwork ha).2
    obtain ⟨y, hy, hmin⟩ := (output_range hr.filed hd hwork hb).1
    left
    rw [← hmax, ← hmin]
    exact hab x hx y hy
  · intro hwork a ha _ b hb hlevel
    rw [(output_manifestSeq hb).2] at hlevel
    obtain ⟨⟨x, hx, hmin⟩, ⟨y, hy, hmax⟩⟩ := output_range hr.filed hd hwork hb
    have hxin := mem_inputEntries.mpr (mem_output hr.filed hr.keyed hwork hb hx).2
    have hyin := mem_inputEntries.mpr (mem_output hr.filed hr.keyed hwork hb hy).2
    rw [← hmin, ← hmax]
    rcases (hok hwork).2 a (Engine.mem_survivors.mp ha).1 hlevel with hbelow | habove
    · exact .inr (hbelow y hyin)
    · exact .inl (habove x hxin)

/-- In every run whose compactions read their inputs in order and keep apart from the tables of the
output level, the tables of a level have disjoint key ranges. -/
theorem ranges_disjoint (cfg : EngineConfig) (calls : List Call) (e : Engine)
    (h : Run step (Compacts Apart) (create cfg) calls e) : RangesDisjoint e := by
  have hdeep := (run_deep (R := OtherRange) cfg h fun _ _ _ => compactLevel_otherRange).1
  refine hdeep.imp ?_
  intro a b hab hlevel heq
  exact hab (by omega) (by omega) heq

theorem ranges_disjoint_after_two_compactions :
    ∃ e, Run step (Compacts Apart) (create smallConfig) separateRun e ∧ e.levelCount 1 = 2 ∧ RangesDisjoint e := by
  have hend : ∃ e, Run step (Compacts Apart) (create smallConfig) separateRun e ∧ e.levelCount 1 = 2 :=
    Run.exists_of_checked (by decide)
  obtain ⟨e, hrun, hcount⟩ := hend
  exact ⟨e, hrun, hcount, ranges_disjoint smallConfig separateRun e hrun⟩

/-- Both tables of level 1 have the range of the one key. -/
theorem overlapping_ranges :
    Run step anyStep (create smallConfig) overlappingRun overlapping ∧ ¬ RangesDisjoint overlapping :=
  ⟨Run.of_isSome _ _ overlappingRun_enabled, by decide⟩

/-! ## The order of the search -/

/-- The versions of a key in a table that a reader may see. -/
def visibleVersions (e : Engine) (md : Metadata) (key : Bytes) (readTs : ℕ) : List KeyValuePair :=
  (e.tableEntries md).filter fun x =>
    decide (x.key = key) && decide (x.timestamp ≤ readTs) && !decide (x.timestamp ∈ md.abortedBatchTs)

/-- The first table that holds a visible version of the key holds the newest one of all tables. -/
def FirstIsNewest (e : Engine) (key : Bytes) (readTs : ℕ) : Prop :=
  ∀ md ∈ (lookupOrder e.sstableMetadata).find? (fun md => !(visibleVersions e md key readTs).isEmpty),
    ∃ x ∈ visibleVersions e md key readTs, ∀ md' ∈ e.sstableMetadata, ∀ y ∈ visibleVersions e md' key readTs,
      y.timestamp ≤ x.timestamp

instance decidableFirstIsNewest (e : Engine) (key : Bytes) (readTs : ℕ) : Decidable (FirstIsNewest e key readTs) :=
  inferInstanceAs (Decidable (∀ md ∈ (lookupOrder e.sstableMetadata).find?
    (fun md => !(visibleVersions e md key readTs).isEmpty), ∃ x ∈ visibleVersions e md key readTs,
      ∀ md' ∈ e.sstableMetadata, ∀ y ∈ visibleVersions e md' key readTs, y.timestamp ≤ x.timestamp))

/-- No key of an input stands in a table below the compacted levels. -/
def NoneBelow (e : Engine) (fromLevel topLevel : ℕ) : Prop :=
  ∀ md ∈ e.sstableMetadata, topLevel < md.level → ∀ x ∈ e.inputEntries fromLevel topLevel,
    ∀ y ∈ e.tableEntries md, x.key ≠ y.key

instance decidableNoneBelow (e : Engine) (fromLevel topLevel : ℕ) : Decidable (NoneBelow e fromLevel topLevel) :=
  inferInstanceAs (Decidable (∀ md ∈ e.sstableMetadata, topLevel < md.level →
    ∀ x ∈ e.inputEntries fromLevel topLevel, ∀ y ∈ e.tableEntries md, x.key ≠ y.key))

/-- Of a key that both hold, the first table has the newer versions. -/
def Newer (_ : Metadata) (xs : List KeyValuePair) (_ : Metadata) (ys : List KeyValuePair) : Prop :=
  ∀ x ∈ xs, ∀ y ∈ ys, x.key = y.key → y.timestamp < x.timestamp

theorem compactLevel_newer {fromLevel topLevel : ℕ} (hr : Running e) (hd : Described e)
    (h : Deep Newer e) (hok : e.nothingToCompact fromLevel topLevel = false →
      Readable e fromLevel topLevel ∧ NoneBelow e fromLevel topLevel) :
    Deep Newer (e.compactLevel fromLevel topLevel) := by
  refine h.compactLevel hr.filed ?_ ?_
  · intro hwork
    refine (outputs_ascending hr hd (hok hwork).1 hwork).imp ?_
    intro a b hab x hx y hy hkey
    exact absurd hkey (ne_of_lt (hab x hx y hy))
  · intro hwork a ha _ b hb x hx y hy hkey
    obtain ⟨hcat, hlevel⟩ := hr.filed.mem_survivors.mp ha
    obtain ⟨i, hi, hyi⟩ := (mem_output hr.filed hr.keyed hwork hb hy).2
    obtain ⟨hicat, hifrom, -⟩ := (mem_compactionInputs e fromLevel topLevel i).mp hi
    by_cases hbelow : topLevel < a.level
    · exact absurd hkey.symm ((hok hwork).2 a hcat hbelow y (mem_inputEntries.mpr ⟨i, hi, hyi⟩) x hx)
    · exact hr.recent.levels a hcat i hicat (by omega) y hyi x hx

/-- `Lookup` meets the newer versions of a key first. -/
theorem lookupOrder_newer (hr : Recent e) (h : Deep Newer e) :
    (lookupOrder e.sstableMetadata).Pairwise fun a b => Newer a (e.tableEntries a) b (e.tableEntries b) := by
  rw [lookupOrder, List.pairwise_append, List.filter_reverse, List.pairwise_reverse]
  refine ⟨?_, ?_, ?_⟩
  · refine (hr.levelZero.sublist List.filter_sublist).imp_of_mem ?_
    intro a b ha hb hab x hx y hy _
    exact hab (of_decide_eq_true (List.mem_filter.mp ha).2) (of_decide_eq_true (List.mem_filter.mp hb).2) y hy x hx
  · refine (h.sublist List.filter_sublist).imp_of_mem ?_
    intro a b ha hb hab
    refine hab ?_ ?_
    · simpa using (List.mem_filter.mp ha).2
    · simpa using (List.mem_filter.mp hb).2
  · intro a ha b hb x hx y hy _
    obtain ⟨hacat, halevel⟩ := List.mem_filter.mp (List.mem_reverse.mp ha)
    obtain ⟨hbcat, hblevel⟩ := List.mem_filter.mp hb
    simp only [decide_eq_true_eq, Bool.not_eq_true', decide_eq_false_iff_not] at halevel hblevel
    exact hr.levels a hacat b hbcat (by omega) y hy x hx

theorem exists_newest {xs : List KeyValuePair} (h : xs ≠ []) :
    ∃ x ∈ xs, ∀ y ∈ xs, y.timestamp ≤ x.timestamp := by
  obtain ⟨x, xs, rfl⟩ := List.exists_cons_of_ne_nil h
  obtain ⟨v, hv, hle, hall⟩ := Compaction.foldl_newer xs x
  refine ⟨v, ?_, ?_⟩
  · rcases Compaction.foldl_newer_mem xs (some x) hv with hmem | heq
    · exact List.mem_cons_of_mem _ hmem
    · cases heq
      exact List.mem_cons_self
  · intro y hy
    rcases List.mem_cons.mp hy with rfl | hy
    · exact hle
    · exact hall y hy

theorem firstIsNewest_of_newer
    (h : (lookupOrder e.sstableMetadata).Pairwise fun a b => Newer a (e.tableEntries a) b (e.tableEntries b))
    (key : Bytes) (readTs : ℕ) : FirstIsNewest e key readTs := by
  intro md hmd
  obtain ⟨hfound, before, after, hsplit, hbefore⟩ := List.find?_eq_some_iff_append.mp hmd
  have hne : visibleVersions e md key readTs ≠ [] := by simpa using hfound
  obtain ⟨x, hx, hmax⟩ := exists_newest hne
  refine ⟨x, hx, ?_⟩
  intro md' hmd' y hy
  rw [← mem_lookupOrder, hsplit, List.mem_append, List.mem_cons] at hmd'
  rcases hmd' with hmd' | rfl | hmd'
  · have hempty := hbefore md' hmd'
    rw [Bool.not_not, List.isEmpty_iff] at hempty
    rw [hempty] at hy
    cases hy
  · exact hmax y hy
  · rw [hsplit, List.pairwise_append, List.pairwise_cons] at h
    obtain ⟨hxin, hxkey⟩ := List.mem_filter.mp hx
    obtain ⟨hyin, hykey⟩ := List.mem_filter.mp hy
    simp only [Bool.and_eq_true, decide_eq_true_eq] at hxkey hykey
    exact le_of_lt (h.2.1.1 md' hmd' x hxin y hyin (hxkey.1.1.trans hykey.1.1.symm))

/-- In every run whose compactions read their inputs in order and find none of their keys below, the
first hit of a search through the tables is the newest version. -/
theorem first_hit_newest (cfg : EngineConfig) (calls : List Call) (e : Engine)
    (h : Run step (Compacts NoneBelow) (create cfg) calls e) (key : Bytes) (readTs : ℕ) :
    FirstIsNewest e key readTs := by
  obtain ⟨hdeep, hr⟩ := run_deep (R := Newer) cfg h fun _ _ _ => compactLevel_newer
  exact firstIsNewest_of_newer (lookupOrder_newer hr.recent hdeep) key readTs

theorem first_hit_newest_after_two_compactions :
    ∃ e, Run step (Compacts NoneBelow) (create smallConfig) separateRun e ∧ e.levelCount 1 = 2 ∧
      FirstIsNewest e [4] 4 := by
  have hend : ∃ e, Run step (Compacts NoneBelow) (create smallConfig) separateRun e ∧ e.levelCount 1 = 2 :=
    Run.exists_of_checked (by decide)
  obtain ⟨e, hrun, hcount⟩ := hend
  exact ⟨e, hrun, hcount, first_hit_newest smallConfig separateRun e hrun [4] 4⟩

/-- The output of the first compaction stands in front of the newer one of the second. -/
theorem overlapping_first_hit_older :
    Run step anyStep (create smallConfig) overlappingRun overlapping ∧ ¬ FirstIsNewest overlapping [1] 4 :=
  ⟨Run.of_isSome _ _ overlappingRun_enabled, by decide⟩

end Kvdb.Levels
