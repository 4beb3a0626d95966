import Kvdb.Engine.RangeScan
import Kvdb.MemTable.Walk

/-! # What a range scan can yield

Whatever the order of its sources, a scan yields only versions that its sources hold: versions of a
memtable that the memtable's aborted set leaves, entries of the files and what is decoded behind them. -/
namespace Kvdb
set_option autoImplicit false

namespace RangeIterator

/-- Every entry of every source meets `P`. -/
def AllMeet (P : KeyValuePair → Prop) (sources : List (List KeyValuePair)) : Prop := ∀ source ∈ sources, ∀ x ∈ source, P x

variable {P : KeyValuePair → Prop} {sources : List (List KeyValuePair)}

theorem AllMeet.shrink (h : AllMeet P sources) {f : List KeyValuePair → List KeyValuePair} (hf : ∀ source, f source ⊆ source) :
    AllMeet P (sources.map f) := by
  intro source hsource x hx
  obtain ⟨source0, hsource0, rfl⟩ := List.mem_map.mp hsource
  exact h source0 hsource0 x (hf source0 hx)

theorem advance_subset (key : Bytes) (source : List KeyValuePair) : advance key source ⊆ source := by
  cases source with
  | nil => exact List.nil_subset _
  | cons x xs =>
    rw [advance]
    split
    · exact List.subset_cons_self _ _
    · exact fun _ hy => hy

theorem skipBound_subset (lower : RangeBound) (source : List KeyValuePair) : skipBound lower source ⊆ source := by
  unfold skipBound
  split
  · exact (List.dropWhile_sublist _).subset
  · exact fun _ hx => hx

theorem AllMeet.findNext (h : AllMeet P sources) {readTs : ℕ} {upper : RangeBound} (fuel : ℕ) {x : KeyValuePair}
    {rest : List (List KeyValuePair)} (hnext : RangeIterator.findNext readTs upper fuel sources = some (x, rest)) :
    P x ∧ AllMeet P rest := by
  induction fuel generalizing sources with
  | zero => cases hnext
  | succ fuel ih =>
    unfold RangeIterator.findNext at hnext
    split at hnext
    · cases hnext
    · next key _ =>
      have hadvance := h.shrink (advance_subset key)
      split at hnext
      · split at hnext
        · next best hbest =>
          cases hnext
          have hmem := (visWinner_visible hbest).1
          obtain ⟨source, hsource, hhead⟩ := List.mem_filterMap.mp (List.mem_filter.mp hmem).1
          exact ⟨h source hsource x (List.mem_of_mem_head? hhead), hadvance⟩
        · exact ih hadvance hnext
      · cases hnext

theorem AllMeet.drain (h : AllMeet P sources) (readTs : ℕ) (upper : RangeBound) (steps fuel : ℕ) :
    ∀ x ∈ RangeIterator.drain readTs upper steps fuel sources, P x := by
  induction fuel generalizing sources with
  | zero =>
    intro x hx
    cases hx
  | succ fuel ih =>
    intro x hx
    unfold RangeIterator.drain at hx
    split at hx
    · cases hx
    · next y rest hnext =>
      obtain ⟨hy, hrest⟩ := h.findNext steps hnext
      rcases List.mem_cons.mp hx with rfl | hx
      · exact hy
      · exact ih hrest x hx

theorem AllMeet.results (h : AllMeet P sources) (readTs : ℕ) (lower upper : RangeBound) :
    ∀ x ∈ RangeIterator.results readTs lower upper sources, P x := by
  unfold RangeIterator.results
  rw [skipLower_eq]
  exact (h.shrink (skipBound_subset lower)).drain readTs upper _ _

end RangeIterator

/-! ## Memtables -/

namespace MaterializedMemTableSource

variable {aborted : List ℕ}

/-- The pages hold versions of `es`, and the first one does not begin with an aborted one. -/
structure Loaded (aborted : List ℕ) (es : List KeyValuePair) (pages : List (List KeyValuePair)) : Prop where
  within : ∀ page ∈ pages, page ⊆ es
  head : ∀ page ∈ pages.head?, ∀ x ∈ page.head?, x.timestamp ∉ aborted

theorem load_loaded {es : List KeyValuePair} {pages : List (List KeyValuePair)} (h : ∀ page ∈ pages, page ⊆ es) :
    Loaded aborted es (load aborted pages) := by
  cases pages with
  | nil => exact ⟨h, fun _ hpage => (by cases hpage)⟩
  | cons page rest =>
    refine ⟨?_, ?_⟩
    · intro page' hpage'
      rcases List.mem_cons.mp hpage' with rfl | hpage'
      · exact fun x hx => h page List.mem_cons_self ((List.dropWhile_sublist _).subset hx)
      · exact h page' (List.mem_cons_of_mem _ hpage')
    · intro page' hpage' x hx
      cases hpage'
      have hstop := List.head?_dropWhile_not (fun y : KeyValuePair => decide (y.timestamp ∈ aborted)) page
      rw [BPlusTree.skipAborted] at hx
      rw [hx] at hstop
      simpa using hstop

theorem Loaded.walkNext {es page : List KeyValuePair} {x : KeyValuePair} {rest : List (List KeyValuePair)}
    (h : Loaded aborted es ((x :: page) :: rest)) : Loaded aborted es (walkNext aborted (page :: rest)) := by
  refine load_loaded ?_
  have hrest : ∀ page' ∈ rest, page' ⊆ es := fun page' hpage' => h.within page' (List.mem_cons_of_mem _ hpage')
  split
  · exact fun page' hpage' => hrest page' ((List.dropWhile_sublist _).subset hpage')
  · intro page' hpage'
    rcases List.mem_cons.mp hpage' with rfl | hpage'
    · exact fun y hy => h.within _ List.mem_cons_self (List.mem_cons_of_mem _ hy)
    · exact hrest page' hpage'

theorem Loaded.walk {es : List KeyValuePair} (fuel : ℕ) {pages : List (List KeyValuePair)} (h : Loaded aborted es pages) :
    ∀ x ∈ walk aborted fuel pages, x ∈ es ∧ x.timestamp ∉ aborted := by
  induction fuel generalizing pages with
  | zero =>
    intro x hx
    unfold MaterializedMemTableSource.walk at hx
    cases hx
  | succ fuel ih =>
    intro x hx
    cases pages with
    | nil => cases hx
    | cons page rest =>
      cases page with
      | nil => cases hx
      | cons y page =>
        rcases List.mem_cons.mp hx with rfl | hx
        · exact ⟨h.within _ List.mem_cons_self List.mem_cons_self, h.head _ rfl x rfl⟩
        · exact ih h.walkNext x hx

theorem mem_yields {pages : List (List KeyValuePair)} {x : KeyValuePair} (hx : x ∈ yields aborted pages) :
    x ∈ pages.flatten ∧ x.timestamp ∉ aborted := by
  refine (load_loaded ?_).walk _ x hx
  intro page hpage y hy
  exact List.mem_flatten.mpr ⟨page, (List.dropWhile_sublist _).subset hpage, hy⟩

/-! ## The live entries of the copied leaves

`Load` passes over the aborted entries of the current leaf only, and `Valid()` tests the current leaf only: a leaf that
ends with an aborted entry ends the scan of the memtable. -/

/-- Behind a page that ends with an aborted entry there are aborted entries only. -/
def Uncut (aborted : List ℕ) (pages : List (List KeyValuePair)) : Prop :=
  pages.Pairwise fun page later => BPlusTree.EndsAborted aborted page → ∀ x ∈ later, x.timestamp ∈ aborted

theorem uncut_skipEmpty (pages : List (List KeyValuePair)) :
    Uncut aborted (BPlusTree.skipEmpty pages) ↔ Uncut aborted pages := by
  induction pages with
  | nil => rfl
  | cons page pages ih =>
    cases page with
    | cons x page => rfl
    | nil =>
      have hends : ¬ BPlusTree.EndsAborted aborted [] := by
        rintro ⟨x, hx, -⟩
        cases hx
      have hskip : BPlusTree.skipEmpty ([] :: pages) = BPlusTree.skipEmpty pages := rfl
      rw [hskip, ih]
      simp [Uncut, hends]

/-- Only the last entry of the first page matters. -/
theorem uncut_congr {page page' : List KeyValuePair} {rest : List (List KeyValuePair)}
    (h : BPlusTree.EndsAborted aborted page ↔ BPlusTree.EndsAborted aborted page') :
    Uncut aborted (page :: rest) ↔ Uncut aborted (page' :: rest) := by
  simp [Uncut, h]

/-- Behind a page that ends with an aborted entry. -/
theorem uncut_of_ends {page : List KeyValuePair} {rest : List (List KeyValuePair)}
    (h : BPlusTree.EndsAborted aborted page) :
    Uncut aborted (page :: rest) ↔ ∀ x ∈ rest.flatten, x.timestamp ∈ aborted := by
  have hflatten : (∀ x ∈ rest.flatten, x.timestamp ∈ aborted) ↔ ∀ later ∈ rest, ∀ x ∈ later, x.timestamp ∈ aborted := by
    simp only [List.mem_flatten]
    refine ⟨fun hall later hlater x hx => hall x ⟨later, hlater, hx⟩, ?_⟩
    rintro hall x ⟨later, hlater, hx⟩
    exact hall later hlater x hx
  rw [hflatten]
  unfold Uncut
  rw [List.pairwise_cons]
  refine ⟨fun hcut later hlater => hcut.1 later hlater h, fun hall => ⟨fun later hlater _ => hall later hlater, ?_⟩⟩
  exact List.pairwise_of_forall_mem_list fun _ _ later hlater _ => hall later hlater

/-- What `WalkNext` loads behind the entry `x` of a page. -/
theorem uncut_next {x : KeyValuePair} (page : List KeyValuePair) (rest : List (List KeyValuePair))
    (hx : x.timestamp ∉ aborted) :
    Uncut aborted (if page.isEmpty then BPlusTree.skipEmpty rest else page :: rest) ↔
      Uncut aborted ((x :: page) :: rest) := by
  cases page with
  | nil =>
    have hends : ¬ BPlusTree.EndsAborted aborted [x] := by
      rintro ⟨y, hy, hab⟩
      cases hy
      exact hx hab
    rw [if_pos List.isEmpty_nil, uncut_skipEmpty]
    simp [Uncut, hends]
  | cons y page =>
    rw [if_neg (by simp)]
    exact (uncut_congr (BPlusTree.endsAborted_cons (List.cons_ne_nil y page))).symm

theorem next_flatten (page : List KeyValuePair) (rest : List (List KeyValuePair)) :
    (if page.isEmpty then BPlusTree.skipEmpty rest else page :: rest).flatten = page ++ rest.flatten := by
  split
  · next hnil =>
    rw [BPlusTree.skipEmpty_flatten, List.isEmpty_iff.mp hnil, List.nil_append]
  · rw [List.flatten_cons]

/-- From a page that is not empty, before its aborted entries are passed over. -/
theorem walk_load_eq_live_iff (fuel : ℕ) (pages : List (List KeyValuePair)) (hne : ∀ page ∈ pages.head?, page ≠ [])
    (hfuel : pages.flatten.length ≤ fuel) :
    walk aborted fuel (load aborted pages) = BPlusTree.live aborted pages.flatten ↔ Uncut aborted pages := by
  induction fuel generalizing pages with
  | zero =>
    cases pages with
    | nil => simp [walk, BPlusTree.live, Uncut]
    | cons page rest =>
      have hnil : page ++ rest.flatten = [] := List.length_eq_zero_iff.mp (Nat.le_zero.mp hfuel)
      exact absurd (List.append_eq_nil_iff.mp hnil).1 (hne page rfl)
  | succ fuel ih =>
    cases pages with
    | nil => simp [load, walk, BPlusTree.live, Uncut]
    | cons page rest =>
      have hpage : page ≠ [] := hne page rfl
      rw [load, List.flatten_cons, BPlusTree.live_append, ← BPlusTree.live_skipAborted page]
      cases hskip : BPlusTree.skipAborted aborted page with
      | nil =>
        -- the page is aborted as a whole and the walk ends
        have hends := BPlusTree.endsAborted_of_all hpage (BPlusTree.skipAborted_eq_nil.mp hskip)
        rw [uncut_of_ends hends, ← BPlusTree.live_eq_nil]
        exact eq_comm
      | cons x q =>
        have hx : x.timestamp ∉ aborted := by
          intro hab
          exact BPlusTree.not_beginsAborted_skipAborted page ⟨x, by rw [hskip]; rfl, hab⟩
        have hlive : BPlusTree.live aborted (x :: q) ++ BPlusTree.live aborted rest.flatten =
            x :: BPlusTree.live aborted (if q.isEmpty then BPlusTree.skipEmpty rest else q :: rest).flatten := by
          rw [next_flatten, BPlusTree.live_cons_of_live _ hx, BPlusTree.live_append, List.cons_append]
        have hlength : (if q.isEmpty then BPlusTree.skipEmpty rest else q :: rest).flatten.length ≤ fuel := by
          have hsub := (List.dropWhile_sublist (fun e : KeyValuePair => decide (e.timestamp ∈ aborted)) (l := page)).length_le
          rw [BPlusTree.skipAborted] at hskip
          rw [hskip] at hsub
          rw [next_flatten]
          simp only [List.flatten_cons, List.length_append, List.length_cons] at hfuel hsub ⊢
          omega
        have hhead : ∀ page' ∈ (if q.isEmpty then BPlusTree.skipEmpty rest else q :: rest).head?, page' ≠ [] := by
          intro page' hpage'
          split at hpage'
          · cases hskip' : BPlusTree.skipEmpty rest with
            | nil =>
              rw [hskip'] at hpage'
              cases hpage'
            | cons next rest' =>
              rw [hskip'] at hpage'
              cases hpage'
              exact BPlusTree.skipEmpty_cons_ne hskip'
          · next hne =>
            cases hpage'
            exact fun hnil => hne (List.isEmpty_iff.mpr hnil)
        have hends : BPlusTree.EndsAborted aborted (x :: q) ↔ BPlusTree.EndsAborted aborted page := by
          rw [← hskip]
          exact BPlusTree.endsAborted_skipAborted (by rw [hskip]; exact List.cons_ne_nil x q)
        rw [walk, hlive, List.cons.injEq, walkNext, ih _ hhead hlength, uncut_next q rest hx, uncut_congr hends]
        exact and_iff_right rfl

/-- The source yields exactly the entries of the copied leaves that are not aborted, in order, exactly when no such
entry stands behind a leaf that ends with an aborted entry. -/
theorem yields_exact_iff (aborted : List ℕ) (pages : List (List KeyValuePair)) :
    yields aborted pages = BPlusTree.live aborted pages.flatten ↔ Uncut aborted pages := by
  rw [← uncut_skipEmpty pages, ← BPlusTree.skipEmpty_flatten pages]
  unfold yields
  refine walk_load_eq_live_iff _ _ (fun page hpage => ?_) (by rw [BPlusTree.skipEmpty_flatten])
  cases hskip : BPlusTree.skipEmpty pages with
  | nil =>
    rw [hskip] at hpage
    cases hpage
  | cons next rest =>
    rw [hskip] at hpage
    cases hpage
    exact BPlusTree.skipEmpty_cons_ne hskip

/-- An aborted entry at the end of the first leaf: the second leaf is not read. -/
theorem leaf_behind_aborted_lost :
    ¬ ∀ (aborted : List ℕ) (pages : List (List KeyValuePair)),
      yields aborted pages = BPlusTree.live aborted pages.flatten := by
  intro h
  have hyields := h BPlusTree.abortedPair.abortedBatchTs BPlusTree.abortedPair.leaves
  have hleft : (yields BPlusTree.abortedPair.abortedBatchTs BPlusTree.abortedPair.leaves).map KeyValuePair.key = [[1]] := by
    decide +kernel
  have hright : (BPlusTree.live BPlusTree.abortedPair.abortedBatchTs BPlusTree.abortedPair.leaves.flatten).map
      KeyValuePair.key = [[1], [4], [5]] := by
    decide +kernel
  rw [hyields, hright] at hleft
  exact absurd hleft (by decide)

end MaterializedMemTableSource

namespace Engine

variable {P : KeyValuePair → Prop} {behind : ℕ → List (List KeyValuePair)} {e : Engine} {lower upper : RangeBound}

theorem seekForward_subset (lower : RangeBound) (source : List KeyValuePair) : seekForward lower source ⊆ source := by
  unfold seekForward
  split
  · exact fun _ hx => hx
  · exact (List.dropWhile_sublist _).subset

theorem mem_memtableSource {m : MemTable} {x : KeyValuePair} (hx : x ∈ memtableSource lower upper m) :
    x ∈ m.entries ∧ x.timestamp ∉ m.tree.abortedBatchTs := by
  unfold memtableSource at hx
  split at hx
  · cases hx
  · obtain ⟨hx, hlive⟩ := MaterializedMemTableSource.mem_yields (seekForward_subset _ _ (seekForward_subset _ _ hx))
    refine ⟨?_, hlive⟩
    obtain ⟨page, hpage, hx⟩ := List.mem_flatten.mp hx
    rw [MemTable.entries, ← BPlusTree.leaves_flatten]
    exact List.mem_flatten.mpr ⟨page, (List.mem_filter.mp hpage).1, hx⟩

/-! ## Tables -/

section Tables

variable {md : Metadata} {f : SSTableFile} (hfile : e.files md.filepath = some f)
  (hcached : SSTableIterator.CachedFrom f (e.blocksCached md)) (hP : ∀ x ∈ f.entries, P x)
  (hbehind : ∀ b ∈ behind md.filepath, ∀ x ∈ b, P x)

include hfile hcached hP hbehind

theorem viewOf_holds : SSTableIterator.Holds P (viewOf behind e md).blocks (viewOf behind e md).cached := by
  have hholds := hcached.holds (behind md.filepath) hP hbehind
  rw [viewOf, hfile]
  exact hholds

omit hbehind in
theorem openTable_inside : SSTableIterator.Inside P (e.openTable md) := by
  have hholds := hcached.holds [] hP fun _ hb => (by cases hb)
  rw [List.append_nil] at hholds
  rw [openTable, hfile]
  exact SSTableIterator.inside_readNextBlock hholds _ _

theorem tableYields_meet : ∀ x ∈ tableYields behind e md, P x :=
  SSTableIterator.Inside.yields (viewOf_holds hfile hcached hP hbehind) (openTable_inside hfile hcached hP)

theorem tableSought_meet (key : Bytes) : ∀ x ∈ tableSought behind e key md, P x := by
  have hview := viewOf_holds hfile hcached hP hbehind
  unfold tableSought
  split
  · exact SSTableIterator.Inside.yields hview ((openTable_inside hfile hcached hP).seekToKey hview key)
  · exact fun _ hx => (by cases hx)

theorem levelZeroSource_meet (lower : RangeBound) : ∀ x ∈ levelZeroSource behind e lower md, P x := by
  have hview := viewOf_holds hfile hcached hP hbehind
  unfold levelZeroSource
  split
  · exact tableYields_meet hfile hcached hP hbehind
  · next key _ =>
    have hsought := (openTable_inside hfile hcached hP).seekToKey hview key
    simp only []
    split
    · exact SSTableIterator.Inside.yields hview (hsought.seekToKey hview key)
    · exact fun _ hx => (by cases hx)

end Tables

theorem levelSource_meet {files : List Metadata} (hyields : ∀ md ∈ files, ∀ x ∈ tableYields behind e md, P x)
    (hsought : ∀ key, ∀ md ∈ files, ∀ x ∈ tableSought behind e key md, P x) (lower : RangeBound) :
    ∀ x ∈ levelSource behind e lower files, P x := by
  have hmem : ∀ md ∈ files.insertionSort fun a b => a.minKey ≤ b.minKey, md ∈ files :=
    fun md hmd => (List.mem_insertionSort _).mp hmd
  have hmake : LevelIterator.Inside P (tableYields behind e) (LevelIterator.make (tableYields behind e) files) :=
    LevelIterator.inside_openNext fun md hmd => hyields md (hmem md hmd)
  have hrest : ∀ md ∈ (LevelIterator.make (tableYields behind e) files).rest, md ∈ files :=
    fun md hmd => hmem md (LevelIterator.rest_openNext _ hmd)
  unfold levelSource
  simp only []
  split
  · exact hmake.yields
  · next key _ =>
    split
    · have hfirst := hmake.seekToKey key fun md hmd => hsought key md (hrest md hmd)
      refine (hfirst.seekToKey key ?_).yields
      exact fun md hmd => hsought key md (hrest md (LevelIterator.rest_seekToKey _ key hmd))
    · exact fun _ hx => (by cases hx)

/-- A scan yields live versions of the memtables and entries of the tables, apart from what is decoded
behind the files. -/
theorem rangeScan_meet (hkeyed : Keyed (fun _ => True) e) (hfiled : Filed e)
    (hmemtables : ∀ m ∈ e.memtables, ∀ x ∈ m.entries, x.timestamp ∉ m.tree.abortedBatchTs → P x)
    (htables : EachTable (fun _ f => ∀ x ∈ f.entries, P x) e)
    (hbehind : ∀ n, ∀ b ∈ behind n, ∀ x ∈ b, P x) :
    ∀ x ∈ rangeScan behind e lower upper, P x := by
  have htable : ∀ md ∈ e.scanTables lower upper, ∃ f, e.files md.filepath = some f ∧
      SSTableIterator.CachedFrom f (e.blocksCached md) ∧ ∀ x ∈ f.entries, P x := by
    intro md hmd
    have hcat := (List.mem_filter.mp hmd).1
    obtain ⟨f, hfile⟩ := hfiled.files md hcat
    exact ⟨f, hfile, (hkeyed.mono fun _ _ => trivial).cachedFrom hcat hfile, htables md hcat f hfile⟩
  refine RangeIterator.AllMeet.results ?_ _ _ _
  intro source hsource
  simp only [scanSources, List.mem_append, List.mem_map, List.mem_filter, decide_eq_true_eq] at hsource
  rcases hsource with (⟨m, hm, rfl⟩ | ⟨md, ⟨hmd, -⟩, rfl⟩) | ⟨l, -, rfl⟩
  · intro x hx
    obtain ⟨hx, hlive⟩ := mem_memtableSource hx
    refine hmemtables m ?_ x hx hlive
    simpa [Engine.memtables, or_comm] using hm
  · obtain ⟨f, hfile, hcached, hP⟩ := htable md hmd
    exact levelZeroSource_meet hfile hcached hP (hbehind _) lower
  · refine levelSource_meet ?_ ?_ lower
    · intro md hmd
      obtain ⟨f, hfile, hcached, hP⟩ := htable md (List.mem_filter.mp hmd).1
      exact tableYields_meet hfile hcached hP (hbehind _)
    · intro key md hmd
      obtain ⟨f, hfile, hcached, hP⟩ := htable md (List.mem_filter.mp hmd).1
      exact tableSought_meet hfile hcached hP (hbehind _) key

end Engine

end Kvdb
