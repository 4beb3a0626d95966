import Kvdb.SSTable.SeekExact
import Mathlib.Data.List.Sort

/-! # The iterator over the files of a level (`LevelIterator`)

The constructor opens the first file, and `SeekToKey` looks for a file behind the opened ones only: the file that is open
is given up for a later one, and kept as it stands if there is no later one that reaches the key. Every file is opened
once, so that nothing of it is cached before. -/
namespace Kvdb.SSTableBytes
set_option autoImplicit false

open Loop (Ends Yields ends_of_go ends_of_stop yields_of_go yields_of_stop)
open SSTableIterator (below)
open FileIterator (opened optionsOf)

/-- `LevelIterator`: the files from `idx_` on, and the iterator over the file that was opened last. -/
structure LevelIterator where
  rest : List SSTableFile
  current : Option (SSTableFile × FileIterator)

namespace LevelIterator

/-- What an iterator over a file of the level is made with. -/
def fileOptions (reader : Bool) (f : SSTableFile) : Options :=
  { optionsOf f reader true with aborted := f.abortedBatchTs }

/-- `MakeIter`. -/
def makeIter (reader : Bool) (f : SSTableFile) : FileIterator :=
  FileIterator.openFile (fileOptions reader f) (fileBytes f) fun _ => none

/-- `OpenNext`. -/
def openNext (reader : Bool) : List SSTableFile → LevelIterator
  | [] => ⟨[], none⟩
  | f :: fs => if (makeIter reader f).valid then ⟨fs, some (f, makeIter reader f)⟩ else openNext reader fs

/-- The files in the order of their smallest keys. -/
def sortFiles (files : List SSTableFile) : List SSTableFile := files.insertionSort fun a b => a.minKey ≤ b.minKey

/-- The constructor. -/
def make (reader : Bool) (files : List SSTableFile) : LevelIterator := openNext reader (sortFiles files)

/-- `Valid`. -/
def valid (li : LevelIterator) : Bool := li.current.any fun c => c.2.valid

/-- `Current`; it is called on a valid iterator only. -/
def currentPair (li : LevelIterator) : KeyValuePair := (li.current.map fun c => c.2.current).getD ⟨[], [], 0, false⟩

/-- `Next`. -/
def next (reader : Bool) (li : LevelIterator) : LevelIterator :=
  match li.current with
  | none => li
  | some (f, it) =>
    let it' := it.next (fileOptions reader f)
    if it'.valid then ⟨li.rest, some (f, it')⟩ else openNext reader li.rest

/-- `SeekToKey` leaves out the files whose largest key is below the key. -/
def leftOut (key : Bytes) (f : SSTableFile) : Bool := !f.maxKey.isEmpty && decide (f.maxKey < key)

/-- `SeekToKey`; `none` when `fuel` rounds do not end the seek in the file. -/
def seekToKey (reader : Bool) (key : Bytes) (fuel : ℕ) (li : LevelIterator) : Option LevelIterator :=
  match li.rest.dropWhile (leftOut key) with
  | [] => some { li with rest := [] }
  | f :: fs =>
    (if (makeIter reader f).valid then (makeIter reader f).seekToKey (fileOptions reader f) key fuel
      else some (makeIter reader f)).map fun it =>
        if it.valid then ⟨fs, some (f, it)⟩ else openNext reader fs

/-- So many seeks to the same key, the last of which leaves the iterator at `li'`. -/
def SeekTimes (reader : Bool) (key : Bytes) : ℕ → LevelIterator → LevelIterator → Prop
  | 0, li, li' => li' = li
  | n + 1, li, li' => ∃ li₁, (∃ fuel, li.seekToKey reader key fuel = some li₁) ∧ SeekTimes reader key n li₁ li'

/-- `Current`, and `Next` while `Valid`. -/
def drain (reader : Bool) : ℕ → LevelIterator → Option (List KeyValuePair) :=
  Loop.collect valid currentPair (next reader)

/-- The entries of the level in the order of their files. -/
def entries (files : List SSTableFile) : List KeyValuePair := (sortFiles files).flatMap SSTableFile.entries

/-- After so many seeks a new iterator yields the entries of the level from the key on. -/
def SeeksExactly (reader : Bool) (files : List SSTableFile) (key : Bytes) (times : ℕ) : Prop :=
  ∃ li, SeekTimes reader key times (make reader files) li ∧
    ∃ fuel, drain reader fuel li = some ((entries files).filter fun x => !below key x)

/-- The condition on the files in their order: the first file of several has smaller keys only, the seek in the file that
it goes to is exact, and a repeated seek has no later file to go to. A single file begins at the key or behind it. -/
def FilesCondition (reader : Bool) (key : Bytes) (times : ℕ) : List SSTableFile → Prop
  | [] => True
  | [f] => ∀ x ∈ f.entries, below key x = false
  | f :: fs => (∀ x ∈ f.entries, below key x = true) ∧ ∃ g gs, fs.dropWhile (leftOut key) = g :: gs ∧
      FileIterator.SeekCondition g reader true key 1 ∧ (1 < times → gs = [])

def SeekCondition (reader : Bool) (files : List SSTableFile) (key : Bytes) (times : ℕ) : Prop :=
  FilesCondition reader key times (sortFiles files)

/-! ## The files of a level -/

/-- A file as compaction writes it, which is not done without an entry; none of its batches is aborted. -/
structure LevelFile (f : SSTableFile) : Prop where
  wellFormed : f.WellFormed
  limits : Limits f
  nonempty : f.entries ≠ []
  ordered : f.entries.Pairwise fun a b => a.key ≤ b.key
  keyLength : ∀ x ∈ f.entries, x.key.length < 2 ^ 16
  committed : f.abortedBatchTs = []
  range : ∀ x ∈ f.entries, f.minKey ≤ x.key ∧ x.key ≤ f.maxKey
  maxAttained : ∃ x ∈ f.entries, x.key = f.maxKey

/-- The keys of different files do not meet. -/
structure Level (files : List SSTableFile) : Prop where
  each : ∀ f ∈ files, LevelFile f
  disjoint : files.Pairwise fun a b => a.maxKey < b.minKey ∨ b.maxKey < a.minKey

/-- Files one behind the other. -/
def InRow (files : List SSTableFile) : Prop := files.Pairwise fun a b => a.maxKey < b.minKey

variable {reader : Bool} {files fs gs : List SSTableFile} {f g : SSTableFile} {key : Bytes} {li li' : LevelIterator}
  {it : FileIterator}

theorem LevelFile.min_le_max (h : LevelFile f) : f.minKey ≤ f.maxKey := by
  obtain ⟨x, hx, hmax⟩ := h.maxAttained
  exact hmax ▸ (h.range x hx).1

theorem mem_sortFiles : f ∈ sortFiles files ↔ f ∈ files := List.mem_insertionSort _

theorem Level.inRow (h : Level files) : InRow (sortFiles files) := by
  have hsorted : (sortFiles files).Pairwise fun a b => a.minKey ≤ b.minKey := List.pairwise_insertionSort _ _
  have hdisjoint : (sortFiles files).Pairwise fun a b => a.maxKey < b.minKey ∨ b.maxKey < a.minKey :=
    (List.Perm.pairwise_iff (fun h => h.symm) (List.perm_insertionSort _ files)).mpr h.disjoint
  refine (hsorted.and hdisjoint).imp_of_mem fun {a b} _ hb hab => hab.2.resolve_right fun hlt => ?_
  have hle := (h.each b (mem_sortFiles.mp hb)).min_le_max
  exact absurd ((hlt.trans_le hab.1).trans_le hle) (lt_irrefl _)

theorem makeIter_eq (reader : Bool) (h : f.abortedBatchTs = []) : fileOptions reader f = optionsOf f reader true ∧
    makeIter reader f = opened f reader true := by
  have ho : fileOptions reader f = optionsOf f reader true := by
    rw [fileOptions, h]
    rfl
  exact ⟨ho, by rw [makeIter, ho, opened]⟩

theorem openNext_cons (h : LevelFile f) : openNext reader (f :: fs) = ⟨fs, some (f, opened f reader true)⟩ := by
  rw [openNext, (makeIter_eq reader h.committed).2, if_pos (FileIterator.opened_yields reader true h.wellFormed h.limits h.nonempty).1]

/-! ## What is yielded -/

/-- What the open file yields comes first, and then what the next files do. -/
theorem yields_iff (h : f.abortedBatchTs = []) (hvalid : it.valid = true) {xs : List KeyValuePair}
    (hrest : Yields valid currentPair (next reader) (openNext reader fs) xs) (ys : List KeyValuePair) :
    Yields valid currentPair (next reader) ⟨fs, some (f, it)⟩ ys ↔
      ∃ zs, Yields FileIterator.valid FileIterator.current (FileIterator.next (optionsOf f reader true)) it zs ∧
        ys = zs ++ xs := by
  have hnext : ∀ it : FileIterator, next reader ⟨fs, some (f, it)⟩ =
      if (it.next (optionsOf f reader true)).valid then ⟨fs, some (f, it.next (optionsOf f reader true))⟩
      else openNext reader fs := by
    intro it
    rw [← (makeIter_eq reader h).1]
    rfl
  have hgo : ∀ it : FileIterator, valid ⟨fs, some (f, it)⟩ = it.valid := fun it => Option.any_some
  refine ⟨?_, ?_⟩
  · rintro ⟨fuel, hrun⟩
    -- by induction on the rounds of the loop over the level
    induction fuel generalizing it ys with
    | zero => cases hrun
    | succ fuel ih =>
      rw [Loop.collect, hgo, if_pos hvalid] at hrun
      obtain ⟨ys', hys', rfl⟩ := Option.map_eq_some_iff.mp hrun
      rw [hnext] at hys'
      cases hmore : (it.next (optionsOf f reader true)).valid with
      | true =>
        rw [if_pos hmore] at hys'
        obtain ⟨zs, hzs, rfl⟩ := ih hmore ys' hys'
        exact ⟨it.current :: zs, (yields_of_go hvalid).mpr ⟨zs, rfl, hzs⟩, rfl⟩
      | false =>
        rw [if_neg (by simp [hmore])] at hys'
        obtain rfl : ys' = xs := Loop.Yields.unique ⟨fuel, hys'⟩ hrest
        exact ⟨[it.current], (yields_of_go hvalid).mpr ⟨[], rfl, (yields_of_stop hmore).mpr rfl⟩, rfl⟩
  · rintro ⟨zs, ⟨fuel, hrun⟩, rfl⟩
    induction fuel generalizing it zs with
    | zero => cases hrun
    | succ fuel ih =>
      rw [Loop.collect, if_pos hvalid] at hrun
      obtain ⟨zs', hzs', rfl⟩ := Option.map_eq_some_iff.mp hrun
      refine (yields_of_go ((hgo it).trans hvalid)).mpr ⟨zs' ++ xs, rfl, ?_⟩
      rw [hnext]
      cases hmore : (it.next (optionsOf f reader true)).valid with
      | true =>
        rw [if_pos rfl]
        exact ih hmore zs' hzs'
      | false =>
        rw [if_neg Bool.false_ne_true]
        obtain rfl := (yields_of_stop hmore).mp ⟨fuel, hzs'⟩
        exact hrest

theorem openNext_yields (h : ∀ f ∈ fs, LevelFile f) :
    Yields valid currentPair (next reader) (openNext reader fs) (fs.flatMap SSTableFile.entries) := by
  induction fs with
  | nil => exact (yields_of_stop rfl).mpr rfl
  | cons f fs ih =>
    have hf := h f List.mem_cons_self
    obtain ⟨hvalid, hyields⟩ := FileIterator.opened_yields reader true hf.wellFormed hf.limits
      hf.nonempty
    rw [openNext_cons hf]
    exact (yields_iff hf.committed hvalid (ih fun f' hf' => h f' (List.mem_cons_of_mem f hf')) _).mpr ⟨_, hyields, rfl⟩

/-! ## Where a seek goes -/

theorem LevelFile.filter_eq (h : LevelFile f) (key : Bytes) :
    (f.entries.filter fun x => !below key x) = f.entries.dropWhile (below key) := by
  refine (Bisect.dropWhile_eq_filter (h.ordered.imp fun {a b} hab ha => ?_)).symm
  exact decide_eq_false (not_lt.mpr ((not_lt.mp (of_decide_eq_false ha)).trans hab))

theorem filter_of_below (h : ∀ x ∈ f.entries, below key x = true) : (f.entries.filter fun x => !below key x) = [] :=
  List.filter_eq_nil_iff.mpr fun x hx => by simp [h x hx]

theorem filter_of_not_below {es : List KeyValuePair} (h : ∀ x ∈ es, below key x = false) :
    (es.filter fun x => !below key x) = es :=
  List.filter_eq_self.mpr fun x hx => by simp [h x hx]

theorem LevelFile.below_of_leftOut (h : LevelFile f) (hout : leftOut key f = true) : ∀ x ∈ f.entries, below key x = true := by
  rw [leftOut, Bool.and_eq_true, decide_eq_true_eq] at hout
  exact fun x hx => decide_eq_true ((h.range x hx).2.trans_lt hout.2)

/-- A file behind another one that is not left out holds an entry from the key on. -/
theorem LevelFile.reaches (h : LevelFile g) (hmin : f.maxKey < g.minKey) (hout : leftOut key g = false) :
    ∃ x ∈ g.entries, below key x = false := by
  obtain ⟨x, hx, hmax⟩ := h.maxAttained
  refine ⟨x, hx, ?_⟩
  have hne : g.maxKey.isEmpty = false := by
    rw [List.isEmpty_eq_false_iff]
    intro hnil
    have hlt := hmin.trans_le h.min_le_max
    rw [hnil] at hlt
    exact List.not_lt_nil _ hlt
  rw [leftOut, hne, Bool.not_false, Bool.true_and] at hout
  rw [below, hmax]
  exact hout

theorem key_lt_of_maxKey_lt (hf : LevelFile f) (hg : LevelFile g) (hlt : f.maxKey < g.minKey) :
    ∀ x ∈ f.entries, ∀ y ∈ g.entries, x.key < y.key :=
  fun x hx y hy => ((hf.range x hx).2.trans_lt hlt).trans_le (hg.range y hy).1

/-- Behind a file that reaches the key all entries are from the key on. -/
theorem not_below_behind (hg : LevelFile g) (hgs : ∀ f ∈ gs, LevelFile f) (hrow : ∀ f ∈ gs, g.maxKey < f.minKey)
    (hsome : ∃ x ∈ g.entries, below key x = false) : ∀ y ∈ gs.flatMap SSTableFile.entries, below key y = false := by
  intro y hy
  obtain ⟨f, hf, hy⟩ := List.mem_flatMap.mp hy
  obtain ⟨x, hx, hfalse⟩ := hsome
  have hlt := key_lt_of_maxKey_lt hg (hgs f hf) (hrow f hf) x hx y hy
  exact decide_eq_false (not_lt.mpr ((not_lt.mp (of_decide_eq_false hfalse)).trans hlt.le))

/-- Without a later file that reaches the key the iterator stays where it is, and has no file left. -/
theorem seekToKey_stays (h : li.rest.dropWhile (leftOut key) = []) (fuel : ℕ) :
    li.seekToKey reader key fuel = some { li with rest := [] } := by
  rw [seekToKey, h]

/-- The seek goes to the first later file that reaches the key and seeks there. -/
theorem seekToKey_moves (reader : Bool) (hmove : li.rest.dropWhile (leftOut key) = g :: gs) (hg : LevelFile g)
    (hsome : ∃ x ∈ g.entries, below key x = false) :
    ∃ it : FileIterator, it.valid = true ∧ it.current ∈ g.entries ∧
      (∀ li', (∃ fuel, li.seekToKey reader key fuel = some li') ↔ li' = ⟨gs, some (g, it)⟩) ∧
      (Yields FileIterator.valid FileIterator.current (FileIterator.next (optionsOf g reader true)) it
          (g.entries.dropWhile (below key)) ↔ FileIterator.SeekCondition g reader true key 1) := by
  obtain ⟨hvalid, -⟩ := FileIterator.opened_yields reader true hg.wellFormed hg.limits hg.nonempty
  obtain ⟨it, ⟨fuel, hseek⟩, hit, hcurrent⟩ := FileIterator.exists_sought reader true hg.wellFormed hg.limits hg.ordered hg.keyLength hsome
  have hcond := FileIterator.seeksExactly_iff_of_some reader true hg.wellFormed hg.limits
    hg.ordered hg.keyLength hsome Nat.one_pos
  have hstep : ∀ fuel, li.seekToKey reader key fuel =
      ((opened g reader true).seekToKey (optionsOf g reader true) key fuel).map fun it =>
        if it.valid then ⟨gs, some (g, it)⟩ else openNext reader gs := by
    intro fuel
    rw [seekToKey, hmove]
    simp only [(makeIter_eq reader hg.committed).1, (makeIter_eq reader hg.committed).2]
    rw [if_pos hvalid]
  refine ⟨it, hit, hcurrent, fun li' => ⟨?_, ?_⟩, ?_⟩
  · rintro ⟨fuel', hrun⟩
    rw [hstep] at hrun
    obtain ⟨it', hseek', rfl⟩ := Option.map_eq_some_iff.mp hrun
    obtain rfl : it' = it := Ends.unique ⟨fuel', hseek'⟩ ⟨fuel, hseek⟩
    exact if_pos hit
  · rintro rfl
    exact ⟨fuel, by rw [hstep, hseek, Option.map_some, if_pos hit]⟩
  · have htimes : FileIterator.SeekTimes (optionsOf g reader true) key 1 (opened g reader true) it :=
      ⟨it, ⟨fuel, hseek⟩, rfl⟩
    rw [← hcond]
    exact (FileIterator.seeksExactly_of_seekTimes hg.wellFormed hg.limits htimes).symm

theorem seekTimes_stays (h : li.rest = []) (n : ℕ) : SeekTimes reader key n li li' ↔ li' = li := by
  have hsame : ({ li with rest := [] } : LevelIterator) = li := by rw [← h]
  have hstep : ∀ fuel, li.seekToKey reader key fuel = some li := by
    intro fuel
    rw [seekToKey_stays (by rw [h]; rfl), hsame]
  induction n with
  | zero => exact Iff.rfl
  | succ n ih =>
    refine ⟨?_, fun heq => ⟨li, ⟨0, hstep 0⟩, ih.mpr heq⟩⟩
    rintro ⟨li₁, ⟨fuel, hrun⟩, hrest⟩
    rw [hstep] at hrun
    obtain rfl := Option.some.inj hrun
    exact ih.mp hrest

/-! ## Seeks that go on to later files -/

/-- The iterator stands at an entry of one of the files. -/
structure Inside (files : List SSTableFile) (li : LevelIterator) : Prop where
  current : ∃ f ∈ files, ∃ it : FileIterator, li.current = some (f, it) ∧ it.valid = true ∧ it.current ∈ f.entries
  rest : li.rest ⊆ files

theorem Inside.valid (h : Inside files li) : li.valid = true ∧ ∃ f ∈ files, li.currentPair ∈ f.entries := by
  obtain ⟨f, hf, it, hcurrent, hvalid, hentry⟩ := h.current
  refine ⟨?_, f, hf, ?_⟩
  · rw [LevelIterator.valid, hcurrent, Option.any_some, hvalid]
  · rw [currentPair, hcurrent]
    exact hentry

section Further

variable (hfiles : ∀ f ∈ files, LevelFile f) (hall : ∀ y ∈ files.flatMap SSTableFile.entries, below key y = false)

include hfiles hall

/-- A seek goes to the next of files that hold no entry below the key. -/
theorem inside_of_seek (hsub : li.rest ⊆ files) (hrest : li.rest = g :: gs)
    (hseek : ∃ fuel, li.seekToKey reader key fuel = some li') : Inside files li' := by
  rw [hrest, List.cons_subset] at hsub
  have hg := hfiles g hsub.1
  have hentries : ∀ x ∈ g.entries, below key x = false := fun x hx => hall x (List.mem_flatMap.mpr ⟨g, hsub.1, hx⟩)
  have hout : leftOut key g = false := by
    obtain ⟨x, hx, hmax⟩ := hg.maxAttained
    have hfalse := hentries x hx
    rw [below, hmax] at hfalse
    rw [leftOut, hfalse, Bool.and_false]
  have hmove : li.rest.dropWhile (leftOut key) = g :: gs := by
    rw [hrest, List.dropWhile_cons_of_neg (by simp [hout])]
  obtain ⟨x, hx⟩ := List.exists_mem_of_ne_nil _ hg.nonempty
  obtain ⟨it, hvalid, hcurrent, hto, -⟩ := seekToKey_moves reader hmove hg ⟨x, hx, hentries x hx⟩
  obtain rfl := (hto li').mp hseek
  exact ⟨⟨g, hsub.1, it, rfl, hvalid, hcurrent⟩, hsub.2⟩

theorem Inside.seek (h : Inside files li) (hseek : ∃ fuel, li.seekToKey reader key fuel = some li') :
    Inside files li' := by
  cases hrest : li.rest with
  | nil =>
    obtain ⟨fuel, hrun⟩ := hseek
    rw [seekToKey_stays (by rw [hrest]; rfl)] at hrun
    obtain rfl := Option.some.inj hrun
    exact ⟨h.current, List.nil_subset files⟩
  | cons g gs => exact inside_of_seek hfiles hall h.rest hrest hseek

theorem Inside.seekTimes (n : ℕ) (h : Inside files li) (hseeks : SeekTimes reader key n li li') : Inside files li' := by
  induction n generalizing li with
  | zero =>
    rw [SeekTimes] at hseeks
    exact hseeks ▸ h
  | succ n ih =>
    obtain ⟨li₁, hseek, hrest⟩ := hseeks
    exact ih (h.seek hfiles hall hseek) hrest

end Further

/-! ## When seeks are exact -/

theorem mem_of_dropWhile {p : SSTableFile → Bool} (hmove : fs.dropWhile p = g :: gs) :
    ∃ pre, fs = pre ++ g :: gs ∧ ∀ f ∈ pre, p f = true :=
  ⟨fs.takeWhile p, by rw [← hmove, List.takeWhile_append_dropWhile], fun _ hf => List.mem_takeWhile_imp hf⟩

theorem InRow.split (hrow : InRow (f :: fs)) (hmove : fs.dropWhile (leftOut key) = g :: gs) :
    f.maxKey < g.minKey ∧ (∀ h ∈ gs, g.maxKey < h.minKey) ∧ leftOut key g = false := by
  obtain ⟨hf, hfs⟩ := List.pairwise_cons.mp hrow
  have hsub : (g :: gs).Sublist fs := hmove ▸ List.dropWhile_sublist _
  refine ⟨hf g (hsub.subset List.mem_cons_self), (List.pairwise_cons.mp (hfs.sublist hsub)).1, ?_⟩
  have hhead := List.head?_dropWhile_not (leftOut key) fs
  rw [hmove] at hhead
  simpa using hhead

section Row

variable (hrow : InRow (f :: fs)) (hfiles : ∀ f' ∈ f :: fs, LevelFile f') (hmove : fs.dropWhile (leftOut key) = g :: gs)

include hfiles hmove

/-- What is sought: what the first file and the file of the seek hold from the key on, and all later files. -/
theorem filter_entries_eq (hgs : ∀ y ∈ gs.flatMap SSTableFile.entries, below key y = false) :
    (((f :: fs).flatMap SSTableFile.entries).filter fun x => !below key x) =
      (f.entries.filter fun x => !below key x) ++ (g.entries.dropWhile (below key) ++ gs.flatMap SSTableFile.entries) := by
  obtain ⟨pre, rfl, hpre⟩ := mem_of_dropWhile hmove
  have hg := hfiles g (by simp)
  have hnone : ((pre.flatMap SSTableFile.entries).filter fun x => !below key x) = [] := by
    rw [List.filter_eq_nil_iff]
    intro x hx
    obtain ⟨f', hf', hx⟩ := List.mem_flatMap.mp hx
    have hbelow := (hfiles f' (by simp [hf'])).below_of_leftOut (hpre f' hf') x hx
    simp [hbelow]
  rw [List.flatMap_cons, List.flatMap_append, List.flatMap_cons, List.filter_append, List.filter_append,
    List.filter_append, hnone, hg.filter_eq, filter_of_not_below hgs, List.nil_append]

include hrow

/-- The file of the seek is the one with the first entry from the key on, and the seek there is exact. -/
theorem yields_sought_iff (hvalid : it.valid = true) (hcurrent : it.current ∈ g.entries)
    (hexact : Yields FileIterator.valid FileIterator.current (FileIterator.next (optionsOf g reader true)) it
      (g.entries.dropWhile (below key)) ↔ FileIterator.SeekCondition g reader true key 1) :
    Yields valid currentPair (next reader) ⟨gs, some (g, it)⟩
        (((f :: fs).flatMap SSTableFile.entries).filter fun x => !below key x) ↔
      (∀ x ∈ f.entries, below key x = true) ∧ FileIterator.SeekCondition g reader true key 1 := by
  obtain ⟨hmin, hbehind, hout⟩ := hrow.split hmove
  have hsub : (g :: gs).Sublist fs := hmove ▸ List.dropWhile_sublist _
  have hf := hfiles f List.mem_cons_self
  have hg := hfiles g (List.mem_cons_of_mem f (hsub.subset List.mem_cons_self))
  have hgs : ∀ h ∈ gs, LevelFile h :=
    fun h hh => hfiles h (List.mem_cons_of_mem f (hsub.subset (List.mem_cons_of_mem g hh)))
  rw [filter_entries_eq hfiles hmove (not_below_behind hg hgs hbehind (hg.reaches hmin hout)),
    yields_iff hg.committed hvalid (openNext_yields hgs), ← hexact, ← List.append_assoc]
  refine ⟨?_, ?_⟩
  · rintro ⟨ys, hys, heq⟩
    obtain rfl := List.append_cancel_right heq
    obtain ⟨zs, hzs, -⟩ := (yields_of_go hvalid).mp hys
    have hnone : (f.entries.filter fun x => !below key x) = [] := by
      by_contra hne
      obtain ⟨x, xs, hxs⟩ := List.exists_cons_of_ne_nil hne
      rw [hxs, List.cons_append] at hzs
      have hx : x ∈ f.entries := (List.mem_filter.mp (hxs ▸ List.mem_cons_self)).1
      rw [(List.cons.inj hzs).1] at hx
      exact absurd (key_lt_of_maxKey_lt hf hg hmin _ hx _ hcurrent) (lt_irrefl _)
    refine ⟨fun x hx => ?_, by rwa [hnone, List.nil_append] at hys⟩
    simpa using List.filter_eq_nil_iff.mp hnone x hx
  · rintro ⟨hall, hys⟩
    exact ⟨_, hys, by rw [filter_of_below hall, List.nil_append]⟩

/-- An iterator that has gone on to a later file has lost an entry. -/
theorem not_yields_inside (h : Inside gs li) : ¬ Yields valid currentPair (next reader) li
    (((f :: fs).flatMap SSTableFile.entries).filter fun x => !below key x) := by
  obtain ⟨hmin, hbehind, hout⟩ := hrow.split hmove
  have hsub : (g :: gs).Sublist fs := hmove ▸ List.dropWhile_sublist _
  have hf := hfiles f List.mem_cons_self
  have hg := hfiles g (List.mem_cons_of_mem f (hsub.subset List.mem_cons_self))
  have hgs : ∀ h ∈ gs, LevelFile h :=
    fun h hh => hfiles h (List.mem_cons_of_mem f (hsub.subset (List.mem_cons_of_mem g hh)))
  have hsome := hg.reaches hmin hout
  rw [filter_entries_eq hfiles hmove (not_below_behind hg hgs hbehind hsome), ← List.append_assoc]
  intro hys
  obtain ⟨hvalid, f', hf', hcurrent⟩ := h.valid
  obtain ⟨zs, hzs, -⟩ := (yields_of_go hvalid).mp hys
  -- what is yielded first stands before all entries of the later files
  have hne : (f.entries.filter fun x => !below key x) ++ g.entries.dropWhile (below key) ≠ [] := by
    obtain ⟨x, hx, hfalse⟩ := hsome
    intro hnil
    have hall := List.dropWhile_eq_nil_iff.mp (List.append_eq_nil_iff.mp hnil).2 x hx
    rw [hfalse] at hall
    cases hall
  obtain ⟨x, xs, hxs⟩ := List.exists_cons_of_ne_nil hne
  rw [hxs, List.cons_append] at hzs
  rw [← (List.cons.inj hzs).1] at hcurrent
  have hx : x ∈ f.entries ∨ x ∈ g.entries := by
    have hmem := List.mem_append.mp (hxs ▸ List.mem_cons_self : x ∈ _ ++ _)
    exact hmem.imp (fun hx => (List.mem_filter.mp hx).1) fun hx => (List.dropWhile_sublist _).subset hx
  have hrow' := (List.pairwise_cons.mp hrow).1 f' (hsub.subset (List.mem_cons_of_mem g hf'))
  rcases hx with hx | hx
  · exact absurd (key_lt_of_maxKey_lt hf (hgs f' hf') hrow' x hx x hcurrent) (lt_irrefl _)
  · exact absurd (key_lt_of_maxKey_lt hg (hgs f' hf') (hbehind f' hf') x hx x hcurrent) (lt_irrefl _)

end Row

theorem filesCondition_cons (times : ℕ) : FilesCondition reader key times (f :: g :: gs) ↔
    (∀ x ∈ f.entries, below key x = true) ∧ ∃ g' gs', (g :: gs).dropWhile (leftOut key) = g' :: gs' ∧
      FileIterator.SeekCondition g' reader true key 1 ∧ (1 < times → gs' = []) := Iff.rfl

/-- Seeks over files in a row. -/
theorem seeks_row_iff (hrow : InRow files) (hfiles : ∀ f ∈ files, LevelFile f) {times : ℕ} (htimes : 0 < times) :
    (∃ li, SeekTimes reader key times (openNext reader files) li ∧
        Yields valid currentPair (next reader) li ((files.flatMap SSTableFile.entries).filter fun x => !below key x)) ↔
      FilesCondition reader key times files := by
  obtain ⟨n, rfl⟩ := Nat.exists_eq_succ_of_ne_zero (Nat.ne_of_gt htimes)
  cases files with
  | nil => exact ⟨fun _ => trivial, fun _ => ⟨_, (seekTimes_stays rfl _).mpr rfl, (yields_of_stop rfl).mpr rfl⟩⟩
  | cons f fs =>
    have hf := hfiles f List.mem_cons_self
    have hopened := FileIterator.opened_yields reader true hf.wellFormed hf.limits hf.nonempty
    rw [openNext_cons hf]
    cases hmove : fs.dropWhile (leftOut key) with
    | nil =>
      -- the first file stays open, and the later ones are given up
      have hyields : Yields valid currentPair (next reader) ⟨[], some (f, opened f reader true)⟩ f.entries :=
        (yields_iff hf.committed hopened.1 (openNext_yields (fun _ h => absurd h List.not_mem_nil)) _).mpr
          ⟨_, hopened.2, (List.append_nil _).symm⟩
      have hseek : ∀ li, SeekTimes reader key (n + 1) ⟨fs, some (f, opened f reader true)⟩ li ↔
          li = ⟨[], some (f, opened f reader true)⟩ := by
        intro li
        have hstays : ∀ fuel, LevelIterator.seekToKey reader key fuel ⟨fs, some (f, opened f reader true)⟩ =
            some ⟨[], some (f, opened f reader true)⟩ := fun fuel => seekToKey_stays hmove fuel
        rw [SeekTimes]
        simp only [hstays, exists_const]
        refine ⟨?_, fun heq => ⟨_, rfl, (seekTimes_stays rfl n).mpr heq⟩⟩
        rintro ⟨li₁, heq, hrest⟩
        obtain rfl := Option.some.inj heq
        exact (seekTimes_stays rfl n).mp hrest
      simp only [hseek, exists_eq_left]
      cases fs with
      | nil =>
        rw [List.flatMap_singleton]
        refine ⟨fun h => ?_, fun h => ?_⟩
        · have heq := Loop.Yields.unique hyields h
          have hall := List.filter_eq_self.mp heq.symm
          exact fun x hx => by simpa using hall x hx
        · rw [filter_of_not_below h]
          exact hyields
      | cons g gs =>
        -- all files end below the key, and the first one is not empty
        have hbelow : ∀ h ∈ f :: g :: gs, ∀ x ∈ h.entries, below key x = true := by
          have hout : ∀ h ∈ g :: gs, leftOut key h = true := List.dropWhile_eq_nil_iff.mp hmove
          have hg := hfiles g (by simp)
          obtain ⟨y, hy⟩ := List.exists_mem_of_ne_nil _ hg.nonempty
          have hlt := key_lt_of_maxKey_lt hf hg ((List.pairwise_cons.mp hrow).1 g List.mem_cons_self)
          intro h hh x hx
          rcases List.mem_cons.mp hh with rfl | hh
          · have hby := hg.below_of_leftOut (hout g List.mem_cons_self) y hy
            exact decide_eq_true ((hlt x hx y hy).trans (of_decide_eq_true hby))
          · exact (hfiles h (List.mem_cons_of_mem f hh)).below_of_leftOut (hout h hh) x hx
        have hnone : (((f :: g :: gs).flatMap SSTableFile.entries).filter fun x => !below key x) = [] := by
          rw [List.filter_eq_nil_iff]
          intro x hx
          obtain ⟨h, hh, hx⟩ := List.mem_flatMap.mp hx
          simp [hbelow h hh x hx]
        rw [hnone, filesCondition_cons, hmove]
        refine ⟨fun h => absurd (Loop.Yields.unique hyields h) hf.nonempty, ?_⟩
        rintro ⟨-, _, _, hnil, -⟩
        cases hnil
    | cons g gs =>
      obtain ⟨hmin, hbehind, hout⟩ := hrow.split hmove
      have hsub : (g :: gs).Sublist fs := hmove ▸ List.dropWhile_sublist _
      have hg := hfiles g (List.mem_cons_of_mem f (hsub.subset List.mem_cons_self))
      have hgs : ∀ h ∈ gs, LevelFile h :=
        fun h hh => hfiles h (List.mem_cons_of_mem f (hsub.subset (List.mem_cons_of_mem g hh)))
      have hsome := hg.reaches hmin hout
      have hall := not_below_behind hg hgs hbehind hsome
      have hrest : (⟨fs, some (f, opened f reader true)⟩ : LevelIterator).rest.dropWhile (leftOut key) = g :: gs := hmove
      obtain ⟨it, hvalid, hcurrent, hto, hexact⟩ := seekToKey_moves reader hrest hg hsome
      have hyields := yields_sought_iff hrow hfiles hmove hvalid hcurrent hexact
      have hcond : FilesCondition reader key (n + 1) (f :: fs) ↔ ((∀ x ∈ f.entries, below key x = true) ∧
          FileIterator.SeekCondition g reader true key 1) ∧ (1 < n + 1 → gs = []) := by
        obtain ⟨g', fs', rfl⟩ := List.exists_cons_of_ne_nil (show fs ≠ [] by
          rintro rfl
          cases hmove)
        rw [filesCondition_cons, hmove, and_assoc]
        refine and_congr_right fun _ => ⟨?_, fun h => ⟨g, gs, rfl, h⟩⟩
        rintro ⟨_, _, heq, h⟩
        obtain ⟨rfl, rfl⟩ := List.cons.inj heq
        exact h
      rw [hcond, ← hyields]
      refine ⟨?_, ?_⟩
      · rintro ⟨li, ⟨li₁, hseek, hseeks⟩, hys⟩
        obtain rfl := (hto li₁).mp hseek
        cases gs with
        | nil =>
          obtain rfl := (seekTimes_stays rfl n).mp hseeks
          exact ⟨hys, fun _ => rfl⟩
        | cons g' gs' =>
          cases n with
          | zero =>
            rw [SeekTimes] at hseeks
            exact ⟨hseeks ▸ hys, fun h => absurd h (lt_irrefl 1)⟩
          | succ n =>
            -- the second seek leaves the file
            obtain ⟨li₂, hseek₂, hseeks⟩ := hseeks
            exact absurd hys (not_yields_inside hrow hfiles hmove
              ((inside_of_seek hgs hall (List.Subset.refl _) rfl hseek₂).seekTimes hgs hall n hseeks))
      · rintro ⟨hys, hlast⟩
        refine ⟨_, ⟨_, (hto _).mpr rfl, ?_⟩, hys⟩
        cases n with
        | zero => rfl
        | succ n =>
          obtain rfl := hlast (by omega)
          exact (seekTimes_stays rfl _).mpr rfl

theorem entries_perm (files : List SSTableFile) : (entries files).Perm (files.flatMap SSTableFile.entries) :=
  (List.perm_insertionSort _ files).flatMap_right _

theorem InRow.entries_pairwise (hrow : InRow files) (hfiles : ∀ f ∈ files, LevelFile f) :
    (files.flatMap SSTableFile.entries).Pairwise fun a b => a.key ≤ b.key := by
  induction files with
  | nil => exact .nil
  | cons f fs ih =>
    obtain ⟨hf, hfs⟩ := List.pairwise_cons.mp hrow
    rw [List.flatMap_cons, List.pairwise_append]
    refine ⟨(hfiles f List.mem_cons_self).ordered, ih hfs fun f' hf' => hfiles f' (List.mem_cons_of_mem f hf'), ?_⟩
    intro x hx y hy
    obtain ⟨g, hg, hy⟩ := List.mem_flatMap.mp hy
    exact (key_lt_of_maxKey_lt (hfiles f List.mem_cons_self) (hfiles g (List.mem_cons_of_mem f hg)) (hf g hg) x hx y hy).le

def fileOf (es : List KeyValuePair) : SSTableFile := SSTableFile.write (fun _ => (64, 1)) es []

/-- Two files with two keys each. -/
def twoFiles : List SSTableFile :=
  [fileOf [⟨[3], [], 1, false⟩, ⟨[4], [], 1, false⟩], fileOf [⟨[1], [], 1, false⟩, ⟨[2], [], 1, false⟩]]

theorem twoFiles_level : Level twoFiles := by
  refine ⟨fun f hf => ?_, by decide⟩
  rw [twoFiles, List.mem_cons, List.mem_singleton] at hf
  rcases hf with rfl | rfl
  · exact ⟨SSTableFile.write_wellFormed _ _ _, ⟨by decide, by decide, by decide⟩, by decide, by decide, by decide, rfl,
      by decide, by decide⟩
  · exact ⟨SSTableFile.write_wellFormed _ _ _, ⟨by decide, by decide, by decide⟩, by decide, by decide, by decide, rfl,
      by decide, by decide⟩

end LevelIterator

end Kvdb.SSTableBytes
