import Kvdb.MemTable.Order
import Mathlib.Data.List.TakeWhile

/-! # The walk over aborted entries (`BPlusTree::MemTableWalk`)

The constructor and `Next` pass over the aborted entries of the page they stand on. When these fill the page to its
end they go on to the next one and stand at its first entry, which is not tested again. So the walk is exact as long
as a page that ends with an aborted entry is not followed by one that begins with an aborted entry. The constructor
also takes the next page without a test for an empty one. -/
namespace Kvdb.BPlusTree
set_option autoImplicit false

variable {aborted : List ℕ}

/-- The entries whose batch is not aborted. -/
def live (aborted : List ℕ) (es : List KeyValuePair) : List KeyValuePair :=
  es.filter fun x => !decide (x.timestamp ∈ aborted)

theorem mem_live {es : List KeyValuePair} {x : KeyValuePair} :
    x ∈ live aborted es ↔ x ∈ es ∧ x.timestamp ∉ aborted := by
  simp [live]

theorem live_append (as bs : List KeyValuePair) : live aborted (as ++ bs) = live aborted as ++ live aborted bs :=
  List.filter_append as bs

theorem live_cons_of_live {x : KeyValuePair} (es : List KeyValuePair) (h : x.timestamp ∉ aborted) :
    live aborted (x :: es) = x :: live aborted es := by
  simp [live, h]

theorem live_eq_nil {es : List KeyValuePair} : live aborted es = [] ↔ ∀ x ∈ es, x.timestamp ∈ aborted := by
  simp [live]

/-- A page whose first, or whose last, entry is aborted. -/
def BeginsAborted (aborted : List ℕ) (page : List KeyValuePair) : Prop := ∃ x ∈ page.head?, x.timestamp ∈ aborted
def EndsAborted (aborted : List ℕ) (page : List KeyValuePair) : Prop := ∃ x ∈ page.getLast?, x.timestamp ∈ aborted

/-! ## What is passed over in a page -/

theorem live_skipAborted (page : List KeyValuePair) : live aborted (skipAborted aborted page) = live aborted page := by
  induction page with
  | nil => rfl
  | cons x page ih =>
    by_cases hx : x.timestamp ∈ aborted
    · have hskip : skipAborted aborted (x :: page) = skipAborted aborted page := by simp [skipAborted, hx]
      have hlive : live aborted (x :: page) = live aborted page := by simp [live, hx]
      rw [hskip, hlive, ih]
    · have hskip : skipAborted aborted (x :: page) = x :: page := by simp [skipAborted, hx]
      rw [hskip]

theorem skipAborted_eq_nil {page : List KeyValuePair} :
    skipAborted aborted page = [] ↔ ∀ x ∈ page, x.timestamp ∈ aborted := by
  simp [skipAborted, List.dropWhile_eq_nil_iff]

theorem not_beginsAborted_skipAborted (page : List KeyValuePair) :
    ¬ BeginsAborted aborted (skipAborted aborted page) := by
  rintro ⟨x, hx, hab⟩
  have hstop := List.head?_dropWhile_not (fun y : KeyValuePair => decide (y.timestamp ∈ aborted)) page
  rw [skipAborted] at hx
  rw [hx] at hstop
  simp [hab] at hstop

/-- The rest of a page ends as the page does. -/
theorem endsAborted_skipAborted {page : List KeyValuePair} (h : skipAborted aborted page ≠ []) :
    EndsAborted aborted (skipAborted aborted page) ↔ EndsAborted aborted page := by
  have hsplit : page.takeWhile (fun e => decide (e.timestamp ∈ aborted)) ++ skipAborted aborted page = page :=
    List.takeWhile_append_dropWhile
  have hlast : (skipAborted aborted page).getLast? = page.getLast? := by
    conv_rhs => rw [← hsplit]
    rw [List.getLast?_append_of_ne_nil _ h]
  unfold EndsAborted
  rw [hlast]

theorem endsAborted_cons {x : KeyValuePair} {page : List KeyValuePair} (h : page ≠ []) :
    EndsAborted aborted (x :: page) ↔ EndsAborted aborted page := by
  unfold EndsAborted
  rw [List.getLast?_cons_of_ne_nil h]

theorem endsAborted_of_all {page : List KeyValuePair} (hne : page ≠ []) (h : ∀ x ∈ page, x.timestamp ∈ aborted) :
    EndsAborted aborted page :=
  ⟨page.getLast hne, List.getLast?_eq_some_getLast hne, h _ (List.getLast_mem hne)⟩

/-! ## Pages that are not empty -/

def nonEmpty (pages : List (List KeyValuePair)) : List (List KeyValuePair) := pages.filter fun page => !page.isEmpty

theorem nonEmpty_cons {page : List KeyValuePair} (pages : List (List KeyValuePair)) (h : page ≠ []) :
    nonEmpty (page :: pages) = page :: nonEmpty pages := by
  simp [nonEmpty, h]

theorem nonEmpty_skipEmpty (pages : List (List KeyValuePair)) : nonEmpty (skipEmpty pages) = nonEmpty pages := by
  induction pages with
  | nil => rfl
  | cons page pages ih =>
    cases page with
    | nil => exact ih
    | cons x page => rfl

/-- A page that ends with an aborted entry is not followed by one that begins with an aborted entry. -/
def Separated (aborted : List ℕ) (pages : List (List KeyValuePair)) : Prop :=
  (nonEmpty pages).IsChain fun page next => EndsAborted aborted page → ¬ BeginsAborted aborted next

theorem separated_skipEmpty (pages : List (List KeyValuePair)) :
    Separated aborted (skipEmpty pages) ↔ Separated aborted pages := by
  unfold Separated
  rw [nonEmpty_skipEmpty]

/-- Only the last entry of the first page matters. -/
theorem separated_congr {page page' : List KeyValuePair} {rest : List (List KeyValuePair)} (hne : page ≠ [])
    (hne' : page' ≠ []) (h : EndsAborted aborted page ↔ EndsAborted aborted page') :
    Separated aborted (page :: rest) ↔ Separated aborted (page' :: rest) := by
  unfold Separated
  rw [nonEmpty_cons rest hne, nonEmpty_cons rest hne']
  cases nonEmpty rest with
  | nil => simp
  | cons next rest => simp [h]

theorem separated_of_not_ends {page : List KeyValuePair} {rest : List (List KeyValuePair)}
    (h : ¬ EndsAborted aborted page) : Separated aborted (page :: rest) ↔ Separated aborted rest := by
  cases page with
  | nil => rfl
  | cons x page =>
    unfold Separated
    rw [nonEmpty_cons rest (by simp)]
    cases nonEmpty rest with
    | nil => simp
    | cons next rest => simp [h]

/-- Behind a page that ends with an aborted entry. -/
theorem separated_of_ends {page : List KeyValuePair} {rest : List (List KeyValuePair)} (hne : page ≠ [])
    (h : EndsAborted aborted page) :
    Separated aborted (page :: rest) ↔
      (∀ next ∈ (skipEmpty rest).head?, ¬ BeginsAborted aborted next) ∧ Separated aborted (skipEmpty rest) := by
  rw [separated_skipEmpty]
  unfold Separated
  rw [nonEmpty_cons rest hne, ← nonEmpty_skipEmpty rest]
  cases hskip : skipEmpty rest with
  | nil => simp [nonEmpty]
  | cons next rest' =>
    rw [nonEmpty_cons rest' (skipEmpty_cons_ne hskip)]
    simp [h]

/-! ## The walk from an entry -/

/-- The walk stands at an entry that is not aborted, and is exact from there on. -/
def Standing (aborted : List ℕ) (pages : List (List KeyValuePair)) : Prop :=
  (∀ page ∈ pages.head?, ¬ BeginsAborted aborted page) ∧ Separated aborted pages

/-- How `Next` goes on from a page: past its aborted entries, or to the page behind it. -/
def enter (aborted : List ℕ) (pages : List (List KeyValuePair)) : List (List KeyValuePair) :=
  match pages with
  | [] => []
  | page :: rest => if (skipAborted aborted page).isEmpty then skipEmpty rest else skipAborted aborted page :: rest

theorem walkNext_eq (page : List KeyValuePair) (rest : List (List KeyValuePair)) :
    walkNext aborted (page :: rest) = enter aborted (if page.isEmpty then skipEmpty rest else page :: rest) := rfl

theorem live_enter (pages : List (List KeyValuePair)) :
    live aborted (enter aborted pages).flatten = live aborted pages.flatten := by
  cases pages with
  | nil => rfl
  | cons page rest =>
    rw [enter, List.flatten_cons, live_append, ← live_skipAborted page]
    split
    · next hskip =>
      rw [List.isEmpty_iff.mp hskip, skipEmpty_flatten]
      rfl
    · rw [List.flatten_cons, live_append]

theorem standing_enter {pages : List (List KeyValuePair)} (hne : ∀ page ∈ pages.head?, page ≠ []) :
    Standing aborted (enter aborted pages) ↔ Separated aborted pages := by
  cases pages with
  | nil => simp [Standing, enter]
  | cons page rest =>
    have hpage : page ≠ [] := hne page rfl
    rw [enter]
    split
    · next hskip =>
      have hall := skipAborted_eq_nil.mp (List.isEmpty_iff.mp hskip)
      exact (separated_of_ends hpage (endsAborted_of_all hpage hall)).symm
    · next hskip =>
      have hrest : skipAborted aborted page ≠ [] := fun hnil => hskip (List.isEmpty_iff.mpr hnil)
      rw [← separated_congr hrest hpage (endsAborted_skipAborted hrest)]
      refine ⟨fun h => h.2, fun h => ⟨?_, h⟩⟩
      intro page' hpage'
      cases hpage'
      exact not_beginsAborted_skipAborted page

theorem enter_head_ne (pages : List (List KeyValuePair)) : ∀ page ∈ (enter aborted pages).head?, page ≠ [] := by
  intro page hpage
  cases pages with
  | nil => cases hpage
  | cons page' rest =>
    rw [enter] at hpage
    split at hpage
    · cases hskip : skipEmpty rest with
      | nil =>
        rw [hskip] at hpage
        cases hpage
      | cons next rest' =>
        rw [hskip] at hpage
        cases hpage
        exact skipEmpty_cons_ne hskip
    · next hne =>
      cases hpage
      exact fun hnil => hne (List.isEmpty_iff.mpr hnil)

/-- Behind an entry that is not aborted `Next` stands well exactly when the pages are separated. -/
theorem standing_walkNext {x : KeyValuePair} (page : List KeyValuePair) (rest : List (List KeyValuePair))
    (hx : x.timestamp ∉ aborted) :
    Standing aborted (walkNext aborted (page :: rest)) ↔ Separated aborted ((x :: page) :: rest) := by
  rw [walkNext_eq]
  cases page with
  | nil =>
    have hends : ¬ EndsAborted aborted [x] := by
      rintro ⟨y, hy, hab⟩
      cases hy
      exact hx hab
    rw [if_pos List.isEmpty_nil, standing_enter fun page hpage => ?_, separated_skipEmpty, separated_of_not_ends hends]
    cases hskip : skipEmpty rest with
    | nil =>
      rw [hskip] at hpage
      cases hpage
    | cons next rest' =>
      rw [hskip] at hpage
      cases hpage
      exact skipEmpty_cons_ne hskip
  | cons y page =>
    have hne : y :: page ≠ [] := List.cons_ne_nil y page
    rw [if_neg (by simp), standing_enter (fun page' hpage' => by cases hpage'; exact hne)]
    exact (separated_congr (List.cons_ne_nil x _) hne (endsAborted_cons hne)).symm

theorem live_walkNext (page : List KeyValuePair) (rest : List (List KeyValuePair)) :
    live aborted (walkNext aborted (page :: rest)).flatten = live aborted (page :: rest).flatten := by
  rw [walkNext_eq, live_enter]
  split
  · next hnil =>
    rw [skipEmpty_flatten, List.isEmpty_iff.mp hnil]
    rfl
  · rfl

/-- From a page that is not empty the walk yields the live entries exactly when it stands well. -/
theorem walkList_eq_live_iff (fuel : ℕ) (pages : List (List KeyValuePair)) (hne : ∀ page ∈ pages.head?, page ≠ [])
    (hfuel : pages.flatten.length ≤ fuel) :
    walkList aborted fuel pages = live aborted pages.flatten ↔ Standing aborted pages := by
  induction fuel generalizing pages with
  | zero =>
    cases pages with
    | nil => simp [walkList, live, Standing, Separated, nonEmpty]
    | cons page rest =>
      have hnil : page ++ rest.flatten = [] := List.length_eq_zero_iff.mp (Nat.le_zero.mp hfuel)
      exact absurd (List.append_eq_nil_iff.mp hnil).1 (hne page rfl)
  | succ fuel ih =>
    rcases pages with _ | ⟨_ | ⟨x, page⟩, rest⟩
    · simp [walkList, live, Standing, Separated, nonEmpty]
    · exact absurd rfl (hne [] rfl)
    · have hlength : (walkNext aborted (page :: rest)).flatten.length ≤ fuel := by
        have hsub := (walkNext_sublist aborted (page :: rest)).length_le
        simp only [List.flatten_cons, List.length_append, List.length_cons] at hfuel hsub
        omega
      have hnext : ∀ page' ∈ (walkNext aborted (page :: rest)).head?, page' ≠ [] := by
        rw [walkNext_eq]
        exact enter_head_ne _
      rw [walkList, List.flatten_cons, List.cons_append]
      by_cases hx : x.timestamp ∈ aborted
      · -- an aborted entry is yielded, and the walk is wrong whatever follows
        refine ⟨fun heq => ?_, fun h => absurd ⟨x, rfl, hx⟩ (h.1 _ rfl)⟩
        have hmem : x ∈ live aborted (x :: (page ++ rest.flatten)) := heq ▸ List.mem_cons_self
        exact absurd hx (mem_live.mp hmem).2
      · have hlive : live aborted (x :: (page ++ rest.flatten)) =
            x :: live aborted (walkNext aborted (page :: rest)).flatten := by
          rw [live_cons_of_live _ hx, live_walkNext, List.flatten_cons]
        rw [hlive, List.cons.injEq, ih _ hnext hlength, standing_walkNext page rest hx]
        refine ⟨fun h => ⟨?_, h.2⟩, fun h => ⟨rfl, h.2⟩⟩
        intro page' hpage'
        cases hpage'
        rintro ⟨y, hy, hab⟩
        cases hy
        exact hx hab

/-! ## The walk from the first leaf -/

/-- The first page with entries is aborted as a whole and the page behind it is empty: the walk ends there. -/
def CutShort (aborted : List ℕ) (pages : List (List KeyValuePair)) : Prop :=
  ∃ page rest, skipEmpty pages = page :: [] :: rest ∧ ∀ x ∈ page, x.timestamp ∈ aborted

/-- The walk over a chain of pages is exact. -/
def Walkable (aborted : List ℕ) (pages : List (List KeyValuePair)) : Prop :=
  (CutShort aborted pages → ∀ x ∈ pages.flatten, x.timestamp ∈ aborted) ∧
    (¬ CutShort aborted pages → Separated aborted pages)

theorem not_cutShort_of_eq {page next : List KeyValuePair} {pages rest : List (List KeyValuePair)}
    (hskip : skipEmpty pages = page :: next :: rest) (hne : next ≠ []) : ¬ CutShort aborted pages := by
  rintro ⟨page', rest', heq, -⟩
  rw [hskip] at heq
  cases heq
  exact hne rfl

theorem walkBegin_eq_live_iff (fuel : ℕ) (pages : List (List KeyValuePair)) (hfuel : pages.flatten.length ≤ fuel) :
    walkList aborted fuel (walkBegin aborted pages) = live aborted pages.flatten ↔ Walkable aborted pages := by
  have hlength := (walkBegin_sublist aborted pages).length_le
  rw [← skipEmpty_flatten pages]
  unfold Walkable
  rw [← separated_skipEmpty pages, ← skipEmpty_flatten pages]
  unfold walkBegin at hlength ⊢
  cases hskip : skipEmpty pages with
  | nil =>
    have hshort : ¬ CutShort aborted pages := by
      rintro ⟨page, rest, heq, -⟩
      rw [hskip] at heq
      cases heq
    simp [walkList, live, hshort, Separated, nonEmpty]
  | cons page rest =>
    have hpage : page ≠ [] := skipEmpty_cons_ne hskip
    rw [hskip] at hlength
    simp only [] at hlength ⊢
    by_cases hall : ∀ x ∈ page, x.timestamp ∈ aborted
    · -- the first page is passed over as a whole
      have hends := endsAborted_of_all hpage hall
      rw [if_pos (List.isEmpty_iff.mpr (skipAborted_eq_nil.mpr hall))] at hlength ⊢
      rw [List.flatten_cons, live_append, live_eq_nil.mpr hall, List.nil_append, separated_of_ends hpage hends]
      rcases rest with _ | ⟨_ | ⟨y, next⟩, rest⟩
      · have hshort : ¬ CutShort aborted pages := by
          rintro ⟨page', rest', heq, -⟩
          rw [hskip] at heq
          cases heq
        simp [walkList, live, hshort, skipEmpty, Separated, nonEmpty]
      · have hshort : CutShort aborted pages := ⟨page, rest, hskip, hall⟩
        have hnone : walkList aborted fuel ([] :: rest) = [] := by
          cases fuel <;> rfl
        rw [hnone, eq_comm, live_eq_nil]
        refine ⟨fun h => ⟨fun _ x hx => ?_, fun hnot => absurd hshort hnot⟩, fun h x hx => ?_⟩
        · rcases List.mem_append.mp hx with hx | hx
          · exact hall x hx
          · exact h x hx
        · exact h.1 hshort x (List.mem_append_right _ hx)
      · have hshort : ¬ CutShort aborted pages := not_cutShort_of_eq hskip (List.cons_ne_nil y next)
        rw [walkList_eq_live_iff fuel _ (fun page' hpage' => by cases hpage'; exact List.cons_ne_nil y next)
          (hlength.trans hfuel)]
        exact ⟨fun h => ⟨fun hcut => absurd hcut hshort, fun _ => h⟩, fun h => h.2 hshort⟩
    · have hrest : skipAborted aborted page ≠ [] := fun hnil => hall (skipAborted_eq_nil.mp hnil)
      have hshort : ¬ CutShort aborted pages := by
        rintro ⟨page', rest', heq, hall'⟩
        rw [hskip] at heq
        cases heq
        exact hall hall'
      rw [if_neg (fun hnil => hrest (List.isEmpty_iff.mp hnil))] at hlength ⊢
      rw [List.flatten_cons, live_append, ← live_skipAborted, ← live_append, ← List.flatten_cons,
        walkList_eq_live_iff fuel _ (fun page' hpage' => by cases hpage'; exact hrest) (hlength.trans hfuel),
        ← separated_congr hrest hpage (endsAborted_skipAborted hrest)]
      refine ⟨fun h => ⟨fun hcut => absurd hcut hshort, fun _ => h.2⟩, fun h => ⟨?_, h.2 hshort⟩⟩
      intro page' hpage'
      cases hpage'
      exact not_beginsAborted_skipAborted page

/-- `MemTableWalk` yields exactly the entries that are not aborted, in chain order, exactly when no leaf that ends
with an aborted entry is followed by one that begins with an aborted entry; where the first leaf is aborted as a whole
and an empty leaf follows, exactly when there is no other entry. -/
theorem memTableWalk_exact_iff (t : BPlusTree) :
    t.memTableWalk = live t.abortedBatchTs t.entries ↔ Walkable t.abortedBatchTs t.leaves := by
  rw [memTableWalk, ← t.leaves_flatten]
  exact walkBegin_eq_live_iff _ _ (Nat.le_refl _)

/-- Five keys with values of a thousand bytes, the second and the third of one batch, which is aborted. -/
def abortedPair : BPlusTree :=
  let t := [(1, 1), (2, 7), (3, 7), (4, 2), (5, 3)].foldl
    (fun t p => t.insert ⟨[p.1], List.replicate 1000 0, p.2, false⟩) empty
  { t with abortedBatchTs := [7] }

/-- The batch stands at the end of the first leaf and at the front of the second one, and its last entry is yielded. -/
theorem aborted_entry_walked :
    ¬ ∀ t : BPlusTree, t.memTableWalk = live t.abortedBatchTs t.entries := by
  intro h
  have hwalk : abortedPair.memTableWalk.map KeyValuePair.key = [[1], [3], [4], [5]] := by decide +kernel
  have hlive : (live abortedPair.abortedBatchTs abortedPair.entries).map KeyValuePair.key = [[1], [4], [5]] := by
    decide +kernel
  rw [h abortedPair, hlive] at hwalk
  exact absurd hwalk (by decide)

end Kvdb.BPlusTree
