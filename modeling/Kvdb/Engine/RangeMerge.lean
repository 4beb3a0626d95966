import Kvdb.Engine.RangeIterator
import Kvdb.SSTable.Merge

/-! # What the merging iterator yields

A scan looks at no source behind the first entry beyond its upper bound, so the sources may be cut there.
If each cut source has one version of each key, in key order, the scan yields the newest visible version of
each key, in key order. -/
namespace Kvdb.RangeIterator
set_option autoImplicit false

open SSTableFile (Ascending)
open Compaction (Newest bestKey dropKey)

/-! ## Bounds -/

def aboveLower (lower : RangeBound) (key : Bytes) : Bool :=
  match lower with
  | .unbounded => true
  | .inclusive bound => decide (bound ≤ key)
  | .exclusive bound => decide (bound < key)

def inBounds (lower upper : RangeBound) (key : Bytes) : Bool := aboveLower lower key && withinUpper upper key

theorem withinUpper_mono {upper : RangeBound} {a b : Bytes} (hab : a ≤ b) (hb : withinUpper upper b = true) :
    withinUpper upper a = true := by
  cases upper with
  | unbounded => rfl
  | inclusive bound => exact decide_eq_true (hab.trans (of_decide_eq_true hb))
  | exclusive bound => exact decide_eq_true (hab.trans_lt (of_decide_eq_true hb))

/-! ## Lists in key order -/

def KeyOrdered (es : List KeyValuePair) : Prop := es.Pairwise fun a b => a.key ≤ b.key

/-- The constructor's step over an exclusive lower bound, for one source. -/
def skipBound (lower : RangeBound) (source : List KeyValuePair) : List KeyValuePair :=
  match lower with
  | .exclusive bound => source.dropWhile fun e => decide (e.key = bound)
  | _ => source

theorem skipLower_eq (lower : RangeBound) (sources : List (List KeyValuePair)) :
    skipLower lower sources = sources.map (skipBound lower) := by
  cases lower with
  | unbounded => exact (List.map_id _).symm
  | inclusive bound => exact (List.map_id _).symm
  | exclusive bound => rfl

/-- A source up to the first entry beyond the upper bound. -/
def cut (upper : RangeBound) (source : List KeyValuePair) : List KeyValuePair :=
  source.takeWhile fun x => withinUpper upper x.key

variable {upper : RangeBound} {readTs : ℕ} {key : Bytes} {sources : List (List KeyValuePair)}

theorem cut_cons_pos {x : KeyValuePair} (h : withinUpper upper x.key = true) (xs : List KeyValuePair) :
    cut upper (x :: xs) = x :: cut upper xs := by
  simp [cut, h]

theorem cut_cons_neg {x : KeyValuePair} (h : withinUpper upper x.key = false) (xs : List KeyValuePair) :
    cut upper (x :: xs) = [] := by
  simp [cut, h]

theorem cut_within {x : KeyValuePair} {source : List KeyValuePair} (h : x ∈ cut upper source) :
    withinUpper upper x.key = true :=
  List.mem_takeWhile_imp (p := fun x : KeyValuePair => withinUpper upper x.key) h

/-! ## A scan of the cut sources -/

theorem bestKey_cut (upper : RangeBound) (sources : List (List KeyValuePair)) :
    bestKey (sources.map (cut upper)) = (bestKey sources).filter (withinUpper upper) := by
  induction sources with
  | nil => rfl
  | cons source sources ih =>
    cases source with
    | nil => exact ih
    | cons x xs =>
      rw [List.map_cons]
      cases hx : withinUpper upper x.key with
      | true =>
        rw [cut_cons_pos hx]
        simp only [bestKey, ih]
        cases hrest : bestKey sources with
        | none => simp [Option.filter, hx]
        | some k =>
          by_cases hk : k < x.key
          · simp [Option.filter, withinUpper_mono hk.le hx, hk]
          · cases hwk : withinUpper upper k <;> simp [Option.filter, hx, hwk, hk]
      | false =>
        rw [cut_cons_neg hx]
        simp only [bestKey, ih]
        cases hrest : bestKey sources with
        | none => simp [Option.filter, hx]
        | some k =>
          by_cases hk : k < x.key
          · simp [hk]
          · have hwk : withinUpper upper k = false := by
              by_contra hne
              have := withinUpper_mono (not_lt.mp hk) (Bool.eq_true_of_not_eq_false hne)
              rw [hx] at this
              cases this
            simp [Option.filter, hx, hwk, hk]

theorem current_cut (hkey : withinUpper upper key = true) (sources : List (List KeyValuePair)) :
    current key (sources.map (cut upper)) = current key sources := by
  induction sources with
  | nil => rfl
  | cons source sources ih =>
    unfold current at ih ⊢
    cases source with
    | nil => exact ih
    | cons x xs =>
      cases hx : withinUpper upper x.key with
      | true =>
        simp only [List.map_cons, cut_cons_pos hx, List.filterMap_cons, List.head?_cons, List.filter_cons, ih]
      | false =>
        have hne : x.key ≠ key := by
          rintro rfl
          rw [hkey] at hx
          cases hx
        simp only [List.map_cons, cut_cons_neg hx, List.filterMap_cons, List.head?_nil, List.head?_cons,
          List.filter_cons, decide_eq_false hne, ih]
        rfl

theorem advance_cut (hkey : withinUpper upper key = true) (source : List KeyValuePair) :
    advance key (cut upper source) = cut upper (advance key source) := by
  cases source with
  | nil => rfl
  | cons x xs =>
    by_cases hx : x.key = key
    · have hin : withinUpper upper x.key = true := by
        rw [hx]
        exact hkey
      rw [cut_cons_pos hin, advance, if_pos hx, advance, if_pos hx]
    · cases hin : withinUpper upper x.key with
      | true => rw [cut_cons_pos hin, advance, if_neg hx, advance, if_neg hx, cut_cons_pos hin]
      | false => rw [cut_cons_neg hin, advance, advance, if_neg hx, cut_cons_neg hin]

theorem findNext_cut (fuel : ℕ) (sources : List (List KeyValuePair)) :
    findNext readTs upper fuel (sources.map (cut upper)) =
      (findNext readTs upper fuel sources).map fun p => (p.1, p.2.map (cut upper)) := by
  induction fuel generalizing sources with
  | zero => rfl
  | succ fuel ih =>
    unfold findNext
    rw [bestKey_cut]
    cases hbest : bestKey sources with
    | none => rfl
    | some key =>
      cases hkey : withinUpper upper key with
      | false => simp [Option.filter, hkey]
      | true =>
        have hadvance : (sources.map (cut upper)).map (advance key) = (sources.map (advance key)).map (cut upper) := by
          rw [List.map_map, List.map_map]
          exact List.map_congr_left fun source _ => advance_cut hkey source
        simp only [Option.filter, hkey, if_true, current_cut hkey, hadvance]
        cases Compaction.visWinner readTs (current key sources) with
        | none => exact ih _
        | some best => rfl

theorem drain_cut (steps fuel : ℕ) (sources : List (List KeyValuePair)) :
    drain readTs upper steps fuel (sources.map (cut upper)) = drain readTs upper steps fuel sources := by
  induction fuel generalizing sources with
  | zero => rfl
  | succ fuel ih =>
    unfold drain
    rw [findNext_cut]
    cases findNext readTs upper steps sources with
    | none => rfl
    | some p =>
      simp only [Option.map_some]
      rw [ih]

/-! ## A scan of sorted sources -/

section Sorted

variable (hasc : ∀ source ∈ sources, Ascending source) (hmin : ∀ x ∈ sources.flatten, key ≤ x.key)

include hasc hmin

/-- The current entries at the smallest key are all versions of the key. -/
theorem mem_current {x : KeyValuePair} : x ∈ current key sources ↔ x ∈ sources.flatten ∧ x.key = key := by
  unfold current
  rw [List.mem_filter, List.mem_filterMap, decide_eq_true_eq]
  refine ⟨?_, ?_⟩
  · rintro ⟨⟨source, hsource, hx⟩, hkey⟩
    exact ⟨List.mem_flatten_of_mem hsource (List.mem_of_mem_head? hx), hkey⟩
  · rintro ⟨hx, hkey⟩
    obtain ⟨source, hsource, hx'⟩ := List.mem_flatten.mp hx
    refine ⟨⟨source, hsource, ?_⟩, hkey⟩
    cases source with
    | nil => cases hx'
    | cons y ys =>
      rcases List.mem_cons.mp hx' with rfl | hx'
      · rfl
      · have hlt := (List.pairwise_cons.mp (hasc _ hsource)).1 x hx'
        rw [hkey] at hlt
        have hle := hmin y (List.mem_flatten_of_mem hsource List.mem_cons_self)
        exact absurd hlt (not_lt.mpr hle)

omit hmin in
theorem map_advance : sources.map (advance key) = dropKey key sources := by
  refine List.map_congr_left fun source hsource => ?_
  cases source with
  | nil => rfl
  | cons y ys =>
    have hlt := (List.pairwise_cons.mp (hasc _ hsource)).1
    by_cases hy : y.key = key
    · have hstop : ys.dropWhile (fun e => decide (e.key = key)) = ys := by
        cases ys with
        | nil => rfl
        | cons z zs =>
          have hz : z.key ≠ key := fun heq => absurd (hlt z List.mem_cons_self) (by rw [hy, heq]; exact lt_irrefl _)
          exact List.dropWhile_cons_of_neg (by simpa using hz)
      simp only [advance, hy, if_true, List.dropWhile_cons, decide_true, hstop]
    · simp only [advance, hy, if_false, List.dropWhile_cons, decide_false]
      rfl

end Sorted

/-- The winner is a newest one of the visible versions. -/
theorem visWinner_newest {versions : List KeyValuePair} {w : KeyValuePair}
    (h : Compaction.visWinner readTs versions = some w) :
    (w ∈ versions ∧ w.timestamp ≤ readTs) ∧ ∀ y ∈ versions, y.timestamp ≤ readTs → y.timestamp ≤ w.timestamp := by
  refine ⟨visWinner_visible h, ?_⟩
  intro y hy hts
  have hmem : y ∈ versions.filter fun e => decide (e.timestamp ≤ readTs) :=
    List.mem_filter.mpr ⟨hy, decide_eq_true hts⟩
  unfold Compaction.visWinner at h
  generalize versions.filter (fun e => decide (e.timestamp ≤ readTs)) = vs at h hmem
  cases vs with
  | nil => cases hmem
  | cons v vs =>
    obtain ⟨v', hv', hge, hall⟩ := Compaction.foldl_newer vs v
    have heq : some v' = some w := hv'.symm.trans h
    cases heq
    rcases List.mem_cons.mp hmem with rfl | hmem
    · exact hge
    · exact hall y hmem

theorem visWinner_eq_none {versions : List KeyValuePair} (h : Compaction.visWinner readTs versions = none) :
    ∀ y ∈ versions, readTs < y.timestamp := by
  intro y hy
  by_contra hle
  have hmem : y ∈ versions.filter fun e => decide (e.timestamp ≤ readTs) :=
    List.mem_filter.mpr ⟨hy, decide_eq_true (Nat.le_of_not_lt hle)⟩
  unfold Compaction.visWinner at h
  generalize versions.filter (fun e => decide (e.timestamp ≤ readTs)) = vs at h hmem
  cases vs with
  | nil => cases hmem
  | cons v vs =>
    obtain ⟨v', hv', -⟩ := Compaction.foldl_newer vs v
    have heq : some v' = none := hv'.symm.trans h
    cases heq

/-- The visible versions of the sources. -/
def visibleOf (readTs : ℕ) (sources : List (List KeyValuePair)) : List KeyValuePair :=
  sources.flatten.filter fun x => decide (x.timestamp ≤ readTs)

theorem mem_visibleOf {x : KeyValuePair} : x ∈ visibleOf readTs sources ↔ x ∈ sources.flatten ∧ x.timestamp ≤ readTs := by
  rw [visibleOf, List.mem_filter, decide_eq_true_eq]

/-- What one step of the scan leaves and what it yields. -/
theorem findNext_spec (fuel : ℕ) (sources : List (List KeyValuePair)) (hasc : ∀ source ∈ sources, Ascending source)
    (hwithin : ∀ x ∈ sources.flatten, withinUpper upper x.key = true) (hfuel : sources.flatten.length ≤ fuel) :
    (findNext readTs upper fuel sources = none ∧ visibleOf readTs sources = []) ∨
      ∃ best rest, findNext readTs upper fuel sources = some (best, rest) ∧ Newest (visibleOf readTs sources) best ∧
        (∀ x ∈ visibleOf readTs sources, best.key ≤ x.key) ∧ (∀ source ∈ rest, Ascending source) ∧
        (∀ x, x ∈ rest.flatten ↔ x ∈ sources.flatten ∧ best.key < x.key) ∧
        rest.flatten.length < sources.flatten.length := by
  induction fuel generalizing sources with
  | zero =>
    have hnil : sources.flatten = [] := List.length_eq_zero_iff.mp (Nat.le_zero.mp hfuel)
    exact .inl ⟨rfl, by rw [visibleOf, hnil]; rfl⟩
  | succ fuel ih =>
    unfold findNext
    cases hbest : bestKey sources with
    | none =>
      have hnil := Compaction.bestKey_eq_none hbest
      exact .inl ⟨rfl, by rw [visibleOf, hnil]; rfl⟩
    | some key =>
      have hsort : ∀ source ∈ sources, SSTableFile.KeySorted source := fun source hsource => (hasc source hsource).keySorted
      obtain ⟨⟨x, hx, hxkey⟩, hmin⟩ := Compaction.bestKey_eq_some hsort hbest
      have hkey : withinUpper upper key = true := by
        rw [← hxkey]
        exact hwithin x hx
      have hlen := Compaction.dropKey_length_lt hbest
      have hdrop : ∀ source ∈ dropKey key sources, Ascending source := Compaction.dropKey_ascending hasc
      have hmem : ∀ y, y ∈ (dropKey key sources).flatten ↔ y ∈ sources.flatten ∧ key < y.key := by
        intro y
        rw [Compaction.mem_dropKey hsort hmin]
        refine and_congr_right fun hy => ?_
        exact ⟨fun hne => lt_of_le_of_ne (hmin y hy) (Ne.symm hne), fun hlt => ne_of_gt hlt⟩
      simp only [hkey, if_true, map_advance hasc]
      cases hwin : Compaction.visWinner readTs (current key sources) with
      | some best =>
        obtain ⟨⟨hbestmem, hbestts⟩, hnewest⟩ := visWinner_newest hwin
        obtain ⟨hbestin, hbestkey⟩ := (mem_current hasc hmin).mp hbestmem
        subst hbestkey
        refine .inr ⟨best, _, rfl, ⟨mem_visibleOf.mpr ⟨hbestin, hbestts⟩, ?_⟩, ?_, hdrop, hmem, hlen⟩
        · intro y hy hykey
          obtain ⟨hyin, hyts⟩ := mem_visibleOf.mp hy
          exact hnewest y ((mem_current hasc hmin).mpr ⟨hyin, hykey⟩) hyts
        · exact fun y hy => hmin y (mem_visibleOf.mp hy).1
      | none =>
        have hinvisible := visWinner_eq_none hwin
        have hvis : ∀ y, y ∈ visibleOf readTs (dropKey key sources) ↔ y ∈ visibleOf readTs sources := by
          intro y
          rw [mem_visibleOf, mem_visibleOf, hmem]
          refine ⟨fun h => ⟨h.1.1, h.2⟩, fun h => ⟨⟨h.1, ?_⟩, h.2⟩⟩
          refine lt_of_le_of_ne (hmin y h.1) fun heq => ?_
          have hgt := hinvisible y ((mem_current hasc hmin).mpr ⟨h.1, heq.symm⟩)
          omega
        have hrest := ih (dropKey key sources) hdrop (fun y hy => hwithin y ((hmem y).mp hy).1) (by omega)
        rcases hrest with ⟨hnone, hnil⟩ | ⟨best, rest, hsome, hnew, hleast, hascrest, hmemrest, hlenrest⟩
        · refine .inl ⟨hnone, List.eq_nil_iff_forall_not_mem.mpr fun y hy => ?_⟩
          rw [← hvis y, hnil] at hy
          cases hy
        · refine .inr ⟨best, rest, hsome, ⟨(hvis best).mp hnew.1, fun y hy => hnew.2 y ((hvis y).mpr hy)⟩,
            fun y hy => hleast y ((hvis y).mpr hy), hascrest, ?_, by omega⟩
          intro y
          rw [hmemrest, hmem]
          have hbest := ((hmem best).mp (mem_visibleOf.mp hnew.1).1).2
          exact ⟨fun h => ⟨h.1.1, h.2⟩, fun h => ⟨⟨h.1, lt_trans hbest h.2⟩, h.2⟩⟩

/-- No two versions of a key have one timestamp. -/
def Distinct (es : List KeyValuePair) : Prop :=
  ∀ x ∈ es, ∀ y ∈ es, x.key = y.key → x.timestamp = y.timestamp → x = y

theorem drain_spec (steps fuel : ℕ) (sources : List (List KeyValuePair)) (hasc : ∀ source ∈ sources, Ascending source)
    (hwithin : ∀ x ∈ sources.flatten, withinUpper upper x.key = true) (hdistinct : Distinct sources.flatten)
    (hsteps : sources.flatten.length ≤ steps) (hfuel : sources.flatten.length ≤ fuel) :
    Ascending (drain readTs upper steps fuel sources) ∧
      ∀ x, x ∈ drain readTs upper steps fuel sources ↔ Newest (visibleOf readTs sources) x := by
  induction fuel generalizing sources with
  | zero =>
    have hnil : sources.flatten = [] := List.length_eq_zero_iff.mp (Nat.le_zero.mp hfuel)
    refine ⟨List.Pairwise.nil, fun x => ⟨fun hx => (by cases hx), fun hx => ?_⟩⟩
    have hx' := (mem_visibleOf.mp hx.1).1
    rw [hnil] at hx'
    cases hx'
  | succ fuel ih =>
    unfold drain
    have hnext : (findNext readTs upper steps sources = none ∧ visibleOf readTs sources = []) ∨ _ :=
      findNext_spec steps sources hasc hwithin hsteps
    rcases hnext with
      ⟨hnone, hnil⟩ | ⟨best, rest, hsome, hnew, hleast, hascrest, hmemrest, hlenrest⟩
    · rw [hnone]
      refine ⟨List.Pairwise.nil, fun x => ⟨fun hx => (by cases hx), fun hx => ?_⟩⟩
      rw [hnil] at hx
      cases hx.1
    · rw [hsome]
      have hsub : ∀ x ∈ rest.flatten, x ∈ sources.flatten := fun x hx => ((hmemrest x).mp hx).1
      obtain ⟨htail, hmem⟩ := ih rest hascrest (fun x hx => hwithin x (hsub x hx))
        (fun x hx y hy => hdistinct x (hsub x hx) y (hsub y hy)) (by omega) (by omega)
      refine ⟨List.pairwise_cons.mpr ⟨?_, htail⟩, ?_⟩
      · intro x hx
        exact ((hmemrest x).mp (mem_visibleOf.mp ((hmem x).mp hx).1).1).2
      · intro x
        rw [List.mem_cons, hmem]
        refine ⟨?_, ?_⟩
        · rintro (rfl | hx)
          · exact hnew
          · obtain ⟨hxin, hxts⟩ := mem_visibleOf.mp hx.1
            obtain ⟨hxsrc, hlt⟩ := (hmemrest x).mp hxin
            refine ⟨mem_visibleOf.mpr ⟨hxsrc, hxts⟩, fun y hy hkey => ?_⟩
            obtain ⟨hyin, hyts⟩ := mem_visibleOf.mp hy
            refine hx.2 y (mem_visibleOf.mpr ⟨(hmemrest y).mpr ⟨hyin, ?_⟩, hyts⟩) hkey
            rw [hkey]
            exact hlt
        · intro hx
          obtain ⟨hxin, hxts⟩ := mem_visibleOf.mp hx.1
          rcases eq_or_lt_of_le (hleast x hx.1) with hkey | hlt
          · refine .inl (hdistinct x hxin best (mem_visibleOf.mp hnew.1).1 hkey.symm ?_)
            have h1 := hx.2 best hnew.1 hkey
            have h2 := hnew.2 x hx.1 hkey.symm
            omega
          · refine .inr ⟨mem_visibleOf.mpr ⟨(hmemrest x).mpr ⟨hxin, hlt⟩, hxts⟩, fun y hy hkey => ?_⟩
            obtain ⟨hyin, hyts⟩ := mem_visibleOf.mp hy
            exact hx.2 y (mem_visibleOf.mpr ⟨hsub y hyin, hyts⟩) hkey

/-- What a scan yields, if the sources cut at the bounds have one version of each key in key order. -/
theorem results_spec {lower : RangeBound} {inside : List (List KeyValuePair)}
    (hinside : (skipLower lower sources).map (cut upper) = inside) (hasc : ∀ source ∈ inside, Ascending source)
    (hdistinct : Distinct inside.flatten) :
    Ascending (results readTs lower upper sources) ∧
      ∀ x, x ∈ results readTs lower upper sources ↔ Newest (visibleOf readTs inside) x := by
  have hskip : (skipLower lower sources).flatten.length ≤ sources.flatten.length := by
    cases lower with
    | unbounded => exact Nat.le_refl _
    | inclusive bound => exact Nat.le_refl _
    | exclusive bound =>
      exact Compaction.dropKey_length_le bound sources
  have hcut : ∀ ss : List (List KeyValuePair), (ss.map (cut upper)).flatten.length ≤ ss.flatten.length := by
    intro ss
    induction ss with
    | nil => exact Nat.le_refl _
    | cons s ss ih =>
      simp only [List.map_cons, List.flatten_cons, List.length_append]
      have hone : (cut upper s).length ≤ s.length :=
        (List.takeWhile_sublist fun x : KeyValuePair => withinUpper upper x.key).length_le
      exact Nat.add_le_add hone ih
  have hlen := (hcut (skipLower lower sources)).trans hskip
  have hwithin : ∀ x ∈ inside.flatten, withinUpper upper x.key = true := by
    intro x hx
    rw [← hinside] at hx
    obtain ⟨source, hsource, hx⟩ := List.mem_flatten.mp hx
    obtain ⟨whole, -, rfl⟩ := List.mem_map.mp hsource
    exact cut_within hx
  unfold results
  rw [← drain_cut, hinside]
  rw [hinside] at hlen
  exact drain_spec _ _ inside hasc hwithin hdistinct hlen hlen

end Kvdb.RangeIterator
