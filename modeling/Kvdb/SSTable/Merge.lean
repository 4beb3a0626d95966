import Kvdb.SSTable.Compact
import Kvdb.SSTable.Contents
import Mathlib.Data.List.TakeWhile

/-! # What the merge of a compaction returns

The merge returns entries of its sources whatever their order. When each source has strictly
ascending keys and no version is above `visible_ts`, the merge returns the newest version of every
key, in strictly ascending order; at the last level it stops before the first key whose newest
version is a tombstone. -/
namespace Kvdb.Compaction
set_option autoImplicit false

open SSTableFile (Ascending KeySorted)

/-! ## Entries of the sources only -/

theorem mem_versionsOf_flatten {key : Bytes} {sources : List (List KeyValuePair)} {x : KeyValuePair}
    (hx : x ∈ versionsOf key sources) : x ∈ sources.flatten ∧ x.key = key := by
  obtain ⟨src, hsrc, hx⟩ := List.mem_flatMap.mp hx
  refine ⟨List.mem_flatten.mpr ⟨src, hsrc, (List.takeWhile_sublist _).subset hx⟩, ?_⟩
  have hkey := List.mem_takeWhile_imp hx
  exact of_decide_eq_true hkey

theorem mem_dropKey_flatten {key : Bytes} {sources : List (List KeyValuePair)} {x : KeyValuePair}
    (hx : x ∈ (dropKey key sources).flatten) : x ∈ sources.flatten := by
  obtain ⟨src', hsrc', hx⟩ := List.mem_flatten.mp hx
  obtain ⟨src, hsrc, rfl⟩ := List.mem_map.mp hsrc'
  exact List.mem_flatten.mpr ⟨src, hsrc, (List.dropWhile_sublist _).subset hx⟩

theorem newer_eq_some {w : Option KeyValuePair} {cur v : KeyValuePair} (h : newer w cur = some v) :
    v = cur ∨ w = some v := by
  unfold newer at h
  split at h
  · cases h
    exact .inl rfl
  · split at h
    · cases h
      exact .inl rfl
    · cases h
      exact .inr rfl

theorem foldl_newer_mem (versions : List KeyValuePair) (w : Option KeyValuePair) {v : KeyValuePair}
    (h : versions.foldl newer w = some v) : v ∈ versions ∨ w = some v := by
  induction versions generalizing w with
  | nil => exact .inr h
  | cons cur versions ih =>
    rcases ih (newer w cur) h with hv | hv
    · exact .inl (List.mem_cons_of_mem _ hv)
    · rcases newer_eq_some hv with rfl | hv
      · exact .inl List.mem_cons_self
      · exact .inr hv

theorem visWinner_mem {visibleTs : ℕ} {versions : List KeyValuePair} {v : KeyValuePair}
    (h : visWinner visibleTs versions = some v) : v ∈ versions := by
  rcases foldl_newer_mem _ _ h with hv | hv
  · exact List.mem_of_mem_filter hv
  · cases hv

theorem mem_keyResult {visibleTs : ℕ} {isLast : Bool} {lower upper : Bytes} {versions : List KeyValuePair}
    {x : KeyValuePair} (hx : x ∈ keyResult visibleTs isLast lower upper versions) :
    x ∈ versions ∧ (isLast = true → x.isTombstone = true → visibleTs < x.timestamp) := by
  unfold keyResult at hx
  rcases List.mem_append.mp hx with hx | hx
  · split at hx
    · next w hw =>
      split at hx
      · next hkeep =>
        rw [List.mem_singleton] at hx
        subst hx
        refine ⟨visWinner_mem hw, ?_⟩
        intro hlast htomb
        simp [hlast, htomb] at hkeep
      · cases hx
    · cases hx
  · obtain ⟨hx, hts⟩ := List.mem_filter.mp hx
    exact ⟨hx, fun _ _ => of_decide_eq_true hts⟩

/-- A merged entry is one of the sources, and no visible tombstone at the last level. -/
theorem mem_mergeLoop {visibleTs : ℕ} {isLast : Bool} {lower upper : Bytes} (fuel : ℕ)
    (sources : List (List KeyValuePair)) {x : KeyValuePair}
    (hx : x ∈ mergeLoop visibleTs isLast lower upper fuel sources) :
    x ∈ sources.flatten ∧ (isLast = true → x.isTombstone = true → visibleTs < x.timestamp) := by
  induction fuel generalizing sources with
  | zero => cases hx
  | succ fuel ih =>
    unfold mergeLoop at hx
    split at hx
    · cases hx
    · next key hkey =>
      simp only [] at hx
      split at hx
      · cases hx
      · rcases List.mem_append.mp hx with hx | hx
        · obtain ⟨hver, htomb⟩ := mem_keyResult hx
          exact ⟨(mem_versionsOf_flatten hver).1, htomb⟩
        · obtain ⟨hsrc, htomb⟩ := ih _ hx
          exact ⟨mem_dropKey_flatten hsrc, htomb⟩

/-! ## Ascending sources -/

theorem bestKey_eq_none {sources : List (List KeyValuePair)} (h : bestKey sources = none) :
    sources.flatten = [] := by
  induction sources with
  | nil => rfl
  | cons src rest ih =>
    cases src with
    | nil => exact ih h
    | cons e es =>
      unfold bestKey at h
      split at h
      · cases h
      · split at h <;> cases h

/-- The key that `nextKey` picks is the smallest one. -/
theorem bestKey_eq_some {sources : List (List KeyValuePair)} {key : Bytes} (hsort : ∀ src ∈ sources, KeySorted src)
    (h : bestKey sources = some key) :
    (∃ x ∈ sources.flatten, x.key = key) ∧ ∀ x ∈ sources.flatten, key ≤ x.key := by
  induction sources generalizing key with
  | nil => cases h
  | cons src rest ih =>
    have hrest : ∀ src ∈ rest, KeySorted src := fun s hs => hsort s (List.mem_cons_of_mem _ hs)
    cases src with
    | nil => exact ih hrest h
    | cons e es =>
      have hes : ∀ x ∈ e :: es, e.key ≤ x.key := by
        intro x hx
        rcases List.mem_cons.mp hx with rfl | hx
        · exact le_refl _
        · exact (List.pairwise_cons.mp (hsort _ List.mem_cons_self)).1 x hx
      unfold bestKey at h
      split at h
      · next hnone =>
        cases h
        rw [List.flatten_cons, bestKey_eq_none hnone, List.append_nil]
        exact ⟨⟨e, List.mem_cons_self, rfl⟩, hes⟩
      · next k hk =>
        obtain ⟨⟨y, hy, hykey⟩, hmin⟩ := ih hrest hk
        split at h
        · next hlt =>
          cases h
          refine ⟨⟨y, List.mem_append_right _ hy, hykey⟩, ?_⟩
          intro x hx
          rcases List.mem_append.mp hx with hx | hx
          · exact le_trans (le_of_lt hlt) (hes x hx)
          · exact hmin x hx
        · next hge =>
          cases h
          refine ⟨⟨e, List.mem_cons_self, rfl⟩, ?_⟩
          intro x hx
          rcases List.mem_append.mp hx with hx | hx
          · exact hes x hx
          · exact le_trans (not_lt.mp hge) (hmin x hx)

/-- The versions of the smallest key stand at the front of a source. -/
theorem dropWhile_key {key : Bytes} {src : List KeyValuePair} (hsort : KeySorted src)
    (hmin : ∀ x ∈ src, key ≤ x.key) :
    (src.takeWhile fun e => decide (e.key = key)) = src.filter (fun e => decide (e.key = key)) ∧
      (src.dropWhile fun e => decide (e.key = key)) = src.filter fun e => decide (e.key ≠ key) := by
  induction src with
  | nil => exact ⟨rfl, rfl⟩
  | cons e es ih =>
    obtain ⟨hhead, htail⟩ := List.pairwise_cons.mp hsort
    obtain ⟨htake, hdrop⟩ := ih htail fun x hx => hmin x (List.mem_cons_of_mem _ hx)
    by_cases hkey : e.key = key
    · refine ⟨?_, ?_⟩
      · rw [List.takeWhile_cons_of_pos (by simpa using hkey), List.filter_cons_of_pos (by simpa using hkey), htake]
      · rw [List.dropWhile_cons_of_pos (by simpa using hkey), List.filter_cons_of_neg (by simpa using hkey), hdrop]
    · have hes : ∀ x ∈ e :: es, x.key ≠ key := by
        intro x hx
        have hlt : key < e.key := lt_of_le_of_ne (hmin e List.mem_cons_self) (Ne.symm hkey)
        rcases List.mem_cons.mp hx with rfl | hx
        · exact hkey
        · exact ne_of_gt (lt_of_lt_of_le hlt (hhead x hx))
      refine ⟨?_, ?_⟩
      · rw [List.takeWhile_cons_of_neg (by simpa using hkey), eq_comm, List.filter_eq_nil_iff]
        intro x hx
        simpa using hes x hx
      · rw [List.dropWhile_cons_of_neg (by simpa using hkey), eq_comm, List.filter_eq_self]
        intro x hx
        simpa using hes x hx

section Step

variable {sources : List (List KeyValuePair)} {key : Bytes} (hsort : ∀ src ∈ sources, KeySorted src)
  (hmin : ∀ x ∈ sources.flatten, key ≤ x.key)

include hsort hmin

/-- The versions of the key as the sources have them, in source order, and what is left of the sources. -/
theorem versionsOf_eq :
    versionsOf key sources = Kvdb.versionsOf key sources.flatten ∧
      (dropKey key sources).flatten = sources.flatten.filter fun e => decide (e.key ≠ key) := by
  have hsrc : ∀ src ∈ sources, (src.takeWhile fun e => decide (e.key = key)) = src.filter (fun e => decide (e.key = key)) ∧
      (src.dropWhile fun e => decide (e.key = key)) = src.filter fun e => decide (e.key ≠ key) :=
    fun src hmem => dropWhile_key (hsort src hmem) fun y hy => hmin y (List.mem_flatten.mpr ⟨src, hmem, hy⟩)
  refine ⟨?_, ?_⟩
  · rw [Kvdb.versionsOf, List.filter_flatten, versionsOf, List.flatMap]
    exact congrArg List.flatten (List.map_congr_left fun src hmem => (hsrc src hmem).1)
  · rw [List.filter_flatten, dropKey]
    exact congrArg List.flatten (List.map_congr_left fun src hmem => (hsrc src hmem).2)

theorem mem_versionsOf {x : KeyValuePair} :
    x ∈ versionsOf key sources ↔ x ∈ sources.flatten ∧ x.key = key := by
  rw [(versionsOf_eq hsort hmin).1]
  exact Kvdb.mem_versionsOf

theorem mem_dropKey {x : KeyValuePair} :
    x ∈ (dropKey key sources).flatten ↔ x ∈ sources.flatten ∧ x.key ≠ key := by
  rw [(versionsOf_eq hsort hmin).2, List.mem_filter, decide_eq_true_eq]

omit hmin in
theorem dropKey_sorted : ∀ src ∈ dropKey key sources, KeySorted src := by
  intro src' hsrc'
  obtain ⟨src, hsrc, rfl⟩ := List.mem_map.mp hsrc'
  exact (hsort src hsrc).sublist (List.dropWhile_sublist _)

omit hsort hmin in
theorem dropKey_ascending (hasc : ∀ src ∈ sources, Ascending src) : ∀ src ∈ dropKey key sources, Ascending src := by
  intro src' hsrc'
  obtain ⟨src, hsrc, rfl⟩ := List.mem_map.mp hsrc'
  exact (hasc src hsrc).sublist (List.dropWhile_sublist _)

omit hsort hmin in
theorem dropKey_length_le (key : Bytes) (sources : List (List KeyValuePair)) :
    (dropKey key sources).flatten.length ≤ sources.flatten.length := by
  induction sources with
  | nil => exact Nat.le_refl _
  | cons src rest ih =>
    rw [dropKey, List.map_cons, List.flatten_cons, List.flatten_cons, List.length_append, List.length_append]
    have hsrc := (List.dropWhile_sublist (l := src) fun e => decide (e.key = key)).length_le
    rw [dropKey] at ih
    omega

omit hsort hmin in
/-- The version that is consumed shortens the sources. -/
theorem dropKey_length_lt {key : Bytes} {sources : List (List KeyValuePair)} (h : bestKey sources = some key) :
    (dropKey key sources).flatten.length < sources.flatten.length := by
  induction sources generalizing key with
  | nil => cases h
  | cons src rest ih =>
    rw [dropKey, List.map_cons, List.flatten_cons, List.flatten_cons, List.length_append, List.length_append]
    have hrest := dropKey_length_le key rest
    rw [dropKey] at hrest
    have hsrc := (List.dropWhile_sublist (l := src) fun e => decide (e.key = key)).length_le
    cases src with
    | nil =>
      have hlt := ih h
      rw [dropKey] at hlt
      omega
    | cons e es =>
      unfold bestKey at h
      have hhead : e.key = key → (List.dropWhile (fun x => decide (x.key = key)) (e :: es)).length <
          (e :: es).length := by
        intro hkey
        rw [List.dropWhile_cons_of_pos (by simpa using hkey), List.length_cons]
        exact Nat.lt_succ_of_le (List.dropWhile_sublist _).length_le
      split at h
      · cases h
        have := hhead rfl
        omega
      · next k hk =>
        split at h
        · cases h
          have hlt := ih hk
          rw [dropKey] at hlt
          omega
        · cases h
          have := hhead rfl
          omega

end Step

/-! ## The winner of a key -/

theorem foldl_newer (versions : List KeyValuePair) (w : KeyValuePair) :
    ∃ v, versions.foldl newer (some w) = some v ∧ w.timestamp ≤ v.timestamp ∧
      ∀ y ∈ versions, y.timestamp ≤ v.timestamp := by
  induction versions generalizing w with
  | nil => exact ⟨w, rfl, Nat.le_refl _, fun _ hy => by cases hy⟩
  | cons cur versions ih =>
    by_cases hlt : w.timestamp < cur.timestamp
    · obtain ⟨v, hv, hle, hall⟩ := ih cur
      refine ⟨v, ?_, by omega, ?_⟩
      · rw [List.foldl_cons, newer, if_pos hlt]
        exact hv
      · intro y hy
        rcases List.mem_cons.mp hy with rfl | hy
        · exact hle
        · exact hall y hy
    · obtain ⟨v, hv, hle, hall⟩ := ih w
      refine ⟨v, ?_, hle, ?_⟩
      · rw [List.foldl_cons, newer, if_neg hlt]
        exact hv
      · intro y hy
        rcases List.mem_cons.mp hy with rfl | hy
        · omega
        · exact hall y hy

/-- Among visible versions the winner is the newest one. -/
theorem visWinner_of_visible {visibleTs : ℕ} {versions : List KeyValuePair} (hne : versions ≠ [])
    (hvis : ∀ x ∈ versions, x.timestamp ≤ visibleTs) :
    ∃ v ∈ versions, visWinner visibleTs versions = some v ∧ ∀ y ∈ versions, y.timestamp ≤ v.timestamp := by
  have hfilter : versions.filter (fun e => decide (e.timestamp ≤ visibleTs)) = versions := by
    rw [List.filter_eq_self]
    intro x hx
    exact decide_eq_true (hvis x hx)
  obtain ⟨e, es, rfl⟩ := List.exists_cons_of_ne_nil hne
  obtain ⟨v, hv, hle, hall⟩ := foldl_newer es e
  have hwin : visWinner visibleTs (e :: es) = some v := by
    rw [visWinner, hfilter]
    exact hv
  refine ⟨v, visWinner_mem hwin, hwin, ?_⟩
  intro y hy
  rcases List.mem_cons.mp hy with rfl | hy
  · exact hle
  · exact hall y hy

theorem keyResult_of_visible {visibleTs : ℕ} {isLast : Bool} {versions : List KeyValuePair} {v : KeyValuePair}
    (hvis : ∀ x ∈ versions, x.timestamp ≤ visibleTs) (hv : visWinner visibleTs versions = some v) :
    keyResult visibleTs isLast [] [] versions = if v.isTombstone && isLast then [] else [v] := by
  have hfuture : future visibleTs versions = [] := by
    rw [future, List.filter_eq_nil_iff]
    intro x hx
    simpa using hvis x hx
  have hrange : inRange [] [] v.key = true := rfl
  simp only [keyResult, hv, hfuture, hrange, List.append_nil, Bool.and_true]
  cases v.isTombstone && isLast <;> rfl

/-! ## The whole merge -/

/-- The newest version of its key. -/
def Newest (es : List KeyValuePair) (x : KeyValuePair) : Prop :=
  x ∈ es ∧ ∀ y ∈ es, y.key = x.key → y.timestamp ≤ x.timestamp

instance decidableNewest (es : List KeyValuePair) (x : KeyValuePair) : Decidable (Newest es x) :=
  inferInstanceAs (Decidable (x ∈ es ∧ ∀ y ∈ es, y.key = x.key → y.timestamp ≤ x.timestamp))

/-- What is merged of sources in key order is in key order, whatever is visible. -/
theorem mergeLoop_keySorted {visibleTs : ℕ} {isLast : Bool} {lower upper : Bytes} (fuel : ℕ)
    (sources : List (List KeyValuePair)) (hsort : ∀ src ∈ sources, KeySorted src) :
    KeySorted (mergeLoop visibleTs isLast lower upper fuel sources) := by
  induction fuel generalizing sources with
  | zero => exact List.Pairwise.nil
  | succ fuel ih =>
    unfold mergeLoop
    split
    · exact List.Pairwise.nil
    · next key hkey =>
      simp only []
      split
      · exact List.Pairwise.nil
      · have hhere : ∀ x ∈ keyResult visibleTs isLast lower upper (versionsOf key sources), x.key = key :=
          fun x hx => (mem_versionsOf_flatten (mem_keyResult hx).1).2
        refine List.pairwise_append.mpr ⟨?_, ih _ (dropKey_sorted hsort), ?_⟩
        · refine List.Pairwise.imp_of_mem ?_ (List.pairwise_of_forall (R := fun _ _ => True) fun _ _ => trivial)
          intro x y hx hy _
          rw [hhere x hx, hhere y hy]
        · intro x hx y hy
          rw [hhere x hx]
          exact (bestKey_eq_some hsort hkey).2 y (mem_dropKey_flatten (mem_mergeLoop fuel _ hy).1)

theorem mergeLoop_spec {visibleTs : ℕ} (fuel : ℕ) (sources : List (List KeyValuePair))
    (hasc : ∀ src ∈ sources, Ascending src) (hvis : ∀ x ∈ sources.flatten, x.timestamp ≤ visibleTs)
    (hfuel : sources.flatten.length ≤ fuel) :
    Ascending (mergeLoop visibleTs false [] [] fuel sources) ∧
      (∀ x ∈ mergeLoop visibleTs false [] [] fuel sources, Newest sources.flatten x) ∧
      (∀ y ∈ sources.flatten, ∃ x ∈ mergeLoop visibleTs false [] [] fuel sources, x.key = y.key) ∧
      mergeLoop visibleTs true [] [] fuel sources =
        (mergeLoop visibleTs false [] [] fuel sources).takeWhile fun x => !x.isTombstone := by
  induction fuel generalizing sources with
  | zero =>
    have hnil : sources.flatten = [] := List.length_eq_zero_iff.mp (Nat.le_zero.mp hfuel)
    rw [hnil]
    exact ⟨List.Pairwise.nil, fun _ hx => (by cases hx), fun _ hy => (by cases hy), rfl⟩
  | succ fuel ih =>
    cases hbest : bestKey sources with
    | none =>
      rw [bestKey_eq_none hbest]
      simp only [mergeLoop, hbest]
      exact ⟨List.Pairwise.nil, fun _ hx => (by cases hx), fun _ hy => (by cases hy), rfl⟩
    | some key =>
      have hsort : ∀ src ∈ sources, KeySorted src := fun src hsrc => (hasc src hsrc).keySorted
      obtain ⟨⟨x0, hx0, hx0key⟩, hmin⟩ := bestKey_eq_some hsort hbest
      have hversions : ∀ x ∈ versionsOf key sources, x.timestamp ≤ visibleTs :=
        fun x hx => hvis x (mem_versionsOf_flatten hx).1
      have hne : versionsOf key sources ≠ [] :=
        List.ne_nil_of_mem ((mem_versionsOf hsort hmin).mpr ⟨hx0, hx0key⟩)
      obtain ⟨v, hv, hwin, htop⟩ := visWinner_of_visible hne hversions
      obtain ⟨hvsrc, hvkey⟩ := mem_versionsOf_flatten hv
      have hlt := dropKey_length_lt hbest
      obtain ⟨hrasc, hrnew, hrall, hrlast⟩ := ih (dropKey key sources) (dropKey_ascending hasc)
        (fun x hx => hvis x (mem_dropKey_flatten hx)) (by omega)
      have hfalse : mergeLoop visibleTs false [] [] (fuel + 1) sources =
          v :: mergeLoop visibleTs false [] [] fuel (dropKey key sources) := by
        simp only [mergeLoop, hbest]
        rw [keyResult_of_visible hversions hwin]
        simp
      have htrue : mergeLoop visibleTs true [] [] (fuel + 1) sources =
          if v.isTombstone then [] else v :: mergeLoop visibleTs true [] [] fuel (dropKey key sources) := by
        simp only [mergeLoop, hbest]
        rw [keyResult_of_visible hversions hwin]
        cases v.isTombstone <;> simp
      have hrest : ∀ x ∈ mergeLoop visibleTs false [] [] fuel (dropKey key sources),
          x ∈ sources.flatten ∧ key < x.key := by
        intro x hx
        obtain ⟨hsrc, hxkey⟩ := (mem_dropKey hsort hmin).mp (hrnew x hx).1
        exact ⟨hsrc, lt_of_le_of_ne (hmin x hsrc) (Ne.symm hxkey)⟩
      rw [hfalse, htrue]
      refine ⟨?_, ?_, ?_, ?_⟩
      · refine List.pairwise_cons.mpr ⟨?_, hrasc⟩
        intro x hx
        rw [hvkey]
        exact (hrest x hx).2
      · intro x hx
        rcases List.mem_cons.mp hx with rfl | hx
        · refine ⟨hvsrc, ?_⟩
          intro y hy hykey
          exact htop y ((mem_versionsOf hsort hmin).mpr ⟨hy, hykey.trans hvkey⟩)
        · obtain ⟨hsrc, hlt⟩ := hrest x hx
          refine ⟨hsrc, ?_⟩
          intro y hy hykey
          refine (hrnew x hx).2 y ((mem_dropKey hsort hmin).mpr ⟨hy, ?_⟩) hykey
          rw [hykey]
          exact ne_of_gt hlt
      · intro y hy
        by_cases hykey : y.key = key
        · exact ⟨v, List.mem_cons_self, hvkey.trans hykey.symm⟩
        · obtain ⟨x, hx, hxy⟩ := hrall y ((mem_dropKey hsort hmin).mpr ⟨hy, hykey⟩)
          exact ⟨x, List.mem_cons_of_mem _ hx, hxy⟩
      · rw [hrlast, List.takeWhile_cons]
        cases v.isTombstone <;> simp

/-- An entry is kept if nothing up to its key ends the list. -/
theorem mem_takeWhile_of_ascending {es : List KeyValuePair} {p : KeyValuePair → Bool} (h : Ascending es)
    {x : KeyValuePair} (hx : x ∈ es) (hp : ∀ y ∈ es, y.key ≤ x.key → p y = true) : x ∈ es.takeWhile p := by
  induction es with
  | nil => cases hx
  | cons e es ih =>
    obtain ⟨hhead, htail⟩ := List.pairwise_cons.mp h
    rcases List.mem_cons.mp hx with rfl | hx
    · rw [List.takeWhile_cons_of_pos (hp _ List.mem_cons_self (le_refl _))]
      exact List.mem_cons_self
    · rw [List.takeWhile_cons_of_pos (hp e List.mem_cons_self (le_of_lt (hhead x hx)))]
      exact List.mem_cons_of_mem _ (ih htail hx fun y hy => hp y (List.mem_cons_of_mem _ hy))

section Merge

variable {visibleTs : ℕ} {sources : List (List KeyValuePair)} (hasc : ∀ src ∈ sources, Ascending src)
  (hvis : ∀ x ∈ sources.flatten, x.timestamp ≤ visibleTs)

include hasc hvis

/-- At the last level the merge is cut before the first tombstone. -/
theorem merge_last : merge visibleTs true [] [] sources =
    (merge visibleTs false [] [] sources).takeWhile fun x => !x.isTombstone :=
  (mergeLoop_spec _ sources hasc hvis (Nat.le_refl _)).2.2.2

theorem merge_ascending (isLast : Bool) : Ascending (merge visibleTs isLast [] [] sources) := by
  have hfalse : Ascending (merge visibleTs false [] [] sources) :=
    (mergeLoop_spec _ sources hasc hvis (Nat.le_refl _)).1
  cases isLast with
  | false => exact hfalse
  | true =>
    rw [merge_last hasc hvis]
    exact hfalse.sublist (List.takeWhile_sublist _)

theorem merge_newest (isLast : Bool) :
    ∀ x ∈ merge visibleTs isLast [] [] sources, Newest sources.flatten x := by
  have hfalse : ∀ x ∈ merge visibleTs false [] [] sources, Newest sources.flatten x :=
    (mergeLoop_spec _ sources hasc hvis (Nat.le_refl _)).2.1
  cases isLast with
  | false => exact hfalse
  | true =>
    rw [merge_last hasc hvis]
    exact fun x hx => hfalse x ((List.takeWhile_sublist _).subset hx)

theorem merge_complete : ∀ y ∈ sources.flatten, ∃ x ∈ merge visibleTs false [] [] sources, x.key = y.key :=
  (mergeLoop_spec _ sources hasc hvis (Nat.le_refl _)).2.2.1

end Merge

/-! ## The output files -/

theorem outputFiles_entries (sizing : ℕ → ℕ × ℕ) (aborted : List ℕ) (seq : ℕ) (batches : List (List KeyValuePair)) :
    (outputFiles sizing aborted seq batches).map (fun p => p.2.entries) = batches := by
  induction batches generalizing seq with
  | nil => rfl
  | cons batch batches ih =>
    rw [outputFiles, List.map_cons, ih (seq + 1)]
    exact congrArg (· :: batches) (SSTableFile.entries_write sizing batch aborted)

end Kvdb.Compaction
