import Kvdb.SSTable.AbortedBlocks
import Kvdb.SSTable.Merge
import Mathlib.Data.List.Dedup
import Mathlib.Data.List.MinMax

/-! # What the outputs of a compaction hold

A compaction is to keep, of each key in order, the newest live version up to `visible_ts` (unless it is a tombstone and
the level is the last one) and the live versions above it. `Compact` does this with the versions that its iterators read,
among them aborted ones (`SSTable/AbortedBlocks`), and up to the first key of which nothing is kept. -/
namespace Kvdb.Compaction
set_option autoImplicit false

open SSTableFile (Ascending KeySorted)
open BPlusTree (live mem_live)

variable {visibleTs : ℕ} {isLast : Bool} {aborted : List ℕ} {sources : List (List KeyValuePair)}

/-! ## The versions to keep -/

/-- The newest version up to `visibleTs`; of two with one timestamp, the first. -/
def newestVisible (visibleTs : ℕ) (versions : List KeyValuePair) : Option KeyValuePair :=
  (versions.filter fun e => decide (e.timestamp ≤ visibleTs)).argmax KeyValuePair.timestamp

/-- What is to be kept of the versions of one key. -/
def kept (visibleTs : ℕ) (isLast : Bool) (versions : List KeyValuePair) : List KeyValuePair :=
  ((newestVisible visibleTs versions).filter fun w => !(w.isTombstone && isLast)).toList ++
    versions.filter fun e => decide (visibleTs < e.timestamp)

/-- The keys of some entries, in ascending order. -/
def keysOf (es : List KeyValuePair) : List Bytes := (es.map KeyValuePair.key).dedup.insertionSort fun a b => a ≤ b

/-- What is to be kept of all versions, key by key. -/
def selected (visibleTs : ℕ) (isLast : Bool) (es : List KeyValuePair) : List KeyValuePair :=
  (keysOf es).flatMap fun key => kept visibleTs isLast (Kvdb.versionsOf key es)

theorem mem_keysOf {es : List KeyValuePair} {key : Bytes} : key ∈ keysOf es ↔ ∃ x ∈ es, x.key = key := by
  rw [keysOf, List.mem_insertionSort, List.mem_dedup, List.mem_map]

theorem keysOf_pairwise (es : List KeyValuePair) : (keysOf es).Pairwise (· < ·) := by
  have hsorted := List.pairwise_insertionSort (fun a b : Bytes => a ≤ b) (es.map KeyValuePair.key).dedup
  have hnodup : (keysOf es).Nodup := (List.perm_insertionSort _ _).nodup_iff.mpr (List.nodup_dedup _)
  exact (hsorted.and hnodup).imp fun h => lt_of_le_of_ne h.1 h.2

theorem versionsOf_eq_nil_iff {key : Bytes} {es : List KeyValuePair} :
    Kvdb.versionsOf key es = [] ↔ key ∉ keysOf es := by
  rw [mem_keysOf, Kvdb.versionsOf, List.filter_eq_nil_iff]
  simp

theorem keyResult_eq_kept (versions : List KeyValuePair) :
    keyResult visibleTs isLast [] [] versions = kept visibleTs isLast versions := by
  have hwinner : visWinner visibleTs versions = newestVisible visibleTs versions := by
    rw [visWinner, newestVisible, List.argmax]
    congr 1
    funext winner cur
    cases winner <;> rfl
  unfold keyResult kept
  rw [hwinner, future]
  simp only [inRange, List.isEmpty_nil, Bool.true_or, Bool.and_true]
  congr 1
  cases newestVisible visibleTs versions with
  | none => rfl
  | some w => cases hdrop : !(w.isTombstone && isLast) <;> simp [hdrop, Option.filter]

theorem newestVisible_mem {versions : List KeyValuePair} {w : KeyValuePair} (h : w ∈ newestVisible visibleTs versions) :
    w ∈ versions ∧ w.timestamp ≤ visibleTs := by
  have hmem := List.argmax_mem h
  exact ⟨List.mem_of_mem_filter hmem, of_decide_eq_true (List.mem_filter.mp hmem).2⟩

theorem kept_subset {versions : List KeyValuePair} {x : KeyValuePair} (hx : x ∈ kept visibleTs isLast versions) :
    x ∈ versions := by
  rcases List.mem_append.mp hx with hx | hx
  · have hmem := Option.filter_eq_some_iff.mp (Option.mem_toList.mp hx)
    exact (newestVisible_mem hmem.1).1
  · exact List.mem_of_mem_filter hx

theorem kept_key {key : Bytes} {es : List KeyValuePair} :
    ∀ x ∈ kept visibleTs isLast (Kvdb.versionsOf key es), x.key = key :=
  fun _ hx => (Kvdb.mem_versionsOf.mp (kept_subset hx)).2

/-! ## The merge of sorted sources -/

theorem versionsOf_filter_ne {key key' : Bytes} (h : key' ≠ key) (es : List KeyValuePair) :
    Kvdb.versionsOf key' (es.filter fun e => decide (e.key ≠ key)) = Kvdb.versionsOf key' es := by
  rw [Kvdb.versionsOf, List.filter_filter]
  refine List.filter_congr fun x _ => ?_
  by_cases hx : x.key = key'
  · simp [hx, h]
  · simp [hx]

theorem bestKey_eq {key : Bytes} {keys : List Bytes} (hsort : ∀ src ∈ sources, KeySorted src)
    (hkeys : (key :: keys).Pairwise (· < ·)) (hmem : ∀ k, k ∈ key :: keys ↔ ∃ x ∈ sources.flatten, x.key = k) :
    bestKey sources = some key := by
  obtain ⟨x, hx, hxkey⟩ := (hmem key).mp List.mem_cons_self
  cases hbest : bestKey sources with
  | none =>
    rw [bestKey_eq_none hbest] at hx
    cases hx
  | some best =>
    obtain ⟨hin, hmin⟩ := bestKey_eq_some hsort hbest
    have hle : best ≤ key := hxkey ▸ hmin x hx
    rcases List.mem_cons.mp ((hmem best).mpr hin) with rfl | hlater
    · rfl
    · exact absurd ((List.pairwise_cons.mp hkeys).1 best hlater) (not_lt.mpr hle)

/-- The merge goes through the keys in order and stops where nothing is kept. -/
theorem mergeLoop_eq (keys : List Bytes) (fuel : ℕ) (sources : List (List KeyValuePair))
    (hsort : ∀ src ∈ sources, KeySorted src) (hkeys : keys.Pairwise (· < ·))
    (hmem : ∀ k, k ∈ keys ↔ ∃ x ∈ sources.flatten, x.key = k) (hfuel : sources.flatten.length ≤ fuel) :
    mergeLoop visibleTs isLast [] [] fuel sources =
      ((keys.map fun key => kept visibleTs isLast (Kvdb.versionsOf key sources.flatten)).takeWhile
        fun es => !es.isEmpty).flatten := by
  induction keys generalizing fuel sources with
  | nil =>
    have hnone : bestKey sources = none := by
      cases hbest : bestKey sources with
      | none => rfl
      | some best => exact absurd ((hmem best).mpr (bestKey_eq_some hsort hbest).1) List.not_mem_nil
    cases fuel with
    | zero => rfl
    | succ fuel =>
      simp only [mergeLoop, hnone]
      rfl
  | cons key keys ih =>
    have hbest := bestKey_eq hsort hkeys hmem
    have hmin := (bestKey_eq_some hsort hbest).2
    have hlt := dropKey_length_lt hbest
    obtain ⟨hversions, hdrop⟩ := versionsOf_eq hsort hmin
    obtain ⟨hhead, htail⟩ := List.pairwise_cons.mp hkeys
    cases fuel with
    | zero => omega
    | succ fuel =>
      have hrest : ∀ k, k ∈ keys ↔ ∃ x ∈ (dropKey key sources).flatten, x.key = k := by
        intro k
        have hk := hmem k
        rw [List.mem_cons] at hk
        refine ⟨fun hin => ?_, ?_⟩
        · obtain ⟨x, hx, rfl⟩ := hk.mp (.inr hin)
          exact ⟨x, (mem_dropKey hsort hmin).mpr ⟨hx, ne_of_gt (hhead _ hin)⟩, rfl⟩
        · rintro ⟨x, hx, rfl⟩
          obtain ⟨hx, hne⟩ := (mem_dropKey hsort hmin).mp hx
          exact (hk.mpr ⟨x, hx, rfl⟩).resolve_left hne
      have hlater : (keys.map fun k => kept visibleTs isLast (Kvdb.versionsOf k (dropKey key sources).flatten)) =
          keys.map fun k => kept visibleTs isLast (Kvdb.versionsOf k sources.flatten) := by
        refine List.map_congr_left fun k hk => ?_
        rw [hdrop, versionsOf_filter_ne (ne_of_gt (hhead k hk))]
      have hloop := ih fuel (dropKey key sources) (dropKey_sorted hsort) htail hrest (by omega)
      rw [hlater] at hloop
      simp only [mergeLoop, hbest]
      rw [keyResult_eq_kept, hversions, hloop, List.map_cons, List.takeWhile_cons]
      cases (kept visibleTs isLast (Kvdb.versionsOf key sources.flatten)).isEmpty <;> rfl

/-- The keys that the merge goes through. -/
def mergedKeys (visibleTs : ℕ) (isLast : Bool) (es : List KeyValuePair) : List Bytes :=
  (keysOf es).takeWhile fun key => !(kept visibleTs isLast (Kvdb.versionsOf key es)).isEmpty

theorem merge_eq (hsort : ∀ src ∈ sources, KeySorted src) :
    merge visibleTs isLast [] [] sources = (mergedKeys visibleTs isLast sources.flatten).flatMap
      fun key => kept visibleTs isLast (Kvdb.versionsOf key sources.flatten) := by
  rw [merge, mergeLoop_eq (keysOf sources.flatten) _ sources hsort (keysOf_pairwise _) (fun k => mem_keysOf)
    (Nat.le_refl _), List.takeWhile_map, List.flatMap]
  rfl

/-! ## Lists that are put together key by key -/

section ByKey

variable {keys keys' : List Bytes} {f g : Bytes → List KeyValuePair}

theorem versionsOf_flatMap (hkeys : keys.Nodup) (hf : ∀ k, ∀ x ∈ f k, x.key = k) (key : Bytes) :
    Kvdb.versionsOf key (keys.flatMap f) = if key ∈ keys then f key else [] := by
  have hother : ∀ k, k ≠ key → Kvdb.versionsOf key (f k) = [] := by
    intro k hk
    rw [Kvdb.versionsOf, List.filter_eq_nil_iff]
    intro x hx
    simpa [hf k x hx] using hk
  have hown : Kvdb.versionsOf key (f key) = f key := by
    rw [Kvdb.versionsOf, List.filter_eq_self]
    intro x hx
    simpa using hf key x hx
  induction keys with
  | nil => rfl
  | cons k keys ih =>
    obtain ⟨hk, hkeys⟩ := List.nodup_cons.mp hkeys
    have hrest := ih hkeys
    rw [List.flatMap_cons, Kvdb.versionsOf, List.filter_append]
    rw [Kvdb.versionsOf] at hrest
    rw [hrest]
    by_cases heq : k = key
    · subst heq
      rw [if_neg hk, List.append_nil, if_pos List.mem_cons_self]
      exact hown
    · have hiff : key ∈ k :: keys ↔ key ∈ keys := by simp [Ne.symm heq]
      have hnone := hother k heq
      rw [Kvdb.versionsOf] at hnone
      rw [hnone, List.nil_append, if_congr hiff rfl rfl]

/-- Keys without entries can be left out. -/
theorem flatMap_nonempty (keys : List Bytes) (f : Bytes → List KeyValuePair) :
    (keys.filter fun k => !(f k).isEmpty).flatMap f = keys.flatMap f := by
  induction keys with
  | nil => rfl
  | cons k keys ih =>
    rw [List.filter_cons]
    split
    · rw [List.flatMap_cons, List.flatMap_cons, ih]
    · next hnil =>
      have hnone : f k = [] := by simpa using hnil
      rw [List.flatMap_cons, hnone, List.nil_append, ih]

/-- Two such lists are equal exactly when they agree on every key. -/
theorem flatMap_eq_iff (hkeys : keys.Pairwise (· < ·)) (hkeys' : keys'.Pairwise (· < ·))
    (hf : ∀ k, ∀ x ∈ f k, x.key = k) (hg : ∀ k, ∀ x ∈ g k, x.key = k) :
    keys.flatMap f = keys'.flatMap g ↔
      ∀ key, (if key ∈ keys then f key else []) = if key ∈ keys' then g key else [] := by
  refine ⟨fun h key => ?_, fun h => ?_⟩
  · rw [← versionsOf_flatMap (hkeys.imp ne_of_lt) hf, ← versionsOf_flatMap (hkeys'.imp ne_of_lt) hg, h]
  · have hmem : ∀ key, key ∈ keys.filter (fun k => !(f k).isEmpty) ↔ key ∈ keys'.filter (fun k => !(g k).isEmpty) := by
      intro key
      have hkey := h key
      simp only [List.mem_filter, Bool.not_eq_true', List.isEmpty_eq_false_iff]
      by_cases hin : key ∈ keys <;> by_cases hin' : key ∈ keys' <;> simp_all
    have heq : keys.filter (fun k => !(f k).isEmpty) = keys'.filter (fun k => !(g k).isEmpty) :=
      List.Pairwise.eq_of_mem_iff (hkeys.filter _) (hkeys'.filter _) hmem
    rw [← flatMap_nonempty keys f, ← flatMap_nonempty keys' g, heq]
    refine List.flatMap_congr fun key hkey => ?_
    have hin' : key ∈ keys' := List.mem_of_mem_filter hkey
    have hin : key ∈ keys := by
      rw [← heq] at hkey
      exact List.mem_of_mem_filter hkey
    have hkey := h key
    rwa [if_pos hin, if_pos hin'] at hkey

/-- In ascending order a key is reached if the test holds up to it. -/
theorem mem_takeWhile_iff (hkeys : keys.Pairwise (· < ·)) (p : Bytes → Bool) (key : Bytes) :
    key ∈ keys.takeWhile p ↔ key ∈ keys ∧ ∀ k ∈ keys, k ≤ key → p k = true := by
  induction keys with
  | nil => simp
  | cons k keys ih =>
    obtain ⟨hhead, htail⟩ := List.pairwise_cons.mp hkeys
    rw [List.takeWhile_cons]
    cases hp : p k with
    | false =>
      simp only [Bool.false_eq_true, if_false, List.not_mem_nil, false_iff, not_and]
      intro hin hall
      have hle : k ≤ key := by
        rcases List.mem_cons.mp hin with rfl | hin
        · exact le_refl _
        · exact le_of_lt (hhead key hin)
      rw [hall k List.mem_cons_self hle] at hp
      cases hp
    | true =>
      rw [if_pos rfl, List.mem_cons, List.mem_cons, ih htail]
      refine ⟨?_, ?_⟩
      · rintro (rfl | ⟨hin, hall⟩)
        · refine ⟨.inl rfl, fun k hk hle => ?_⟩
          rcases List.mem_cons.mp hk with rfl | hk
          · exact hp
          · exact absurd (hhead k hk) (not_lt.mpr hle)
        · refine ⟨.inr hin, fun k' hk' hle => ?_⟩
          rcases List.mem_cons.mp hk' with rfl | hk'
          · exact hp
          · exact hall k' hk' hle
      · rintro ⟨rfl | hin, hall⟩
        · exact .inl rfl
        · exact .inr ⟨hin, fun k' hk' => hall k' (List.mem_cons_of_mem _ hk')⟩

end ByKey

/-! ## Aborted versions among those that are read -/

/-- Nothing is kept of these versions: the newest one is a tombstone, all are visible, and the level is the last. -/
def Drops (visibleTs : ℕ) (isLast : Bool) (versions : List KeyValuePair) : Prop :=
  isLast = true ∧ (∀ x ∈ versions, x.timestamp ≤ visibleTs) ∧
    ∃ w ∈ newestVisible visibleTs versions, w.isTombstone = true

/-- The aborted ones of these versions change nothing: they are visible, and if the newest visible version is one of
them it is a tombstone that the last level drops, and so is the newest live one. -/
def Harmless (aborted : List ℕ) (visibleTs : ℕ) (isLast : Bool) (versions : List KeyValuePair) : Prop :=
  (∀ x ∈ versions, x.timestamp ∈ aborted → x.timestamp ≤ visibleTs) ∧
    ∀ w ∈ newestVisible visibleTs versions, w.timestamp ∈ aborted → isLast = true ∧ w.isTombstone = true ∧
      ∀ y ∈ newestVisible visibleTs (live aborted versions), y.isTombstone = true

theorem newestVisible_eq_none {versions : List KeyValuePair} :
    newestVisible visibleTs versions = none ↔ ∀ x ∈ versions, visibleTs < x.timestamp := by
  rw [newestVisible, List.argmax_eq_none, List.filter_eq_nil_iff]
  simp

theorem kept_eq_nil_iff {versions : List KeyValuePair} :
    kept visibleTs isLast versions = [] ↔ versions = [] ∨ Drops visibleTs isLast versions := by
  refine ⟨fun h => ?_, ?_⟩
  · obtain ⟨hwinner, hfuture⟩ := List.append_eq_nil_iff.mp h
    have hvis : ∀ x ∈ versions, x.timestamp ≤ visibleTs := by
      intro x hx
      simpa using List.filter_eq_nil_iff.mp hfuture x hx
    cases versions with
    | nil => exact .inl rfl
    | cons v versions =>
      refine .inr ?_
      cases hnew : newestVisible visibleTs (v :: versions) with
      | none => exact absurd (newestVisible_eq_none.mp hnew v List.mem_cons_self) (Nat.not_lt.mpr (hvis v List.mem_cons_self))
      | some w =>
        rw [hnew] at hwinner
        have hdrop : w.isTombstone = true ∧ isLast = true := by simpa [Option.filter] using hwinner
        exact ⟨hdrop.2, hvis, w, hnew, hdrop.1⟩
  · rintro (rfl | ⟨hlast, hvis, w, hw, htomb⟩)
    · rfl
    · have hfuture : versions.filter (fun e => decide (visibleTs < e.timestamp)) = [] := by
        rw [List.filter_eq_nil_iff]
        intro x hx
        simpa using hvis x hx
      have hnew : newestVisible visibleTs versions = some w := hw
      rw [kept, hfuture, hnew]
      simp [Option.filter, hlast, htomb]

/-- The first maximum stays the first maximum when others are left out. -/
theorem argmax_filter {es : List KeyValuePair} {w : KeyValuePair} (p : KeyValuePair → Bool)
    (h : es.argmax KeyValuePair.timestamp = some w) (hw : p w = true) :
    (es.filter p).argmax KeyValuePair.timestamp = some w := by
  induction es generalizing w with
  | nil => cases h
  | cons a es ih =>
    rw [List.argmax_cons] at h
    cases hmax : es.argmax KeyValuePair.timestamp with
    | none =>
      rw [hmax] at h
      cases h
      rw [List.argmax_eq_none.mp hmax, List.filter_cons_of_pos hw]
      rfl
    | some c =>
      rw [hmax] at h
      simp only [] at h
      split at h
      · next hlt =>
        cases h
        have hrest := ih hmax hw
        rw [List.filter_cons]
        split
        · rw [List.argmax_cons, hrest]
          simp only []
          rw [if_pos hlt]
        · exact hrest
      · next hge =>
        cases h
        rw [List.filter_cons_of_pos hw, List.argmax_cons]
        cases hrest : (es.filter p).argmax KeyValuePair.timestamp with
        | none => rfl
        | some d =>
          have hd : d.timestamp ≤ c.timestamp :=
            List.le_of_mem_argmax (List.mem_of_mem_filter (List.argmax_mem hrest)) hmax
          simp only []
          rw [if_neg (by omega)]

theorem newestVisible_live {versions : List KeyValuePair} {w : KeyValuePair}
    (h : newestVisible visibleTs versions = some w) (hw : w.timestamp ∉ aborted) :
    newestVisible visibleTs (live aborted versions) = some w := by
  have hcomm : (live aborted versions).filter (fun e => decide (e.timestamp ≤ visibleTs)) =
      (versions.filter fun e => decide (e.timestamp ≤ visibleTs)).filter fun e => !decide (e.timestamp ∈ aborted) := by
    rw [live, List.filter_filter, List.filter_filter]
    exact List.filter_congr fun x _ => Bool.and_comm _ _
  rw [newestVisible, hcomm]
  exact argmax_filter _ h (by simpa using hw)

theorem kept_live_iff {versions : List KeyValuePair} :
    kept visibleTs isLast versions = kept visibleTs isLast (live aborted versions) ↔
      Harmless aborted visibleTs isLast versions := by
  refine ⟨fun h => ?_, ?_⟩
  · have hlive : ∀ x ∈ kept visibleTs isLast versions, x.timestamp ∉ aborted :=
      fun x hx => (mem_live.mp (kept_subset (h ▸ hx))).2
    refine ⟨fun x hx hab => ?_, fun w hw hab => ?_⟩
    · by_contra hgt
      refine hlive x (List.mem_append_right _ (List.mem_filter.mpr ⟨hx, ?_⟩)) hab
      exact decide_eq_true (Nat.lt_of_not_le hgt)
    · have hnew : newestVisible visibleTs versions = some w := hw
      have hdrop : w.isTombstone = true ∧ isLast = true := by
        by_contra hkeep
        rw [← Bool.and_eq_true, Bool.not_eq_true] at hkeep
        refine hlive w (List.mem_append_left _ ?_) hab
        rw [hnew, Option.mem_toList]
        exact Option.filter_eq_some_iff.mpr ⟨rfl, by rw [hkeep]; rfl⟩
      refine ⟨hdrop.2, hdrop.1, fun y hy => ?_⟩
      by_contra htomb
      have hkept : y ∈ kept visibleTs isLast versions := by
        rw [h]
        refine List.mem_append_left _ (Option.mem_toList.mpr (Option.filter_eq_some_iff.mpr ⟨hy, ?_⟩))
        rw [(Bool.not_eq_true _).mp htomb]
        rfl
      rcases List.mem_append.mp hkept with hmem | hmem
      · have hfilter := Option.filter_eq_some_iff.mp (Option.mem_toList.mp hmem)
        rw [hnew] at hfilter
        cases hfilter.1
        exact htomb hdrop.1
      · have hgt := of_decide_eq_true (List.mem_filter.mp hmem).2
        exact absurd hgt (Nat.not_lt.mpr (newestVisible_mem hy).2)
  · rintro ⟨hfuture, hwinner⟩
    have hsame : versions.filter (fun e => decide (visibleTs < e.timestamp)) =
        (live aborted versions).filter fun e => decide (visibleTs < e.timestamp) := by
      rw [live, List.filter_filter]
      refine List.filter_congr fun x hx => ?_
      by_cases hab : x.timestamp ∈ aborted
      · have hle := hfuture x hx hab
        simp [hab, Nat.not_lt.mpr hle]
      · simp [hab]
    unfold kept
    rw [hsame]
    congr 2
    cases hnew : newestVisible visibleTs versions with
    | none =>
      have hnone : newestVisible visibleTs (live aborted versions) = none :=
        newestVisible_eq_none.mpr fun x hx => newestVisible_eq_none.mp hnew x (mem_live.mp hx).1
      rw [hnone]
    | some w =>
      by_cases hab : w.timestamp ∈ aborted
      · obtain ⟨hlast, htomb, hall⟩ := hwinner w hnew hab
        cases hlive : newestVisible visibleTs (live aborted versions) with
        | none => simp [Option.filter, hlast, htomb]
        | some y => simp [Option.filter, hlast, htomb, hall y hlive]
      · rw [newestVisible_live hnew hab]

/-- What is read of the inputs gives what is to be kept: up to the first key that is dropped the aborted versions change
nothing, and from there on there is nothing to keep. -/
def Clean (aborted : List ℕ) (visibleTs : ℕ) (isLast : Bool) (es : List KeyValuePair) : Prop :=
  ∀ key,
    ((∃ key' ≤ key, Drops visibleTs isLast (Kvdb.versionsOf key' es)) →
      live aborted (Kvdb.versionsOf key es) = [] ∨ Drops visibleTs isLast (live aborted (Kvdb.versionsOf key es))) ∧
    ((¬ ∃ key' ≤ key, Drops visibleTs isLast (Kvdb.versionsOf key' es)) →
      Harmless aborted visibleTs isLast (Kvdb.versionsOf key es))

theorem versionsOf_live (key : Bytes) (es : List KeyValuePair) :
    Kvdb.versionsOf key (live aborted es) = live aborted (Kvdb.versionsOf key es) := by
  rw [Kvdb.versionsOf, Kvdb.versionsOf, live, live, List.filter_filter, List.filter_filter]
  exact List.filter_congr fun x _ => Bool.and_comm _ _

/-- A key is merged exactly if it is there and no key up to it is dropped. -/
theorem mem_mergedKeys {es : List KeyValuePair} {key : Bytes} :
    key ∈ mergedKeys visibleTs isLast es ↔
      key ∈ keysOf es ∧ ¬ ∃ key' ≤ key, Drops visibleTs isLast (Kvdb.versionsOf key' es) := by
  rw [mergedKeys, mem_takeWhile_iff (keysOf_pairwise es)]
  refine and_congr_right fun _ => ⟨?_, fun h k hk hle => ?_⟩
  · rintro hall ⟨k, hle, hdrop⟩
    have hk : k ∈ keysOf es := by
      by_contra hnot
      obtain ⟨-, -, w, hw, -⟩ := hdrop
      rw [versionsOf_eq_nil_iff.mpr hnot] at hw
      cases hw
    have hkept := hall k hk hle
    rw [Bool.not_eq_true', List.isEmpty_eq_false_iff] at hkept
    exact hkept (kept_eq_nil_iff.mpr (.inr hdrop))
  · rw [Bool.not_eq_true', List.isEmpty_eq_false_iff]
    intro hnil
    rcases kept_eq_nil_iff.mp hnil with hnone | hdrop
    · exact versionsOf_eq_nil_iff.mp hnone hk
    · exact h ⟨k, hle, hdrop⟩

theorem merge_eq_selected_iff (hsort : ∀ src ∈ sources, KeySorted src) (aborted : List ℕ) :
    merge visibleTs isLast [] [] sources = selected visibleTs isLast (live aborted sources.flatten) ↔
      Clean aborted visibleTs isLast sources.flatten := by
  have hmerged : (mergedKeys visibleTs isLast sources.flatten).Pairwise (· < ·) :=
    (keysOf_pairwise _).sublist (List.takeWhile_sublist _)
  have hbyKey := flatMap_eq_iff hmerged (keysOf_pairwise (live aborted sources.flatten))
    (f := fun key => kept visibleTs isLast (Kvdb.versionsOf key sources.flatten))
    (g := fun key => kept visibleTs isLast (Kvdb.versionsOf key (live aborted sources.flatten)))
    (fun _ => kept_key) (fun _ => kept_key)
  rw [merge_eq hsort, selected, hbyKey]
  refine forall_congr' fun key => ?_
  have hright : (if key ∈ keysOf (live aborted sources.flatten) then
      kept visibleTs isLast (Kvdb.versionsOf key (live aborted sources.flatten)) else []) =
      kept visibleTs isLast (live aborted (Kvdb.versionsOf key sources.flatten)) := by
    rw [← versionsOf_live]
    split
    · rfl
    · next hnot => rw [versionsOf_eq_nil_iff.mpr hnot]; rfl
  rw [hright]
  by_cases hstop : ∃ key' ≤ key, Drops visibleTs isLast (Kvdb.versionsOf key' sources.flatten)
  · have hnot : key ∉ mergedKeys visibleTs isLast sources.flatten := fun hin => (mem_mergedKeys.mp hin).2 hstop
    rw [if_neg hnot, eq_comm, kept_eq_nil_iff]
    exact ⟨fun h => ⟨fun _ => h, fun hno => absurd hstop hno⟩, fun h => h.1 hstop⟩
  · have hleft : (if key ∈ mergedKeys visibleTs isLast sources.flatten then
        kept visibleTs isLast (Kvdb.versionsOf key sources.flatten) else []) =
        kept visibleTs isLast (Kvdb.versionsOf key sources.flatten) := by
      split
      · rfl
      · next hnot =>
        have hnone : key ∉ keysOf sources.flatten := fun hin => hnot (mem_mergedKeys.mpr ⟨hin, hstop⟩)
        rw [versionsOf_eq_nil_iff.mpr hnone]
        rfl
    rw [hleft, kept_live_iff]
    exact ⟨fun h => ⟨fun hyes => absurd hyes hstop, fun _ => h⟩, fun h => h.2 hstop⟩

/-! ## The outputs of a job -/

namespace Job

/-- The entries of an input. -/
def entriesOf (j : Job) (m : Metadata) : List KeyValuePair := ((j.files m.filepath).map SSTableFile.entries).getD []

/-- All versions of the inputs, in the order in which these are opened. -/
def versions (j : Job) : List KeyValuePair := (orderedInputs j.inputs).flatMap j.entriesOf

/-- What the iterators read of them. -/
def read (j : Job) : List KeyValuePair :=
  (orderedInputs j.inputs).flatMap fun m =>
    SSTableIterator.readBlocks (mergedAborted j.inputs) (((j.files m.filepath).map SSTableFile.blocks).getD [])

/-- No bounds, nothing cached, and each input a file that is sorted by key. -/
structure Plain (j : Job) : Prop where
  lower : j.lower = []
  upper : j.upper = []
  cold : ∀ m ∈ j.inputs, ∀ i, cachedBlocks j.cache m.manifestSeq i = none
  files : ∀ m ∈ j.inputs, ∃ f, j.files m.filepath = some f ∧ f.WellFormed ∧ KeySorted f.entries

variable {j : Job}

theorem Plain.stream (h : j.Plain) {m : Metadata} (hm : m ∈ orderedInputs j.inputs) :
    SSTableIterator.stream (j.files m.filepath) (cachedBlocks j.cache m.manifestSeq) (mergedAborted j.inputs) =
      SSTableIterator.readBlocks (mergedAborted j.inputs) (((j.files m.filepath).map SSTableFile.blocks).getD []) := by
  have hin := (List.mem_insertionSort _).mp hm
  obtain ⟨f, hfile, hf, -⟩ := h.files m hin
  rw [hfile]
  exact SSTableIterator.stream_cold hf (h.cold m hin) _

theorem flatten_filter_nonempty (sources : List (List KeyValuePair)) :
    (sources.filter fun s => !s.isEmpty).flatten = sources.flatten := by
  induction sources with
  | nil => rfl
  | cons source sources ih =>
    cases source with
    | nil => exact ih
    | cons x source =>
      rw [List.filter_cons_of_pos (by rfl), List.flatten_cons, List.flatten_cons, ih]

theorem Plain.sources_flatten (h : j.Plain) : j.sources.flatten = j.read := by
  rw [Job.sources, Compaction.sources, flatten_filter_nonempty, read, List.flatMap]
  exact congrArg List.flatten (List.map_congr_left fun m hm => h.stream hm)

theorem Plain.sources_sorted (h : j.Plain) : ∀ src ∈ j.sources, KeySorted src := by
  intro src hsrc
  obtain ⟨m, hm, rfl⟩ := List.mem_map.mp (List.mem_of_mem_filter hsrc)
  rw [h.stream hm]
  obtain ⟨f, hfile, -, hsort⟩ := h.files m ((List.mem_insertionSort _).mp hm)
  rw [hfile]
  exact hsort.sublist (SSTableIterator.readBlocks_sublist _ f.blocks)

theorem live_read (j : Job) : live (mergedAborted j.inputs) j.read = live (mergedAborted j.inputs) j.versions := by
  rw [read, versions]
  induction orderedInputs j.inputs with
  | nil => rfl
  | cons m inputs ih =>
    rw [List.flatMap_cons, List.flatMap_cons, BPlusTree.live_append, BPlusTree.live_append, ih,
      SSTableIterator.live_readBlocks, entriesOf]
    cases j.files m.filepath <;> rfl

/-- The output files hold what is merged. -/
theorem files_entries (j : Job) : ((compact j).files.map fun p => p.2.entries).flatten = j.merged := by
  have hbatches : j.batches.flatten = j.merged := Pack.pack_flatten _ _ _ _
  unfold compact
  split
  · next hnone =>
    rw [Job.merged, merge, List.isEmpty_iff.mp hnone]
    rfl
  · rw [← hbatches]
    exact congrArg List.flatten (outputFiles_entries _ _ _ _)

end Job

/-- The outputs of a compaction hold exactly what is to be kept of the live versions of its inputs, if and only if the
aborted versions that are read change nothing and nothing is to be kept behind a key that is dropped. -/
theorem compact_exact_iff (j : Job) (h : j.Plain) :
    ((compact j).files.map fun p => p.2.entries).flatten =
        selected j.visibleTs j.isLast (live (mergedAborted j.inputs) j.versions) ↔
      Clean (mergedAborted j.inputs) j.visibleTs j.isLast j.read := by
  rw [j.files_entries, Job.merged, h.lower, h.upper, ← j.live_read, ← h.sources_flatten]
  exact merge_eq_selected_iff h.sources_sorted _

/-- A compaction of one file into the last level; a key is deleted, and the one behind it is not. -/
def tombstoneJob : Job where
  sizing := fun _ => (0, 0)
  files := fun n => if n = 1 then some (SSTableFile.write (fun _ => (0, 0)) [⟨[1], [], 1, true⟩, ⟨[2], [7], 2, false⟩] [])
    else none
  cache := SSTableCache.empty
  inputs := [{ filepath := 1 }]
  seqStart := 2
  level := 7
  maxSstableSize := 4096
  isLast := true
  lower := []
  upper := []
  visibleTs := 5

theorem tombstoneJob_plain : tombstoneJob.Plain := by
  refine ⟨rfl, rfl, fun m hm i => ?_, fun m hm => ?_⟩
  · rw [List.mem_singleton.mp hm]
    rfl
  · rw [List.mem_singleton.mp hm]
    refine ⟨_, rfl, SSTableFile.write_wellFormed _ _ _, ?_⟩
    rw [SSTableFile.entries_write, KeySorted]
    decide

/-- The condition at that job. -/
theorem tombstoneJob_exact_iff : tombstoneJob.Plain ∧
    (((compact tombstoneJob).files.map fun p => p.2.entries).flatten =
        selected 5 true (live (mergedAborted tombstoneJob.inputs) tombstoneJob.versions) ↔
      Clean (mergedAborted tombstoneJob.inputs) 5 true tombstoneJob.read) :=
  ⟨tombstoneJob_plain, compact_exact_iff tombstoneJob tombstoneJob_plain⟩

/-- The key behind the dropped tombstone is lost. -/
theorem key_behind_tombstone_lost :
    ¬ ∀ j : Job, j.Plain → ((compact j).files.map fun p => p.2.entries).flatten =
      selected j.visibleTs j.isLast (live (mergedAborted j.inputs) j.versions) := by
  intro h
  have heq := h tombstoneJob tombstoneJob_plain
  have hnone : ((compact tombstoneJob).files.map fun p => p.2.entries).flatten = [] := by decide
  have hsome : selected tombstoneJob.visibleTs tombstoneJob.isLast
      (live (mergedAborted tombstoneJob.inputs) tombstoneJob.versions) = [⟨[2], [7], 2, false⟩] := by decide
  rw [hnone, hsome] at heq
  cases heq

end Kvdb.Compaction
