import Kvdb.MemTable.Keys
import Kvdb.MemTable.PageBytes

/-! # Copies, splits and searches of leaf pages in bytes (`bptree.hpp`)

`Insert` copies a page as a whole, and `SplitCoW` entry by entry into two new pages. The entries of the copies are those of
the page, and a search in the bytes ends where the search in the slots does. -/
namespace Kvdb.PageBytes.LeafBytes
set_option autoImplicit false

open LittleEndian Region
open LeafPage (slotSize)

/-- `CopyLeafContent`, into a page with other contents. -/
def copyLeafContent (p src : LeafBytes) : LeafBytes where
  count := src.count
  dataStart := src.dataStart
  slotEnd := src.slotEnd
  raw := write p.raw slotBase (read src.raw slotBase 4072)

/-- The loops of `SplitCoW` over the entries of a page: `k` of them from the `i`th on. -/
def copyEntries (src : LeafBytes) : ℕ → ℕ → LeafBytes → LeafBytes
  | 0, _, p => p
  | k + 1, i, p => copyEntries src k (i + 1) (copyEntry src i p p.count)

/-- The leaf part of `SplitCoW`, with two new pages, and whether one of them has taken the entry. -/
def splitLeaf (p left right : LeafBytes) (pos : ℕ) (e : PageEntry) : (LeafBytes × LeafBytes) × Bool :=
  let mid := p.count / 2
  let l := copyEntries p mid 0 left
  let r := copyEntries p (p.count - mid) mid right
  if pos < mid then
    let a := l.insertEntry pos e
    if a.2 then ((a.1, r), true) else
      let b := r.insertEntry r.count e
      ((a.1, b.1), b.2)
  else
    let b := r.insertEntry (pos - mid) e
    if b.2 then ((l, b.1), true) else
      let a := l.insertEntry l.count e
      ((a.1, b.1), a.2)

/-- The key of a record. -/
def keyAt (p : LeafBytes) (i : ℕ) : Bytes := read p.raw (p.offset i) (p.keyLen i)

/-- `Find`. -/
def find (p : LeafBytes) (key : Bytes) : ℕ :=
  Bisect.bisect (fun i => decide (key ≤ p.keyAt i)) (fun lo hi => (lo + (hi - 1)) / 2) (List.range p.count) p.count 0
    p.count

/-- The Boolean that `Find` returns. -/
def found (p : LeafBytes) (key : Bytes) : Bool := decide (p.find key < p.count) && decide (p.keyAt (p.find key) = key)

/-- The version at a slot, with the value that `blobs` has for its handle. -/
def versionAt (blobs : ℕ → Bytes) (p : LeafBytes) (i : ℕ) : KeyValuePair := (p.entryAt i).version blobs

/-- The loop of `Lookup` over `k` slots from the `i`th on. -/
def scanVersions (blobs : ℕ → Bytes) (aborted : List ℕ) (readTs : ℕ) (key : Bytes) (p : LeafBytes) :
    ℕ → ℕ → Option KeyValuePair
  | 0, _ => none
  | k + 1, i =>
    let klen := p.keyLen i
    if klen ≠ key.length % 2 ^ 16 ∨ read p.raw (p.offset i) klen ≠ key.take klen then none
    else if p.timestamp i ∈ aborted then scanVersions blobs aborted readTs key p k (i + 1)
    else if p.timestamp i ≤ readTs then some (p.versionAt blobs i)
    else scanVersions blobs aborted readTs key p k (i + 1)

/-! ## The copy of a page -/

/-- A page with the same header and the same bytes behind it. -/
theorem Filled.congr {p q : LeafBytes} (h : p.Filled) (hcount : q.count = p.count) (hstart : q.dataStart = p.dataStart)
    (hend : q.slotEnd = p.slotEnd) (hraw : ∀ x, slotBase ≤ x → x < Config.pageSize → q.raw x = p.raw x) :
    q.Filled ∧ q.entries = p.entries := by
  have htop := h.top
  have hbelow := h.below
  have hslots := h.slotEnd
  have hdir : ∀ i < p.count, read q.raw (slot i) slotSize = read p.raw (slot i) slotSize := by
    intro i hi
    have hbase : slotBase ≤ slot i := Nat.le_add_right ..
    have hslot := slot_mono hi
    exact read_congr fun k hk => hraw _ (by omega) (by omega)
  have hentry : ∀ i < p.count, q.entryAt i = p.entryAt i ∧ q.offset i = p.offset i ∧ q.recSize i = p.recSize i := by
    intro i hi
    obtain ⟨hoff, hkey, hword, hts⟩ := fields_congr (hdir i hi)
    have hval : q.valLen i = p.valLen i := by rw [valLen, valLen, hword]
    have htomb : q.isTombstone i = p.isTombstone i := by rw [isTombstone, isTombstone, hword]
    have hrec := h.records i hi
    have hbase : slotBase ≤ slot p.count := Nat.le_add_right ..
    refine ⟨entryAt_congr hkey hval htomb hts ?_, hoff, by rw [recSize, recSize, hkey, hval]⟩
    rw [hoff]
    exact read_congr fun k hk => hraw _ (by omega) (by omega)
  have hentries : q.entries = p.entries := by
    rw [entries, entries, hcount]
    exact List.map_congr_left fun i hi => (hentry i (List.mem_range.mp hi)).1
  refine ⟨⟨⟨by rw [hend, hcount, hslots], by rw [hend, hstart]; exact hbelow, by rw [hstart]; exact htop, fun i hi => ?_⟩,
    by rw [hstart, hentries, h.sum]⟩, hentries⟩
  rw [hcount] at hi
  rw [hstart, (hentry i hi).2.1, (hentry i hi).2.2]
  exact h.records i hi

theorem copyLeafContent_spec (p : LeafBytes) {src : LeafBytes} (h : src.Filled) :
    (p.copyLeafContent src).Filled ∧ (p.copyLeafContent src).entries = src.entries := by
  refine h.congr rfl rfl rfl fun x hbase hx => ?_
  obtain ⟨k, rfl⟩ := Nat.exists_eq_add_of_le hbase
  have hk : k < 4072 := by
    have hpage : slotBase + 4072 = Config.pageSize := rfl
    omega
  have hin := write_inside p.raw slotBase (show k < (read src.raw slotBase 4072).length by rwa [length_read])
  rw [getElem?_read _ hk, Option.some_inj] at hin
  exact hin

/-! ## The two halves -/

theorem getElem?_entries (p : LeafBytes) {i : ℕ} (hi : i < p.count) : p.entries[i]? = some (p.entryAt i) := by
  rw [entries, List.getElem?_map, List.getElem?_range hi, Option.map_some]

theorem copyEntries_spec {src p : LeafBytes} {k i : ℕ} (hp : p.Filled) (hi : i + k ≤ src.count)
    (hroom : (p.entries.map cost).sum + (((src.entries.drop i).take k).map cost).sum ≤ 4072) :
    (copyEntries src k i p).Filled ∧ (copyEntries src k i p).entries = p.entries ++ (src.entries.drop i).take k := by
  induction k generalizing i p with
  | zero => exact ⟨hp, by rw [List.take_zero, List.append_nil]; rfl⟩
  | succ k ih =>
    obtain ⟨hlt, hat⟩ := List.getElem?_eq_some_iff.mp (getElem?_entries src (show i < src.count by omega))
    rw [List.drop_eq_getElem_cons hlt, List.take_succ_cons, hat] at hroom ⊢
    rw [List.map_cons, List.sum_cons, cost, recSize_entryAt] at hroom
    have hfree := hp.free_add
    have hentries := (copyEntry_done hp.toSeparate (Nat.le_refl p.count) (show src.recSize i + slotSize ≤ p.free by omega)).2
    rw [← length_entries p, List.insertIdx_length_self, length_entries] at hentries
    obtain ⟨hfilled, hrest⟩ := @ih (copyEntry src i p p.count) (i + 1) (hp.copyEntry (Nat.le_refl _)) (by omega) (by
      rw [hentries, List.map_append, List.sum_append, List.map_singleton, List.sum_singleton, cost, recSize_entryAt]
      omega)
    refine ⟨hfilled, hrest.trans ?_⟩
    rw [hentries, List.append_assoc]
    rfl

theorem sum_cost_take (es : List PageEntry) (k : ℕ) : ((es.take k).map cost).sum ≤ (es.map cost).sum := by
  conv_rhs => rw [← List.take_append_drop k es, List.map_append, List.sum_append]
  exact Nat.le_add_right ..

theorem sum_cost_drop (es : List PageEntry) (k : ℕ) : ((es.drop k).map cost).sum ≤ (es.map cost).sum := by
  conv_rhs => rw [← List.take_append_drop k es, List.map_append, List.sum_append]
  exact Nat.le_add_left ..

/-- The two new pages before the entry is inserted. -/
theorem halves_spec {p : LeafBytes} (h : p.Filled) (rawl rawr : ℕ → UInt8) :
    ((copyEntries p (p.count / 2) 0 (empty rawl)).Filled ∧
      (copyEntries p (p.count / 2) 0 (empty rawl)).entries = p.entries.take (p.count / 2)) ∧
    (copyEntries p (p.count - p.count / 2) (p.count / 2) (empty rawr)).Filled ∧
      (copyEntries p (p.count - p.count / 2) (p.count / 2) (empty rawr)).entries = p.entries.drop (p.count / 2) := by
  have hfree := h.free_add
  have hnil : ∀ raw, ((empty raw).entries.map cost).sum = 0 := fun _ => rfl
  have hleft := sum_cost_take p.entries (p.count / 2)
  have hright := sum_cost_drop p.entries (p.count / 2)
  have htake : (p.entries.drop (p.count / 2)).take (p.count - p.count / 2) = p.entries.drop (p.count / 2) :=
    List.take_of_length_le (by rw [List.length_drop, length_entries])
  refine ⟨copyEntries_spec (filled_empty rawl) (by omega) ?_, ?_⟩
  · rw [hnil, List.drop_zero]
    omega
  · obtain ⟨hfilled, hentries⟩ := @copyEntries_spec p (empty rawr) (p.count - p.count / 2) (p.count / 2) (filled_empty rawr)
      (by omega) (by rw [hnil, htake]; omega)
    exact ⟨hfilled, hentries.trans (by rw [htake]; rfl)⟩

section Inserted

variable {blobs : ℕ → Bytes} {p : LeafBytes} {pos : ℕ} {e : PageEntry}

/-- An insertion into the bytes and into the slots. -/
theorem insertEntry_cases (h : p.Filled) (hmarked : ∀ x ∈ p.entries, x.Marked blobs) (hpos : pos ≤ p.count) (he : e.Fits)
    (hentry : e.Marked blobs) :
    ((p.insertEntry pos e).2 = true ∧ (p.insertEntry pos e).1.entries = p.entries.insertIdx pos e ∧
      (p.page blobs).insertEntry pos (e.version blobs) = some ((p.insertEntry pos e).1.page blobs)) ∨
    ((p.insertEntry pos e).2 = false ∧ (p.insertEntry pos e).1 = p ∧
      (p.page blobs).insertEntry pos (e.version blobs) = none) := by
  have hrefines := h.insertEntry_refines hmarked hpos he hentry
  rcases Nat.lt_or_ge p.free (e.recSize + slotSize) with hfull | hroom
  · rw [insertEntry_full hfull] at hrefines ⊢
    exact .inr ⟨rfl, rfl, hrefines⟩
  · obtain ⟨hdone, -, hentries⟩ := insertEntry_done h.toSeparate hpos he hroom
    rw [hdone, if_pos rfl] at hrefines
    exact .inl ⟨hdone, hentries, hrefines⟩

/-- The halves of the slots are those of the bytes. -/
theorem halves_page (h : p.Filled) (f : ℕ → Bytes) (rawl rawr : ℕ → UInt8) :
    (p.page f).leftHalf = (copyEntries p (p.count / 2) 0 (empty rawl)).page f ∧
      (p.page f).rightHalf = (copyEntries p (p.count - p.count / 2) (p.count / 2) (empty rawr)).page f := by
  obtain ⟨⟨-, hl⟩, -, hr⟩ := halves_spec h rawl rawr
  have hlen : (p.page f).slots.length = p.count := by rw [page, List.length_map, length_entries]
  refine ⟨?_, ?_⟩
  · rw [LeafPage.leftHalf, hlen, page, page, hl, List.map_take]
  · rw [LeafPage.rightHalf, hlen, page, page, hr, List.map_drop]

/-- Where the entries of the two halves come from. -/
structure Halved (blobs : ℕ → Bytes) (p : LeafBytes) (pos : ℕ) (e : PageEntry) (r : (LeafBytes × LeafBytes) × Bool) : Prop where
  left : r.1.1.Filled
  right : r.1.2.Filled
  pages : (r.1.1.page blobs, r.1.2.page blobs) = (p.page blobs).splitLeaf pos (e.version blobs)
  entries : ∀ x ∈ r.1.1.entries ++ r.1.2.entries, x ∈ p.entries ∨ r.2 = true ∧ x = e
  nonempty : 0 < p.count → 0 < r.1.2.count

theorem splitLeaf_spec (h : p.Filled) (hmarked : ∀ x ∈ p.entries, x.Marked blobs) (hpos : pos ≤ p.count) (he : e.Fits)
    (hentry : e.Marked blobs) (rawl rawr : ℕ → UInt8) : Halved blobs p pos e (p.splitLeaf (empty rawl) (empty rawr) pos e) := by
  obtain ⟨⟨hl, hlents⟩, hr, hrents⟩ := halves_spec h rawl rawr
  obtain ⟨hlpage, hrpage⟩ := halves_page h blobs rawl rawr
  unfold splitLeaf
  simp only []
  generalize copyEntries p (p.count / 2) 0 (empty rawl) = l at hl hlents hlpage ⊢
  generalize copyEntries p (p.count - p.count / 2) (p.count / 2) (empty rawr) = r at hr hrents hrpage ⊢
  have hlen : (p.page blobs).slots.length = p.count := by rw [page, List.length_map, length_entries]
  have hlslots : (l.page blobs).slots.length = l.count := by rw [page, List.length_map, length_entries]
  have hrslots : (r.page blobs).slots.length = r.count := by rw [page, List.length_map, length_entries]
  have hlcount : l.count = p.count / 2 := by
    rw [← length_entries, hlents, List.length_take, length_entries]
    omega
  have hrcount : r.count = p.count - p.count / 2 := by rw [← length_entries, hrents, List.length_drop, length_entries]
  have hlsub : ∀ x ∈ l.entries, x ∈ p.entries := fun x hx => List.mem_of_mem_take (hlents ▸ hx)
  have hrsub : ∀ x ∈ r.entries, x ∈ p.entries := fun x hx => List.mem_of_mem_drop (hrents ▸ hx)
  have hlcases := fun {pos : ℕ} (hpos : pos ≤ l.count) =>
    insertEntry_cases hl (fun x hx => hmarked x (hlsub x hx)) hpos he hentry
  have hrcases := fun {pos : ℕ} (hpos : pos ≤ r.count) =>
    insertEntry_cases hr (fun x hx => hmarked x (hrsub x hx)) hpos he hentry
  have hold : ∀ {q : LeafBytes} (ok : Bool), (∀ x ∈ q.entries, x ∈ p.entries) →
      ∀ x ∈ q.entries, x ∈ p.entries ∨ ok = true ∧ x = e := fun _ hq x hx => .inl (hq x hx)
  have hgrown : ∀ {q : LeafBytes} {i : ℕ}, i ≤ q.count → (q.insertEntry i e).1.entries = q.entries.insertIdx i e →
      (∀ x ∈ q.entries, x ∈ p.entries) → (∀ x ∈ (q.insertEntry i e).1.entries, x ∈ p.entries ∨ true = true ∧ x = e) ∧
        (q.insertEntry i e).1.count = q.count + 1 := by
    intro q i hi hents hq
    refine ⟨fun x hx => ?_, ?_⟩
    · rw [hents] at hx
      rcases List.eq_or_mem_of_mem_insertIdx hx with heq | hmem
      · exact .inr ⟨rfl, heq⟩
      · exact .inl (hq x hmem)
    · rw [← length_entries, hents, List.length_insertIdx, if_pos (by rw [length_entries]; exact hi), length_entries]
  have hmake : ∀ {l' r' : LeafBytes} {ok : Bool}, l'.Filled → r'.Filled →
      (l'.page blobs, r'.page blobs) = (p.page blobs).splitLeaf pos (e.version blobs) →
      (∀ x ∈ l'.entries, x ∈ p.entries ∨ ok = true ∧ x = e) → (∀ x ∈ r'.entries, x ∈ p.entries ∨ ok = true ∧ x = e) →
      r.count ≤ r'.count → Halved blobs p pos e ((l', r'), ok) := by
    intro l' r' ok hl' hr' hpages hleft hright hcount
    refine ⟨hl', hr', hpages, fun x hx => (List.mem_append.mp hx).elim (hleft x) (hright x), fun hp => ?_⟩
    show 0 < r'.count
    omega
  split
  · next hlt =>
    rcases hlcases (show pos ≤ l.count by omega) with ⟨hok, hents, hpage⟩ | ⟨hno, hsame, hpage⟩
    · rw [if_pos hok]
      refine hmake (hl.insertEntry (by omega) he) hr ?_ (hgrown (by omega) hents hlsub).1 (hold true hrsub) (Nat.le_refl _)
      simp only [LeafPage.splitLeaf, hlen, if_pos hlt, hlpage, hrpage, hpage]
    · rw [if_neg (by rw [hno]; exact Bool.false_ne_true), hsame]
      rcases hrcases (Nat.le_refl r.count) with ⟨hok', hents', hpage'⟩ | ⟨hno', hsame', hpage'⟩
      · rw [hok']
        refine hmake hl (hr.insertEntry (Nat.le_refl _) he) ?_ (hold true hlsub) (hgrown (Nat.le_refl _) hents' hrsub).1
          (by rw [(hgrown (Nat.le_refl _) hents' hrsub).2]; omega)
        simp only [LeafPage.splitLeaf, hlen, if_pos hlt, hlpage, hrpage, hpage, hrslots, hpage']
      · rw [hno', hsame']
        refine hmake hl hr ?_ (hold false hlsub) (hold false hrsub) (Nat.le_refl _)
        simp only [LeafPage.splitLeaf, hlen, if_pos hlt, hlpage, hrpage, hpage, hrslots, hpage']
  · next hge =>
    rcases hrcases (show pos - p.count / 2 ≤ r.count by omega) with ⟨hok, hents, hpage⟩ | ⟨hno, hsame, hpage⟩
    · rw [if_pos hok]
      refine hmake hl (hr.insertEntry (by omega) he) ?_ (hold true hlsub) (hgrown (by omega) hents hrsub).1
        (by rw [(hgrown (by omega) hents hrsub).2]; omega)
      simp only [LeafPage.splitLeaf, hlen, if_neg hge, hlpage, hrpage, hpage]
    · rw [if_neg (by rw [hno]; exact Bool.false_ne_true), hsame]
      rcases hlcases (Nat.le_refl l.count) with ⟨hok', hents', hpage'⟩ | ⟨hno', hsame', hpage'⟩
      · rw [hok']
        refine hmake (hl.insertEntry (Nat.le_refl _) he) hr ?_ (hgrown (Nat.le_refl _) hents' hlsub).1 (hold true hrsub)
          (Nat.le_refl _)
        simp only [LeafPage.splitLeaf, hlen, if_neg hge, hlpage, hrpage, hpage, hlslots, hpage']
      · rw [hno', hsame']
        refine hmake hl hr ?_ (hold false hlsub) (hold false hrsub) (Nat.le_refl _)
        simp only [LeafPage.splitLeaf, hlen, if_neg hge, hlpage, hrpage, hpage, hlslots, hpage']

end Inserted

/-! ## Searches -/

section Searched

variable (blobs : ℕ → Bytes) (p : LeafBytes)

theorem slots_page : (p.page blobs).slots = (List.range p.count).map (p.versionAt blobs) := by
  rw [page, entries, List.map_map]
  rfl

theorem length_slots : (p.page blobs).slots.length = p.count := by
  rw [slots_page, List.length_map, List.length_range]

theorem getElem?_slots (i : ℕ) : (p.page blobs).slots[i]? = if i < p.count then some (p.versionAt blobs i) else none := by
  split
  · next hi => rw [slots_page, List.getElem?_map, List.getElem?_range hi, Option.map_some]
  · next hi => rw [List.getElem?_eq_none (by rw [length_slots]; omega)]

theorem find_eq (key : Bytes) : (p.page blobs).find key = p.find key := by
  rw [LeafPage.find, length_slots, slots_page, Bisect.bisect_map]
  rfl

theorem found_eq (key : Bytes) : (p.page blobs).found key = p.found key := by
  rw [LeafPage.found, find_eq, getElem?_slots, found]
  by_cases hi : p.find key < p.count
  · rw [if_pos hi, decide_eq_true hi, Bool.true_and]
    rfl
  · rw [if_neg hi, decide_eq_false hi, Bool.false_and]

theorem firstKey_eq (h : 0 < p.count) : (p.page blobs).firstKey = p.keyAt 0 := by
  rw [LeafPage.firstKey, List.head?_eq_getElem?, getElem?_slots, if_pos h]
  rfl

variable {blobs p}

theorem keyLen_entryAt (i : ℕ) : p.keyLen i = (p.entryAt i).key.length := (length_read ..).symm

/-- The comparison of the loop is one of strings. -/
theorem key_differs_iff {key : Bytes} (hkey : key.length < 2 ^ 16) (i : ℕ) :
    (p.keyLen i ≠ key.length % 2 ^ 16 ∨ read p.raw (p.offset i) (p.keyLen i) ≠ key.take (p.keyLen i)) ↔
      (p.versionAt blobs i).key ≠ key := by
  have hstr : read p.raw (p.offset i) (p.keyLen i) = (p.versionAt blobs i).key := rfl
  have hlen : p.keyLen i = (p.versionAt blobs i).key.length := keyLen_entryAt i
  rw [Nat.mod_eq_of_lt hkey, hstr, hlen, ← not_and_or, not_iff_not]
  constructor
  · rintro ⟨heq, htake⟩
    rw [htake, heq, List.take_length]
  · rintro rfl
    exact ⟨rfl, List.take_length.symm⟩

theorem scanVersions_eq (aborted : List ℕ) (readTs : ℕ) {key : Bytes} (hkey : key.length < 2 ^ 16) {k i : ℕ}
    (hi : i + k = p.count) : scanVersions blobs aborted readTs key p k i =
      BPlusTree.scanVersions aborted readTs key ((p.page blobs).slots.drop i) := by
  induction k generalizing i with
  | zero =>
    rw [List.drop_eq_nil_of_le (by rw [length_slots]; omega)]
    rfl
  | succ k ih =>
    have hget := getElem?_slots blobs p i
    rw [if_pos (by omega)] at hget
    obtain ⟨hlt, hat⟩ := List.getElem?_eq_some_iff.mp hget
    have hts : p.timestamp i = (p.versionAt blobs i).timestamp := rfl
    have hdiffers := @key_differs_iff blobs p key hkey i
    rw [List.drop_eq_getElem_cons hlt, hat, scanVersions, BPlusTree.scanVersions, ← ih (i := i + 1) (by omega)]
    simp only [hdiffers, hts]

end Searched

end Kvdb.PageBytes.LeafBytes
