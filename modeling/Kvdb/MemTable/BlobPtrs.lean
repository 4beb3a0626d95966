import Kvdb.MemTable.ByteInserts
import Kvdb.MemTable.InOrder

/-! # The pointers that the destructor frees (`bptree.hpp`)

After it has stored a large value `Insert` reads the pointer to the blob back out of the record and puts it into
`blob_ptrs_`. `SplitCoW` reads it at the place that the entry has in its own half, whether it went there or not. -/
namespace Kvdb
set_option autoImplicit false

open LittleEndian Region PageBytes
open Nodes (Node)

namespace LeafPage

/-- The entry finds room in its leaf, or in the half that its position falls in. -/
def OwnHalf (leaf : LeafPage) (e : KeyValuePair) : Prop :=
  (leaf.insertEntry (leaf.find e.key) e).isSome = true ∨
    (if leaf.find e.key < leaf.slots.length / 2 then leaf.leftHalf.insertEntry (leaf.find e.key) e
      else leaf.rightHalf.insertEntry (leaf.find e.key - leaf.slots.length / 2) e).isSome = true

instance decidableOwnHalf (leaf : LeafPage) (e : KeyValuePair) : Decidable (leaf.OwnHalf e) :=
  inferInstanceAs (Decidable (_ ∨ _))

end LeafPage

/-- A large value goes where `Insert` looks for its pointer. -/
def Heap.BlobInPlace (h : Heap) (e : KeyValuePair) : Prop :=
  LeafPage.largeValue e.value = true → h.AtLeaf e.key fun a _ => (h.leaves a).page.OwnHalf e

instance Heap.decidableBlobInPlace (h : Heap) (e : KeyValuePair) : Decidable (h.BlobInPlace e) :=
  inferInstanceAs (Decidable (_ → _))

namespace ByteTree

/-- The blobs, and the pointers to those that the destructor frees. -/
def registry (t : ByteTree) : ℕ × List ℕ := (t.nextBlob, t.blobPtrs)

/-! ## What leaves them alone -/

section Registry

variable {t t' : ByteTree}

theorem relink_registry (t : ByteTree) (pred : Option ℕ) (page : ℕ) : (t.relink pred page).registry = t.registry := by
  cases pred <;> rfl

theorem linkCopy_registry {clock leaf nleaf : ℕ} {path : List (ℕ × ℕ)}
    (h : t.linkCopy clock leaf nleaf path = some t') : t'.registry = t.registry := by
  have hlink := relink_registry t (t.findPredecessor t.alloc.next path) nleaf
  unfold linkCopy at h
  cases path with
  | nil =>
    obtain ⟨s, -, rfl⟩ := Option.map_eq_some_iff.mp h
    exact hlink
  | cons p path =>
    cases h
    exact hlink

theorem ascend_registry {path : List (ℕ × ℕ)} {pair : Heap.Pair} {sep : Bytes} {a : Ascent}
    (h : ascend path t pair sep = some a) : a.tree.registry = t.registry := by
  induction path generalizing t pair sep with
  | nil =>
    cases h
    rfl
  | cons p path ih =>
    obtain ⟨cp, cidx⟩ := p
    obtain ⟨s, -, h⟩ := Option.bind_eq_some_iff.mp h
    simp only [] at h
    split at h
    · cases h
      rfl
    · obtain ⟨left, -, h⟩ := Option.bind_eq_some_iff.mp h
      obtain ⟨right, -, h⟩ := Option.bind_eq_some_iff.mp h
      have hrest := ih h
      exact hrest

theorem publish_registry {clock leaf left : ℕ} {path : List (ℕ × ℕ)} {a : Ascent}
    (h : publish clock leaf left path a = some t') : t'.registry = a.tree.registry := by
  cases a with
  | placed t saved up =>
    have hlink := relink_registry t (t.findPredecessor t.alloc.next path) left
    cases h
    refine Eq.trans ?_ hlink
    generalize t.relink (t.findPredecessor t.alloc.next path) left = u
    show (u.replaceRoot clock saved up).registry = u.registry
    cases up with
    | nil => rfl
    | cons p up =>
      obtain ⟨lock, idx⟩ := p
      unfold replaceRoot
      simp only []
      split <;> rfl
  | top t pair sep =>
    have hlink := relink_registry t (t.findPredecessor t.alloc.next path) left
    obtain ⟨t'', hroot, rfl⟩ := Option.map_eq_some_iff.mp h
    obtain ⟨s, -, rfl⟩ := Option.map_eq_some_iff.mp hroot
    exact hlink

theorem splitCoW_registry {clock leaf pos : ℕ} {path : List (ℕ × ℕ)} {e : KeyValuePair}
    (h : t.splitCoW clock leaf path e pos = some t') : t'.registry = (t.prepareLeaves leaf e pos).1.registry := by
  obtain ⟨a, hasc, hpub⟩ := Option.bind_eq_some_iff.mp h
  exact (publish_registry hpub).trans (ascend_registry hasc)

end Registry

/-! ## The pointer that is read back -/

theorem pointer_of_entryAt {p : LeafBytes} {i b : ℕ} (h : (p.entryAt i).value = .blob b) :
    ofLe (read p.raw (p.offset i + p.keyLen i) 8) = b := by
  simp only [LeafBytes.entryAt] at h
  split at h
  · exact StoredValue.blob.inj h
  · exact StoredValue.noConfusion h

/-- The record that has just been written. -/
theorem pointer_of_insert {t : ByteTree} {e : KeyValuePair} (hlarge : LeafPage.largeValue e.value = true) {p q : LeafBytes}
    {i : ℕ} (hi : i ≤ p.count) (hins : q.entries = p.entries.insertIdx i (t.entryOf e)) :
    ofLe (read q.raw (q.offset i + q.keyLen i) 8) = t.nextBlob := by
  have hlen : i ≤ p.entries.length := by rwa [LeafBytes.length_entries]
  have hcount : q.count = p.count + 1 := by
    rw [← LeafBytes.length_entries, hins, List.length_insertIdx, if_pos hlen, LeafBytes.length_entries]
  have hget := LeafBytes.getElem?_entries q (show i < q.count by omega)
  rw [hins, List.getElem?_insertIdx_self, if_pos hlen, Option.some_inj] at hget
  refine pointer_of_entryAt ?_
  rw [← hget, entryOf, hlarge]
  rfl

/-- The registry after the blob of an entry. -/
def withBlob (t : ByteTree) (e : KeyValuePair) : ℕ × List ℕ :=
  if LeafPage.largeValue e.value then (t.nextBlob + 1, t.blobPtrs.insert t.nextBlob) else t.registry

theorem withCopy_registry {t : ByteTree} {e : KeyValuePair} {p q : LeafBytes} {i : ℕ} (hi : i ≤ p.count)
    (hins : q.entries = p.entries.insertIdx i (t.entryOf e)) (next : Option ℕ) :
    (t.withCopy e q next i).registry = t.withBlob e := by
  unfold withCopy withBlob
  simp only []
  split
  · next hlarge =>
    show (t.nextBlob + 1, t.blobPtrs.insert _) = _
    rw [pointer_of_insert hlarge hi hins]
  · rfl

/-- The entry is at its position in the half that has taken it. -/
theorem half_pointer {t : ByteTree} {e : KeyValuePair} (hlarge : LeafPage.largeValue e.value = true) (he : Admitted e)
    (hb : t.nextBlob < 2 ^ 64) {p : LeafBytes} (hp : p.Filled) (hmarked : ∀ x ∈ p.entries, x.Marked (t.withEntry e).blobValue)
    {i : ℕ} (hi : i ≤ p.count) (htakes : ((p.page (t.withEntry e).blobValue).insertEntry i e).isSome = true) :
    (p.insertEntry i (t.entryOf e)).2 = true ∧
      ofLe (read (p.insertEntry i (t.entryOf e)).1.raw
        ((p.insertEntry i (t.entryOf e)).1.offset i + (p.insertEntry i (t.entryOf e)).1.keyLen i) 8) = t.nextBlob := by
  obtain ⟨hfits, hentry, hversion, -⟩ := entryOf_spec he hb
  rcases LeafBytes.insertEntry_cases hp hmarked hi hfits hentry with ⟨hok, hins, -⟩ | ⟨-, -, hnone⟩
  · exact ⟨hok, pointer_of_insert hlarge hi hins⟩
  · rw [hversion] at hnone
    rw [hnone] at htakes
    cases htakes

/-- The half that the position of the entry falls in takes it. -/
theorem prepareLeaves_registry {t : ByteTree} {e : KeyValuePair} (hs : t.Sound) (he : Admitted e)
    (hb : t.nextBlob < 2 ^ 64) {leaf pos : ℕ} (hpos : pos ≤ (t.leaves leaf).page.count)
    (hplaced : LeafPage.largeValue e.value = true →
      (if pos < (t.heap.leaves leaf).page.slots.length / 2 then (t.heap.leaves leaf).page.leftHalf.insertEntry pos e
        else (t.heap.leaves leaf).page.rightHalf.insertEntry (pos - (t.heap.leaves leaf).page.slots.length / 2) e).isSome = true) :
    (t.prepareLeaves leaf e pos).1.registry = t.withBlob e := by
  unfold prepareLeaves withBlob
  simp only [newLeaf_page]
  by_cases hlarge : LeafPage.largeValue e.value = true
  · have hsame : ∀ b < t.nextBlob, (t.withEntry e).blobValue b = t.blobValue b := fun b hb => withEntry_blobValue hb
    have hp := (hs.leaves leaf).congr hsame (withEntry_nextBlob (e := e)).1
    have hheap : (t.heap.leaves leaf).page = (t.leaves leaf).page.page (t.withEntry e).blobValue :=
      ((hs.leaves leaf).page_congr hsame).symm
    have hhalf := hplaced hlarge
    generalize (t.leaves t.newLeaf.1).page.raw = rawl
    generalize (t.newLeaf.2.leaves t.newLeaf.2.newLeaf.1).page.raw = rawr
    obtain ⟨⟨hl, hlents⟩, hr, hrents⟩ := LeafBytes.halves_spec hp.toFilled rawl rawr
    obtain ⟨hlpage, hrpage⟩ := LeafBytes.halves_page hp.toFilled (t.withEntry e).blobValue rawl rawr
    rw [hheap, LeafBytes.length_slots, hlpage, hrpage] at hhalf
    simp only [LeafBytes.splitLeaf, hlarge, Bool.and_true, if_true]
    generalize LeafBytes.copyEntries (t.leaves leaf).page ((t.leaves leaf).page.count / 2) 0 (LeafBytes.empty rawl) = l at *
    generalize LeafBytes.copyEntries (t.leaves leaf).page ((t.leaves leaf).page.count - (t.leaves leaf).page.count / 2)
      ((t.leaves leaf).page.count / 2) (LeafBytes.empty rawr) = r at *
    have hlcount : l.count = (t.leaves leaf).page.count / 2 := by
      rw [← LeafBytes.length_entries, hlents, List.length_take, LeafBytes.length_entries]
      omega
    have hrcount : r.count = (t.leaves leaf).page.count - (t.leaves leaf).page.count / 2 := by
      rw [← LeafBytes.length_entries, hrents, List.length_drop, LeafBytes.length_entries]
    by_cases hlt : pos < (t.leaves leaf).page.count / 2
    · simp only [if_pos hlt] at hhalf ⊢
      obtain ⟨hok, hptr⟩ := half_pointer hlarge he hb hl (fun x hx => hp.marked x (List.mem_of_mem_take (hlents ▸ hx)))
        (by omega) hhalf
      simp only [hok, if_true]
      show (t.nextBlob + 1, t.blobPtrs.insert _) = _
      rw [hptr]
    · simp only [if_neg hlt] at hhalf ⊢
      obtain ⟨hok, hptr⟩ := half_pointer hlarge he hb hr (fun x hx => hp.marked x (List.mem_of_mem_drop (hrents ▸ hx)))
        (by omega) hhalf
      simp only [hok, if_true]
      show (t.nextBlob + 1, t.blobPtrs.insert _) = _
      rw [hptr]
  · simp only [hlarge, Bool.and_false, Bool.false_eq_true, if_false]
    rfl

/-! ## Runs -/

theorem place_registry {t t' : ByteTree} {root : Node} {clock : ℕ} {e : KeyValuePair} (hs : t.Sound)
    (hh : t.heap.Holds root []) (he : Admitted e) (hb : t.nextBlob < 2 ^ 64) (hplaced : t.heap.BlobInPlace e)
    (h : t.place clock e = some t') : t'.registry = t.withBlob e := by
  obtain ⟨path, a, page, hc⟩ := exists_copied hs hh he hb clock
  have hpos : (t.heap.leaves a).page.find e.key = (t.leaves a).page.find e.key := LeafBytes.find_eq ..
  rcases hc.placing with ⟨ins, -, hins, -, hplace⟩ | ⟨habs, -, hplace⟩
  · rw [hplace] at h
    rw [linkCopy_registry h]
    exact withCopy_registry (hc.count ▸ find_le _ _) hins _
  · obtain ⟨hsound, hheap, hleaf⟩ := hc.set hs hh
    rw [hplace] at h
    have hpage : (((t.newLeaf.2.setLeaf t.newLeaf.1 ⟨page, (t.leaves a).next⟩).heap.leaves a).page) = (t.heap.leaves a).page := by
      show (LeafBytes.page _ ((t.newLeaf.2.setLeaf t.newLeaf.1 ⟨page, (t.leaves a).next⟩).leaves a).page) = _
      rw [hleaf]
      rfl
    rw [splitCoW_registry h]
    refine prepareLeaves_registry hsound he hb (by rw [hleaf]; exact find_le _ _) fun hlarge => ?_
    rw [hpage]
    rcases hplaced hlarge _ hc.found.find with hroom | hhalf
    · rw [hpos, habs] at hroom
      cases hroom
    · rw [hpos] at hhalf
      exact hhalf

theorem insert_registry {t t' : ByteTree} {root : Node} {clock : ℕ} {e : KeyValuePair} (hs : t.Sound)
    (hh : t.heap.Holds root []) (he : Admitted e) (hb : t.nextBlob < 2 ^ 64) (hplaced : t.heap.BlobInPlace e)
    (h : t.insert clock e = some t') : t'.registry = t.withBlob e := by
  obtain ⟨u, hplace, rfl⟩ := Option.map_eq_some_iff.mp h
  rw [← place_registry hs hh he hb hplaced hplace]
  split <;> rfl

/-- The large values of a run. -/
def largeCount (es : List (ℕ × KeyValuePair)) : ℕ := es.countP fun p => LeafPage.largeValue p.2.value

/-- The pointers in `blob_ptrs_` are those of the blobs, each once. -/
def Listed (t : ByteTree) : Prop := t.blobPtrs.Perm (List.range t.nextBlob)

theorem Listed.insert {t t' : ByteTree} {e : KeyValuePair} (hl : t.Listed) (h : t'.registry = t.withBlob e) :
    t'.Listed ∧ t'.nextBlob = t.nextBlob + largeCount [(0, e)] := by
  unfold withBlob at h
  have hcount : largeCount [(0, e)] = if LeafPage.largeValue e.value then 1 else 0 := by
    simp [largeCount, List.countP_cons]
  rw [hcount]
  split at h
  · next hlarge =>
    obtain ⟨hnext, hptrs⟩ := Prod.mk.inj h
    have hnew : t.nextBlob ∉ t.blobPtrs := fun hmem => absurd (List.mem_range.mp (hl.mem_iff.mp hmem)) (Nat.lt_irrefl _)
    rw [List.insert_of_not_mem hnew] at hptrs
    refine ⟨?_, by rw [hnext, if_pos hlarge]⟩
    rw [Listed, hptrs, hnext, List.range_succ]
    exact (hl.cons _).trans (List.perm_append_singleton _ _).symm
  · next hlarge =>
    obtain ⟨hnext, hptrs⟩ := Prod.mk.inj h
    refine ⟨?_, by rw [hnext, if_neg hlarge, Nat.add_zero]⟩
    rw [Listed, hptrs, hnext]
    exact hl

theorem inserts_listed {t t' : ByteTree} {root : Node} (hs : t.Sound) (hh : t.heap.Holds root []) (hl : t.Listed)
    {es : List (ℕ × KeyValuePair)} (hes : ∀ p ∈ es, Admitted p.2) (hb : t.nextBlob + es.length < 2 ^ 64)
    (hplaced : Heap.Along Heap.BlobInPlace t.heap es) (h : t.inserts es = some t') :
    t'.Sound ∧ t'.Listed ∧ t'.nextBlob = t.nextBlob + largeCount es := by
  induction es generalizing t root with
  | nil =>
    cases h
    exact ⟨hs, hl, rfl⟩
  | cons p es ih =>
    obtain ⟨clock, e⟩ := p
    rw [List.length_cons] at hb
    have he := hes (clock, e) List.mem_cons_self
    have hone := insert_refines hs hh he (by omega) clock
    obtain ⟨t₁, hins, hrest⟩ := Option.bind_eq_some_iff.mp h
    obtain ⟨hs₁, hnext⟩ := hone.keeps t₁ hins
    have hins' : t.heap.insert clock e = some t₁.heap := by rw [← hone.same, hins, Option.map_some]
    obtain ⟨root₁, hh₁⟩ := hh.insert_some hins'
    obtain ⟨hl₁, hcount⟩ := hl.insert (insert_registry hs hh he (by omega) hplaced.1 hins)
    obtain ⟨hs', hl', hcount'⟩ := ih hs₁ hh₁ hl₁ (fun q hq => hes q (List.mem_cons_of_mem _ hq)) (by omega)
      (hplaced.2 _ hins') hrest
    refine ⟨hs', hl', ?_⟩
    rw [hcount', hcount, Nat.add_assoc]
    simp only [largeCount, List.countP_cons, List.countP_nil]
    omega

/-- In a run whose large values all go where `SplitCoW` looks for their pointers, the pointers that the destructor frees are
those of the blobs, one for each large value and each once, and every pointer in a record is one of them. -/
theorem blobs_freed_once (fenced : Bool) (raw : ℕ → UInt8) (es : List (ℕ × KeyValuePair)) (hes : ∀ p ∈ es, Admitted p.2)
    (hlen : es.length < 2 ^ 64) (hplaced : Heap.Along Heap.BlobInPlace (Heap.new fenced) es) :
    ∀ t, (new fenced raw).inserts es = some t → t.nextBlob = largeCount es ∧ t.blobPtrs.Perm (List.range t.nextBlob) ∧
      ∀ a, ∀ x ∈ (t.leaves a).page.entries, ∀ b, x.value = .blob b → b ∈ t.blobPtrs := by
  intro t h
  obtain ⟨hs, hl, hcount⟩ := inserts_listed (new_sound fenced raw) (Heap.new_holds fenced)
    (show (new fenced raw).Listed from List.Perm.refl _) hes
    (by rw [show (new fenced raw).nextBlob = 0 from rfl, Nat.zero_add]; exact hlen) hplaced h
  refine ⟨hcount.trans (Nat.zero_add _), hl, fun a x hx b hb => ?_⟩
  exact hl.mem_iff.mpr (List.mem_range.mpr ((hs.leaves a).known x hx b hb))

theorem blobs_freed_once_splitRun : Heap.Along Heap.BlobInPlace (Heap.new false) splitRun ∧
    ∀ t, (new false fun _ => 0).inserts splitRun = some t → t.nextBlob = largeCount splitRun ∧
      t.blobPtrs.Perm (List.range t.nextBlob) ∧ ∀ a, ∀ x ∈ (t.leaves a).page.entries, ∀ b, x.value = .blob b → b ∈ t.blobPtrs :=
  ⟨by decide +kernel, blobs_freed_once false (fun _ => 0) splitRun (by decide +kernel) (by decide) (by decide +kernel)⟩

end ByteTree

end Kvdb
