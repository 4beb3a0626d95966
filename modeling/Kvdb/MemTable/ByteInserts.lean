import Kvdb.MemTable.ByteHeap

/-! # Insertions into a memtable in bytes

The pages are read with the blobs that have been allocated (`Blobbed`), and a new blob changes none of them. With `Sound`
and the tree of the model an insertion into the bytes refines the insertion of the model (`insert_refines`), and so do the
runs (`inserts_refines`). -/
namespace Kvdb
set_option autoImplicit false

open LittleEndian Region PageBytes
open Nodes (Node Retired internalFanout)

namespace PageBytes

/-! ## Pages and blobs -/

theorem PageEntry.version_congr {f g : ℕ → Bytes} {x : PageEntry} (h : ∀ b, x.value = .blob b → g b = f b) :
    x.version g = x.version f ∧ (x.Marked f → x.Marked g) := by
  obtain ⟨key, value, ts, tomb⟩ := x
  cases value with
  | inline v => exact ⟨rfl, id⟩
  | blob b =>
    have hb : g b = f b := h b rfl
    simp only [PageEntry.version, PageEntry.Marked, hb, true_and]
    exact id

namespace LeafBytes

/-- A page whose large values are in blobs below `n`. -/
structure Blobbed (f : ℕ → Bytes) (n : ℕ) (p : LeafBytes) : Prop extends p.Filled where
  marked : ∀ x ∈ p.entries, x.Marked f
  keys : ∀ x ∈ p.entries, x.key.length ≤ Config.maxKeyBytes
  known : ∀ x ∈ p.entries, ∀ b, x.value = .blob b → b < n

variable {f g : ℕ → Bytes} {n m : ℕ} {p q : LeafBytes}

theorem Blobbed.page_congr (h : p.Blobbed f n) (hsame : ∀ b < n, g b = f b) : p.page g = p.page f :=
  congrArg LeafPage.mk (List.map_congr_left fun x hx =>
    (PageEntry.version_congr fun b hb => hsame b (h.known x hx b hb)).1)

theorem Blobbed.congr (h : p.Blobbed f n) (hsame : ∀ b < n, g b = f b) (hle : n ≤ m) : p.Blobbed g m where
  toFilled := h.toFilled
  marked := fun x hx => (PageEntry.version_congr fun b hb => hsame b (h.known x hx b hb)).2 (h.marked x hx)
  keys := h.keys
  known := fun x hx b hb => Nat.lt_of_lt_of_le (h.known x hx b hb) hle

theorem blobbed_empty (raw : ℕ → UInt8) : (empty raw).Blobbed f n where
  toFilled := filled_empty raw
  marked := fun _ hx => absurd hx (List.not_mem_nil)
  keys := fun _ hx => absurd hx (List.not_mem_nil)
  known := fun _ hx => absurd hx (List.not_mem_nil)

/-- A page with entries of another one. -/
theorem Blobbed.of_entries (h : p.Blobbed f n) (hq : q.Filled) (hsub : ∀ x ∈ q.entries, x ∈ p.entries) : q.Blobbed f n where
  toFilled := hq
  marked := fun x hx => h.marked x (hsub x hx)
  keys := fun x hx => h.keys x (hsub x hx)
  known := fun x hx => h.known x (hsub x hx)

end LeafBytes

end PageBytes

namespace ByteTree

/-! ## The blob of an entry -/

/-- The limits that the callers of `Insert` keep to, and the widths of the words. -/
structure Admitted (e : KeyValuePair) : Prop where
  key : e.key.length ≤ Config.maxKeyBytes
  value : e.value.length < 2 ^ 64
  timestamp : e.timestamp < 2 ^ 64

instance decidableAdmitted (e : KeyValuePair) : Decidable (Admitted e) :=
  decidable_of_iff (e.key.length ≤ Config.maxKeyBytes ∧ e.value.length < 2 ^ 64 ∧ e.timestamp < 2 ^ 64)
    ⟨fun h => ⟨h.1, h.2.1, h.2.2⟩, fun h => ⟨h.key, h.value, h.timestamp⟩⟩

/-- The tree with the blob that an entry needs. -/
def withEntry (t : ByteTree) (e : KeyValuePair) : ByteTree := if LeafPage.largeValue e.value then t.addBlob e.value else t

section WithEntry

variable {t : ByteTree} {e : KeyValuePair}

theorem withEntry_nextBlob : t.nextBlob ≤ (t.withEntry e).nextBlob ∧ (t.withEntry e).nextBlob ≤ t.nextBlob + 1 := by
  unfold withEntry
  split
  · exact ⟨Nat.le_succ _, Nat.le_refl _⟩
  · exact ⟨Nat.le_refl _, Nat.le_succ _⟩

theorem withEntry_blobValue {b : ℕ} (hb : b < t.nextBlob) : (t.withEntry e).blobValue b = t.blobValue b := by
  unfold withEntry
  split
  · have hother : (t.addBlob e.value).blobs b = t.blobs b := Function.update_of_ne (Nat.ne_of_lt hb) _ _
    rw [blobValue, hother, blobValue]
  · rfl

theorem addBlob_blobValue {v : Bytes} (hv : v.length < 2 ^ 64) : (t.addBlob v).blobValue t.nextBlob = v := by
  have hself : (t.addBlob v).blobs t.nextBlob = leBytes 8 v.length ++ v := Function.update_self ..
  rw [blobValue, hself, List.drop_left' (length_leBytes ..), List.take_left' (length_leBytes ..), ofLe_leBytes hv,
    List.take_length]

/-- The stored entry is read as the version that has been inserted. -/
theorem entryOf_spec (he : Admitted e) (hb : t.nextBlob < 2 ^ 64) :
    (t.entryOf e).Fits ∧ (t.entryOf e).Marked (t.withEntry e).blobValue ∧
      (t.entryOf e).version (t.withEntry e).blobValue = e ∧
      ∀ b, (t.entryOf e).value = .blob b → b < (t.withEntry e).nextBlob := by
  obtain ⟨key, value, ts, tomb⟩ := e
  unfold entryOf withEntry
  cases hlarge : LeafPage.largeValue value with
  | true =>
    have hread : (t.addBlob value).blobValue t.nextBlob = value := addBlob_blobValue he.value
    refine ⟨⟨he.key, nofun, fun h hh => ?_, he.timestamp⟩, ?_, ?_, fun b hb' => ?_⟩
    · cases hh
      exact hb
    · show LeafPage.largeValue ((t.addBlob value).blobValue t.nextBlob) = true
      rw [hread, hlarge]
    · show KeyValuePair.mk key ((t.addBlob value).blobValue t.nextBlob) ts tomb = ⟨key, value, ts, tomb⟩
      rw [hread]
    · cases hb'
      exact Nat.lt_succ_self _
  | false =>
    refine ⟨⟨he.key, fun v hv => ?_, nofun, he.timestamp⟩, hlarge, rfl, nofun⟩
    cases hv
    exact Nat.le_of_not_lt (of_decide_eq_false hlarge)

end WithEntry

/-! ## The memory in order -/

structure Sound (t : ByteTree) : Prop where
  nodes : ∀ a, (t.nodes a).Buffered
  leaves : ∀ a, (t.leaves a).page.Blobbed t.blobValue t.nextBlob

section Sound

variable {t : ByteTree}

theorem Sound.setLeaf (hs : t.Sound) (a : ℕ) {l : ByteLeaf} (hl : l.page.Blobbed t.blobValue t.nextBlob) :
    (t.setLeaf a l).Sound where
  nodes := hs.nodes
  leaves := fun x => by
    show (if x = a then l else t.leaves x).page.Blobbed _ _
    split
    · exact hl
    · exact hs.leaves x

theorem Sound.newLeaf (hs : t.Sound) : t.newLeaf.2.Sound :=
  Sound.setLeaf (t := { t with alloc := t.alloc.newLeaf.2 }) ⟨hs.nodes, hs.leaves⟩ _ (LeafBytes.blobbed_empty _)

theorem Sound.relink (hs : t.Sound) (pred : Option ℕ) (page : ℕ) : (t.relink pred page).Sound := by
  cases pred with
  | none => exact ⟨hs.nodes, hs.leaves⟩
  | some p => exact hs.setLeaf p (hs.leaves p)

theorem Sound.setNode (hs : t.Sound) (a : ℕ) {s : NodeBytes} (h : s.Buffered) : (t.setNode a s).Sound :=
  ⟨setNode_buffered hs.nodes a h, hs.leaves⟩

theorem Sound.grown {t' : ByteTree} (hs : t.Sound) (hg : Grown t t') : t'.Sound where
  nodes := hg.buffered
  leaves := by
    rw [hg.same]
    exact hs.leaves

/-- A new blob is behind no handle of a page. -/
theorem Sound.withEntry (hs : t.Sound) (e : KeyValuePair) : (t.withEntry e).Sound ∧ (t.withEntry e).heap = t.heap := by
  have hsame : ∀ b < t.nextBlob, (t.withEntry e).blobValue b = t.blobValue b := fun b hb => withEntry_blobValue hb
  have hleaves : (t.withEntry e).leaves = t.leaves ∧ (t.withEntry e).nodes = t.nodes := by
    unfold ByteTree.withEntry
    split <;> exact ⟨rfl, rfl⟩
  refine ⟨⟨by rw [hleaves.2]; exact hs.nodes, fun a => ?_⟩, ?_⟩
  · rw [hleaves.1]
    exact (hs.leaves a).congr hsame withEntry_nextBlob.1
  · have hpages : (fun a => (⟨((t.withEntry e).leaves a).page.page (t.withEntry e).blobValue, ((t.withEntry e).leaves a).next⟩ :
        Heap.Leaf)) = fun a => ⟨(t.leaves a).page.page t.blobValue, (t.leaves a).next⟩ := by
      funext a
      rw [hleaves.1, (hs.leaves a).page_congr hsame]
    rw [heap, hpages, hleaves.2, heap]
    unfold ByteTree.withEntry
    split <;> rfl

end Sound

theorem withEntry_setLeaf (t : ByteTree) (e : KeyValuePair) (a : ℕ) (l : ByteLeaf) :
    (t.setLeaf a l).withEntry e = (t.withEntry e).setLeaf a l := by
  unfold withEntry
  split <;> rfl

theorem withEntry_newLeaf (t : ByteTree) (e : KeyValuePair) : t.newLeaf.2.withEntry e = (t.withEntry e).newLeaf.2 ∧
    t.newLeaf.1 = (t.withEntry e).newLeaf.1 := by
  unfold withEntry
  split <;> exact ⟨rfl, rfl⟩

/-! ## The leaves of a split -/

section Prepared

variable {t : ByteTree} {e : KeyValuePair}

/-- A page with entries of another one and the new entry. -/
theorem blobbed_of_entries {p q : LeafBytes} (hp : p.Blobbed t.blobValue t.nextBlob) (hq : q.Filled) (he : Admitted e)
    (hb : t.nextBlob < 2 ^ 64) (hsub : ∀ x ∈ q.entries, x ∈ p.entries ∨ x = t.entryOf e) :
    q.Blobbed (t.withEntry e).blobValue (t.withEntry e).nextBlob := by
  obtain ⟨-, hmarked, -, hknown⟩ := entryOf_spec he hb
  have hold := hp.congr (fun b hb => withEntry_blobValue (e := e) hb) (withEntry_nextBlob (e := e)).1
  refine ⟨hq, fun x hx => ?_, fun x hx => ?_, fun x hx => ?_⟩
  · rcases hsub x hx with hmem | rfl
    · exact hold.marked x hmem
    · exact hmarked
  · rcases hsub x hx with hmem | rfl
    · exact hold.keys x hmem
    · exact he.key
  · rcases hsub x hx with hmem | rfl
    · exact hold.known x hmem
    · exact hknown

/-- The tree after an insertion that has stored its entry, or has not. -/
def withStored (t : ByteTree) (e : KeyValuePair) (stored : Bool) : ByteTree := if stored then t.withEntry e else t

theorem splitLeaf_blobbed (hs : t.Sound) (he : Admitted e) (hb : t.nextBlob < 2 ^ 64) {a pos : ℕ}
    (hpos : pos ≤ (t.leaves a).page.count) (rawl rawr : ℕ → UInt8) {r : (LeafBytes × LeafBytes) × Bool}
    (hr : r = (t.leaves a).page.splitLeaf (LeafBytes.empty rawl) (LeafBytes.empty rawr) pos (t.entryOf e)) :
    r.1.1.Blobbed (t.withStored e r.2).blobValue (t.withStored e r.2).nextBlob ∧
      r.1.2.Blobbed (t.withStored e r.2).blobValue (t.withStored e r.2).nextBlob ∧
      (r.1.1.page (t.withStored e r.2).blobValue, r.1.2.page (t.withStored e r.2).blobValue) =
        (t.heap.leaves a).page.splitLeaf pos e ∧
      (0 < (t.leaves a).page.count → 0 < r.1.2.count) := by
  obtain ⟨hfits, hmarked, hversion, -⟩ := entryOf_spec he hb
  have hp := hs.leaves a
  have hsame : ∀ b < t.nextBlob, (t.withEntry e).blobValue b = t.blobValue b := fun b hb => withEntry_blobValue hb
  have hp' := hp.congr hsame (withEntry_nextBlob (e := e)).1
  have hhalved := LeafBytes.splitLeaf_spec hp'.toFilled hp'.marked hpos hfits hmarked rawl rawr
  rw [← hr] at hhalved
  have hleft : ∀ x ∈ r.1.1.entries, x ∈ (t.leaves a).page.entries ∨ r.2 = true ∧ x = t.entryOf e :=
    fun x hx => hhalved.entries x (List.mem_append_left _ hx)
  have hright : ∀ x ∈ r.1.2.entries, x ∈ (t.leaves a).page.entries ∨ r.2 = true ∧ x = t.entryOf e :=
    fun x hx => hhalved.entries x (List.mem_append_right _ hx)
  have hpages := hhalved.pages
  rw [hversion, hp.page_congr hsame] at hpages
  cases hstored : r.2 with
  | true =>
    exact ⟨blobbed_of_entries hp hhalved.left he hb fun x hx => (hleft x hx).imp_right And.right,
      blobbed_of_entries hp hhalved.right he hb fun x hx => (hright x hx).imp_right And.right, hpages, hhalved.nonempty⟩
  | false =>
    -- Neither half has the entry, and no blob has been allocated.
    rw [hstored] at hleft hright
    have hl := hp.of_entries hhalved.left fun x hx => (hleft x hx).resolve_right fun h => Bool.false_ne_true h.1
    have hr' := hp.of_entries hhalved.right fun x hx => (hright x hx).resolve_right fun h => Bool.false_ne_true h.1
    refine ⟨hl, hr', ?_, hhalved.nonempty⟩
    rw [hl.page_congr hsame, hr'.page_congr hsame] at hpages
    exact hpages

/-- The trees before and after `SplitCoW` has prepared its leaves. -/
structure LeavesPrepared (t : ByteTree) (leaf : ℕ) (e : KeyValuePair) (pos : ℕ) (new : ByteTree × ℕ × ℕ) : Prop where
  sound : new.1.Sound
  heap : (new.1.heap, new.2) = t.heap.prepareLeaves leaf ((t.heap.leaves leaf).page.splitLeaf pos e)
  nextBlob : new.1.nextBlob ≤ t.nextBlob + 1
  sep : 0 < (t.leaves leaf).page.count →
    (new.1.leaves new.2.2).page.keyAt 0 = ((t.heap.leaves leaf).page.splitLeaf pos e).2.firstKey ∧
      ((new.1.leaves new.2.2).page.keyAt 0).length ≤ Config.maxKeyBytes

theorem withStored_sound (hs : t.Sound) (stored : Bool) : (t.withStored e stored).Sound ∧
    (t.withStored e stored).heap = t.heap ∧ (t.withStored e stored).nextBlob ≤ t.nextBlob + 1 := by
  cases stored with
  | true => exact ⟨(hs.withEntry e).1, (hs.withEntry e).2, withEntry_nextBlob.2⟩
  | false => exact ⟨hs, rfl, Nat.le_succ _⟩

theorem LeavesPrepared.addBlobPtr {leaf pos : ℕ} {new : ByteTree} {l r : ℕ} (h : LeavesPrepared t leaf e pos (new, l, r))
    (p : LeafBytes) (i : ℕ) : LeavesPrepared t leaf e pos (new.addBlobPtr p i, l, r) :=
  ⟨⟨h.sound.nodes, h.sound.leaves⟩, h.heap, h.nextBlob, h.sep⟩

theorem newLeaf_page (t : ByteTree) :
    (t.newLeaf.2.leaves t.newLeaf.1).page = LeafBytes.empty (t.leaves t.newLeaf.1).page.raw := by
  show (if t.newLeaf.1 = t.newLeaf.1 then _ else t.leaves t.newLeaf.1 : ByteLeaf).page = _
  rw [if_pos rfl]
  rfl

/-- The new leaves and the new blob do not get in each other's way. -/
theorem withStored_leaves (t : ByteTree) (e : KeyValuePair) (stored : Bool) (l r : ℕ) (bl br : ByteLeaf) :
    (((t.newLeaf.2.newLeaf.2.setLeaf l bl).setLeaf r br).withStored e stored) =
      ((t.withStored e stored).newLeaf.2.newLeaf.2.setLeaf l bl).setLeaf r br := by
  cases stored with
  | false => rfl
  | true =>
    show ((t.newLeaf.2.newLeaf.2.setLeaf l bl).setLeaf r br).withEntry e = _
    rw [withEntry_setLeaf, withEntry_setLeaf, (withEntry_newLeaf _ e).1, (withEntry_newLeaf _ e).1]
    rfl

theorem prepareLeaves_spec (hs : t.Sound) (he : Admitted e) (hb : t.nextBlob < 2 ^ 64) {leaf pos : ℕ}
    (hpos : pos ≤ (t.leaves leaf).page.count) : LeavesPrepared t leaf e pos (t.prepareLeaves leaf e pos) := by
  unfold prepareLeaves
  simp only [newLeaf_page]
  generalize hr : (t.leaves leaf).page.splitLeaf _ _ pos (t.entryOf e) = r
  obtain ⟨hleft, hright, hpages, hnonempty⟩ := splitLeaf_blobbed hs he hb hpos _ _ hr.symm
  obtain ⟨hsound, hheap, hnext⟩ := withStored_sound (e := e) hs r.2
  have hstored : ∀ u : ByteTree, (if (r.2 && LeafPage.largeValue e.value) = true then u.addBlob e.value else u) =
      u.withStored e r.2 := by
    intro u
    unfold withStored withEntry
    cases r.2 <;> rfl
  rw [hstored, withStored_leaves]
  have hmain : LeavesPrepared t leaf e pos
      (((t.withStored e r.2).newLeaf.2.newLeaf.2.setLeaf t.newLeaf.1 ⟨r.1.1, some t.newLeaf.2.newLeaf.1⟩).setLeaf
        t.newLeaf.2.newLeaf.1 ⟨r.1.2, (t.leaves leaf).next⟩, t.newLeaf.1, t.newLeaf.2.newLeaf.1) := by
    have hkey : ∀ u : ByteTree, ((u.setLeaf t.newLeaf.2.newLeaf.1 ⟨r.1.2, (t.leaves leaf).next⟩).leaves
        t.newLeaf.2.newLeaf.1).page = r.1.2 := by
      intro u
      show (if t.newLeaf.2.newLeaf.1 = t.newLeaf.2.newLeaf.1 then _ else _ : ByteLeaf).page = _
      rw [if_pos rfl]
    have hset := Sound.setLeaf (l := ⟨r.1.1, some t.newLeaf.2.newLeaf.1⟩) hsound.newLeaf.newLeaf t.newLeaf.1 hleft
    refine ⟨Sound.setLeaf (l := ⟨r.1.2, (t.leaves leaf).next⟩) hset t.newLeaf.2.newLeaf.1 hright, ?_, hnext,
      fun hcount => ?_⟩
    · rw [heap_setLeaf, heap_setLeaf, heap_newLeaf, heap_newLeaf, hheap, ← hpages]
      rfl
    · rw [hkey, ← LeafBytes.firstKey_eq _ _ (hnonempty hcount), ← hpages]
      refine ⟨rfl, ?_⟩
      rw [LeafBytes.firstKey_eq _ _ (hnonempty hcount)]
      exact hright.keys _ (List.mem_of_getElem? (LeafBytes.getElem?_entries _ (hnonempty hcount)))
  split
  · split
    · exact hmain.addBlobPtr _ _
    · exact hmain.addBlobPtr _ _
  · exact hmain

end Prepared

/-! ## The new pointers -/

section Published

variable {t : ByteTree} {path : List (ℕ × ℕ)}

theorem relink_same (t : ByteTree) (pred : Option ℕ) (page : ℕ) :
    (t.relink pred page).nodes = t.nodes ∧ (t.relink pred page).nextBlob = t.nextBlob := by
  cases pred <;> exact ⟨rfl, rfl⟩

theorem setChild_spec {s : NodeBytes} (hs : s.Buffered) (i : ℕ) (c : Option ℕ) :
    (s.setChild i c).Buffered ∧ (s.setChild i c).store = s.store.setChild i c :=
  ⟨⟨hs.keys, hs.top, hs.count⟩, congrArg (Heap.Store.mk _ _ · _) (StaticVec.toList_set ..)⟩

theorem setLeaf_spec {s : NodeBytes} (hs : s.Buffered) (i : ℕ) (l : Option ℕ) :
    (s.setLeaf i l).Buffered ∧ (s.setLeaf i l).store = s.store.setLeaf i l :=
  ⟨⟨hs.keys, hs.top, hs.count⟩, congrArg (Heap.Store.mk _ _ _ ·) (StaticVec.toList_set ..)⟩

theorem Sound.retire (hs : t.Sound) (clock : ℕ) (x : Retired) : (t.retire clock x).Sound := ⟨hs.nodes, hs.leaves⟩

theorem Sound.drainRetired (hs : t.Sound) (minTs : ℕ) : (t.drainRetired minTs).Sound := ⟨hs.nodes, hs.leaves⟩

theorem heap_retire (t : ByteTree) (clock : ℕ) (x : Retired) : (t.retire clock x).heap = t.heap.retire clock x := rfl

theorem heap_drainRetired (t : ByteTree) (minTs : ℕ) : (t.drainRetired minTs).heap = t.heap.drainRetired minTs := rfl

theorem replaceRoot_spec (hs : t.Sound) (clock saved : ℕ) {up : List (ℕ × ℕ)} (hup : ∀ p ∈ up, t.heap.OnPath p) :
    (t.replaceRoot clock saved up).Sound ∧ (t.replaceRoot clock saved up).heap = t.heap.replaceRoot clock saved up ∧
      (t.replaceRoot clock saved up).nextBlob = t.nextBlob := by
  cases up with
  | nil => exact ⟨Sound.retire (t := { t with root := saved }) ⟨hs.nodes, hs.leaves⟩ clock _, rfl, rfl⟩
  | cons p up =>
    obtain ⟨lock, idx⟩ := p
    have hp := hup (lock, idx) List.mem_cons_self
    have hplace : idx ≤ (t.nodes lock).store.keys.length := hp.place
    have hchildren : (t.nodes lock).children.toList.length = (t.nodes lock).store.keys.length + 1 := hp.children
    rw [StaticVec.length_toList] at hchildren
    obtain ⟨hbuf, hstore⟩ := setChild_spec (hs.nodes lock) idx (some saved)
    have hswapped := hs.setNode lock hbuf
    have hheap := heap_setNode t lock ((t.nodes lock).setChild idx (some saved))
    rw [hstore] at hheap
    unfold replaceRoot Heap.replaceRoot
    simp only [StaticVec.data_eq (show idx < (t.nodes lock).children.n by omega)]
    have hold : (t.heap.nodes lock).children = (t.nodes lock).children.toList := rfl
    rw [hold]
    cases ((t.nodes lock).children.toList[idx]?).join with
    | some old => exact ⟨hswapped.retire clock _, congrArg (Heap.retire · clock ⟨old, true⟩) hheap, rfl⟩
    | none => exact ⟨hswapped, hheap, rfl⟩

theorem newRoot_refines (hs : t.Sound) (pair : Heap.Pair) {sep : Bytes} (hsep : sep.length < 2 ^ 16) :
    Refines heap (fun t' => t'.Sound ∧ t'.nextBlob = t.nextBlob) (t.newRoot pair sep) (t.heap.newRoot pair sep) := by
  have hkey := NodeBytes.pushKey_refines NodeBytes.empty_buffered (by decide) hsep
  unfold newRoot Heap.newRoot
  rw [Option.map_eq_bind, Option.map_eq_bind, Option.bind_assoc]
  refine hkey.bind fun s hkeyed => ?_
  obtain ⟨hbuf, -, hchildren, hleaves⟩ := hkeyed
  obtain ⟨s', hs', hbuf', hstore⟩ := NodeBytes.pushPair_spec hbuf hchildren hleaves pair
  rw [hs']
  refine Refines.pure ?_ ⟨?_, rfl⟩
  · have hheap : (t.newInternal.2.setNode t.newInternal.1 s').heap = t.heap.newInternal.2.setNode t.heap.newInternal.1 s'.store := by
      rw [heap_setNode, heap_newInternal]
      rfl
    rw [hstore] at hheap
    exact congrArg (fun h : Heap => { h with root := t.newInternal.1 }) hheap
  · have hset := (hs.setNode t.newInternal.1 NodeBytes.empty_buffered).setNode t.newInternal.1 hbuf'
    exact ⟨hset.nodes, hset.leaves⟩

theorem publish_refines (hs : t.Sound) (hpath : ∀ p ∈ path, t.heap.OnPath p) {a : Ascent} (hg : Grown t a.tree)
    (hends : a.Ends path) (clock leaf left : ℕ) :
    Refines heap (fun t' => t'.Sound ∧ t'.nextBlob = t.nextBlob) (publish clock leaf left path a)
      (Heap.publish clock leaf left path a.heap) := by
  have hnext : a.tree.nextBlob = t.nextBlob := by rw [hg.same]
  cases a with
  | placed t' saved up =>
    have hon : ∀ p ∈ path, t'.heap.OnPath p := fun p hp => (hpath p hp).grows hg.grows
    have hsound : t'.Sound := hs.grown hg
    show Refines _ _ (some (((t'.relink (t'.findPredecessor t'.alloc.next path) left).replaceRoot clock saved up).retire clock _))
      (some (((t'.heap.relink (t'.heap.findPredecessor t'.alloc.next path) left).replaceRoot clock saved up).retire clock _))
    rw [← findPredecessor_eq t'.alloc.next hon]
    generalize t'.findPredecessor t'.alloc.next path = pred
    obtain ⟨hnodes, hblob⟩ := relink_same t' pred left
    have hheap := heap_relink t' pred left
    have hup : ∀ p ∈ up, (t'.relink pred left).heap.OnPath p := by
      intro p hp
      rw [hheap]
      refine (hon p (hends p hp)).congr ?_ (Nat.le_of_eq ?_)
      · cases pred <;> rfl
      · cases pred <;> rfl
    obtain ⟨hsound', hheap', hblob'⟩ := replaceRoot_spec (hsound.relink pred left) clock saved hup
    refine Refines.pure ?_ ⟨hsound'.retire clock _, hblob'.trans (hblob.trans hnext)⟩
    rw [heap_retire, hheap', hheap]
  | top t' pair sep =>
    have hon : ∀ p ∈ path, t'.heap.OnPath p := fun p hp => (hpath p hp).grows hg.grows
    have hsound : t'.Sound := hs.grown hg
    show Refines _ _ (((t'.relink (t'.findPredecessor t'.alloc.next path) left).newRoot pair sep).map _)
      (((t'.heap.relink (t'.heap.findPredecessor t'.alloc.next path) left).newRoot pair sep).map _)
    rw [← findPredecessor_eq t'.alloc.next hon]
    generalize t'.findPredecessor t'.alloc.next path = pred
    have hroot := newRoot_refines (hsound.relink pred left) pair hends
    rw [heap_relink] at hroot
    exact hroot.map (fun t'' _ => heap_retire t'' clock _) fun t'' ht'' =>
      ⟨ht''.1.retire clock _, ht''.2.trans ((relink_same t' pred left).2.trans hnext)⟩

end Published

/-! ## Insertions -/

section Inserted

variable {t : ByteTree} {e : KeyValuePair}

theorem splitCoW_refines (hs : t.Sound) (he : Admitted e) (hb : t.nextBlob < 2 ^ 64) {leaf pos : ℕ}
    {path : List (ℕ × ℕ)} (hpath : ∀ p ∈ path, t.heap.OnPath p) (hpos : pos ≤ (t.leaves leaf).page.count)
    (hcount : 0 < (t.leaves leaf).page.count) (clock : ℕ) :
    Refines heap (fun t' => t'.Sound ∧ t'.nextBlob ≤ t.nextBlob + 1) (t.splitCoW clock leaf path e pos)
      (t.heap.splitCoW clock leaf path e pos) := by
  have hnew := prepareLeaves_spec hs he hb hpos
  unfold splitCoW Heap.splitCoW
  simp only []
  generalize t.prepareLeaves leaf e pos = new at hnew ⊢
  obtain ⟨hkey, hlen⟩ := hnew.sep hcount
  have hmax : Config.maxKeyBytes = 1024 := rfl
  have houtside := Heap.prepareLeaves_outside t.heap leaf ((t.heap.leaves leaf).page.splitLeaf pos e)
  have hnext : t.heap.alloc.next ≤ (t.heap.prepareLeaves leaf ((t.heap.leaves leaf).page.splitLeaf pos e)).1.alloc.next :=
    Nat.le_trans (Heap.newLeaf_next _) (Heap.newLeaf_next _)
  rw [← hnew.heap] at houtside hnext ⊢
  have hon : ∀ p ∈ path, new.1.heap.OnPath p := fun p hp =>
    (hpath p hp).congr (congrFun (congrArg Prod.fst houtside) p.1) hnext
  have hasc := ascend_refines hnew.sound.nodes hon (.leaves new.2.1 new.2.2)
    (show ((new.1.leaves new.2.2).page.keyAt 0).length < 2 ^ 16 by omega)
  rw [← hkey]
  exact hasc.bind fun a ha => (publish_refines hnew.sound hon ha.1 ha.2 clock leaf new.2.1).mono fun t' ht' =>
    ⟨ht'.1, ht'.2.trans_le hnew.nextBlob⟩

theorem withCopy_spec (hs : t.Sound) {q : LeafBytes} (hq : q.Blobbed (t.withEntry e).blobValue (t.withEntry e).nextBlob)
    (next : Option ℕ) (i : ℕ) : (t.withCopy e q next i).Sound ∧
      (t.withCopy e q next i).heap = t.heap.newLeaf.2.setLeaf t.heap.newLeaf.1 ⟨q.page (t.withEntry e).blobValue, next⟩ ∧
      (t.withCopy e q next i).nextBlob ≤ t.nextBlob + 1 := by
  have hcopy : ((t.newLeaf.2.setLeaf t.newLeaf.1 ⟨q, next⟩).withEntry e).Sound ∧
      ((t.newLeaf.2.setLeaf t.newLeaf.1 ⟨q, next⟩).withEntry e).heap =
        t.heap.newLeaf.2.setLeaf t.heap.newLeaf.1 ⟨q.page (t.withEntry e).blobValue, next⟩ ∧
      ((t.newLeaf.2.setLeaf t.newLeaf.1 ⟨q, next⟩).withEntry e).nextBlob ≤ t.nextBlob + 1 := by
    rw [withEntry_setLeaf, (withEntry_newLeaf t e).1]
    refine ⟨Sound.setLeaf (l := ⟨q, next⟩) (hs.withEntry e).1.newLeaf _ hq, ?_, withEntry_nextBlob.2⟩
    rw [heap_setLeaf, heap_newLeaf, (hs.withEntry e).2]
    rfl
  unfold withEntry at hcopy
  unfold withCopy
  simp only []
  split
  · next hlarge =>
    rw [if_pos hlarge] at hcopy
    exact ⟨⟨hcopy.1.nodes, hcopy.1.leaves⟩, hcopy.2.1, hcopy.2.2⟩
  · next hlarge =>
    rw [if_neg hlarge] at hcopy
    exact hcopy

theorem find_le (p : LeafBytes) (key : Bytes) : p.find key ≤ p.count := by
  refine Bisect.bisect_le (fun lo hi hlt => ?_) _ _ _ _ (Nat.zero_le _)
  show lo ≤ (lo + (hi - 1)) / 2 ∧ (lo + (hi - 1)) / 2 < hi
  omega

/-- An empty page has room for every entry. -/
theorem count_pos_of_full {p : LeafBytes} (hp : p.Filled) (he : (t.entryOf e).Fits)
    (hfull : p.free < (t.entryOf e).recSize + LeafPage.slotSize) : 0 < p.count := by
  by_contra hzero
  have hnil : p.entries = [] := List.length_eq_zero_iff.mp (by rw [LeafBytes.length_entries]; omega)
  have hfree := hp.free_add
  rw [hnil, List.map_nil, List.sum_nil] at hfree
  have hkey : (t.entryOf e).key.length ≤ 1024 := he.key
  have hvalue : (t.entryOf e).value.size ≤ 2048 := by
    cases hv : (t.entryOf e).value with
    | inline v => exact he.inline v hv
    | blob b => exact (by decide : 8 ≤ 2048)
  have hslot : LeafPage.slotSize = 14 := rfl
  unfold PageEntry.recSize at hfull
  omega

theorem linkCopy_spec (hs : t.Sound) {parent idx : ℕ} {path : List (ℕ × ℕ)}
    (hpath : ∀ p ∈ (parent, idx) :: path, t.heap.OnPath p) (clock leaf nleaf : ℕ) :
    ∃ t', t.linkCopy clock leaf nleaf ((parent, idx) :: path) = some t' ∧ t'.Sound ∧
      t'.heap = (((t.heap.relink (t.heap.findPredecessor t.heap.alloc.next ((parent, idx) :: path)) nleaf).setNode parent
        (((t.heap.relink (t.heap.findPredecessor t.heap.alloc.next ((parent, idx) :: path)) nleaf).nodes parent).setLeaf idx
          (some nleaf))).retire clock ⟨leaf, false⟩) ∧ t'.nextBlob = t.nextBlob := by
  refine ⟨_, rfl, ?_⟩
  have hpred : t.heap.findPredecessor t.heap.alloc.next ((parent, idx) :: path) =
      t.findPredecessor t.alloc.next ((parent, idx) :: path) := (findPredecessor_eq t.alloc.next hpath).symm
  rw [hpred]
  generalize t.findPredecessor t.alloc.next ((parent, idx) :: path) = pred
  have hlinked := hs.relink pred nleaf
  obtain ⟨hbuf, hstore⟩ := setLeaf_spec (hlinked.nodes parent) idx (some nleaf)
  refine ⟨(hlinked.setNode parent hbuf).retire clock _, ?_, (relink_same t pred nleaf).2⟩
  rw [heap_retire, heap_setNode, hstore, ← heap_relink]
  rfl

/-- How `Insert` goes on with the copy `page` of the leaf `a`, where the entry belongs at `pos`. -/
inductive Placing (t : ByteTree) (clock : ℕ) (e : KeyValuePair) (path : List (ℕ × ℕ)) (a pos : ℕ) (page : LeafBytes) : Prop
  | copied (ins : LeafBytes) : ins.Filled → ins.entries = page.entries.insertIdx pos (t.entryOf e) →
      (t.heap.leaves a).page.insertEntry pos e = some (ins.page (t.withEntry e).blobValue) →
      t.place clock e = (t.withCopy e ins (t.leaves a).next pos).linkCopy clock a t.newLeaf.1 path →
      Placing t clock e path a pos page
  | split : (t.heap.leaves a).page.insertEntry pos e = none → 0 < page.count →
      t.place clock e = (t.newLeaf.2.setLeaf t.newLeaf.1 ⟨page, (t.leaves a).next⟩).splitCoW clock a path e pos →
      Placing t clock e path a pos page

/-- The leaf that `Insert` finds and its copy. -/
structure Copied (t : ByteTree) (root : Node) (clock : ℕ) (e : KeyValuePair) (path : List Nodes.Ctx) (a : ℕ)
    (page : LeafBytes) : Prop where
  found : Heap.Found t.heap root e.key path a
  blobbed : page.Blobbed t.blobValue t.nextBlob
  count : page.count = (t.leaves a).page.count
  pages : page.page t.blobValue = (t.heap.leaves a).page
  placing : Placing t clock e (Heap.pathOf path) a ((t.leaves a).page.find e.key) page

theorem exists_copied {root : Node} (hs : t.Sound) (hh : t.heap.Holds root []) (he : Admitted e)
    (hb : t.nextBlob < 2 ^ 64) (clock : ℕ) : ∃ path a page, Copied t root clock e path a page := by
  obtain ⟨path, a, hf⟩ := hh.found e.key
  have hmax : Config.maxKeyBytes = 1024 := rfl
  have hkey : e.key.length < 2 ^ 16 := by
    have hle := he.key
    omega
  have hfind : t.findLeafForWrite e.key t.alloc.next t.root [] = some (a, Heap.pathOf path) :=
    (findLeafForWrite_eq hkey _ _ _).trans hf.find
  obtain ⟨hfits, hmarked, hversion, -⟩ := entryOf_spec he hb
  have hsame : ∀ b < t.nextBlob, (t.withEntry e).blobValue b = t.blobValue b := fun b hb => withEntry_blobValue hb
  obtain ⟨hcopy, hents⟩ := LeafBytes.copyLeafContent_spec (t.newLeaf.2.leaves t.newLeaf.1).page (hs.leaves a).toFilled
  have hcount : ((t.newLeaf.2.leaves t.newLeaf.1).page.copyLeafContent (t.leaves a).page).count = (t.leaves a).page.count := rfl
  have hplace : t.place clock e = _ := congrArg (Option.bind · _) hfind
  simp only [Option.bind_some] at hplace
  generalize (t.newLeaf.2.leaves t.newLeaf.1).page.copyLeafContent (t.leaves a).page = page at hcopy hents hcount hplace
  have hblobbed : page.Blobbed t.blobValue t.nextBlob := (hs.leaves a).of_entries hcopy fun x hx => hents ▸ hx
  have hpages : page.page t.blobValue = (t.heap.leaves a).page :=
    congrArg (fun es : List PageEntry => LeafPage.mk (es.map (PageEntry.version t.blobValue))) hents
  have hpos : (t.leaves a).page.find e.key ≤ page.count := hcount ▸ find_le _ _
  refine ⟨path, a, page, hf, hblobbed, hcount, hpages, ?_⟩
  have hcases := LeafBytes.insertEntry_cases hcopy (hblobbed.congr hsame (withEntry_nextBlob (e := e)).1).marked hpos hfits hmarked
  rw [hversion, hblobbed.page_congr hsame, hpages] at hcases
  rcases hcases with ⟨hok, hins, hpage⟩ | ⟨hno, -, hpage⟩
  · exact .copied _ (hcopy.insertEntry hpos hfits) hins hpage (hplace.trans (if_pos hok))
  · refine .split hpage (count_pos_of_full hcopy hfits ?_) (hplace.trans (if_neg (by rw [hno]; exact Bool.false_ne_true)))
    by_contra hroom
    have hdone := (LeafBytes.insertEntry_done hcopy.toSeparate hpos hfits (Nat.not_lt.mp hroom)).1
    rw [hno] at hdone
    cases hdone

/-- The tree with the copy, before it is split. -/
theorem Copied.set {root : Node} {clock : ℕ} {path : List Nodes.Ctx} {a : ℕ} {page : LeafBytes}
    (hc : Copied t root clock e path a page) (hs : t.Sound) (hh : t.heap.Holds root []) :
    (t.newLeaf.2.setLeaf t.newLeaf.1 ⟨page, (t.leaves a).next⟩).Sound ∧
      (t.newLeaf.2.setLeaf t.newLeaf.1 ⟨page, (t.leaves a).next⟩).heap = t.heap.copyLeaf a ∧
      (t.newLeaf.2.setLeaf t.newLeaf.1 ⟨page, (t.leaves a).next⟩).leaves a = t.leaves a := by
  have hne : a ≠ t.newLeaf.1 := hh.newLeaf_ne hc.found.mem
  refine ⟨Sound.setLeaf (l := ⟨page, (t.leaves a).next⟩) hs.newLeaf t.newLeaf.1 hc.blobbed, ?_, ?_⟩
  · have hpages : page.page t.newLeaf.2.blobValue = (t.heap.leaves a).page := hc.pages
    rw [heap_setLeaf, heap_newLeaf, hpages]
    rfl
  · show (if a = t.newLeaf.1 then _ else if a = t.alloc.newLeaf.1 then _ else t.leaves a : ByteLeaf) = _
    rw [if_neg hne]
    exact if_neg hne

/-- Up to the drain. -/
theorem place_refines {root : Node} (hs : t.Sound) (hh : t.heap.Holds root []) (he : Admitted e)
    (hb : t.nextBlob < 2 ^ 64) (clock : ℕ) :
    Refines heap (fun t' => t'.Sound ∧ t'.nextBlob ≤ t.nextBlob + 1) (t.place clock e) (t.heap.place clock e) := by
  obtain ⟨path, a, page, hc⟩ := exists_copied hs hh he hb clock
  have hon := hc.found.onPath hh
  have hpos : (t.heap.leaves a).page.find e.key = (t.leaves a).page.find e.key := LeafBytes.find_eq ..
  rcases hc.placing with ⟨ins, hfilled, hins, habs, hplace⟩ | ⟨habs, hcount, hplace⟩
  · -- The copy has room: one pointer of the parent is replaced.
    obtain ⟨hsound, hheap, hnext⟩ := withCopy_spec hs (blobbed_of_entries hc.blobbed hfilled he hb fun x hx =>
      (List.eq_or_mem_of_mem_insertIdx (hins ▸ hx)).symm) (t.leaves a).next ((t.leaves a).page.find e.key)
    obtain ⟨c, path, rfl⟩ := List.exists_cons_of_ne_nil hc.found.nonempty
    have hon₁ : ∀ p ∈ Heap.pathOf (c :: path),
        (t.withCopy e ins (t.leaves a).next ((t.leaves a).page.find e.key)).heap.OnPath p := fun p hp => by
      rw [hheap]
      exact (hon p hp).congr rfl (Heap.newLeaf_next t.alloc)
    obtain ⟨t', ht', hsound', hheap', hnext'⟩ :=
      @linkCopy_spec _ hsound c.addr c.left.length (Heap.pathOf path) hon₁ clock a t.newLeaf.1
    rw [hheap] at hheap'
    rw [hplace, Heap.place, hc.found.find, Option.bind_some]
    simp only [hpos]
    rw [habs]
    show Refines heap _ ((t.withCopy e ins _ _).linkCopy clock a t.newLeaf.1 ((c.addr, c.left.length) :: Heap.pathOf path)) _
    rw [ht']
    exact Refines.pure hheap' ⟨hsound', hnext'.trans_le hnext⟩
  · obtain ⟨hsound, hheap, hleaf⟩ := hc.set hs hh
    have hon₁ : ∀ p ∈ Heap.pathOf path, (t.newLeaf.2.setLeaf t.newLeaf.1 ⟨page, (t.leaves a).next⟩).heap.OnPath p :=
      fun p hp => by
        rw [hheap]
        exact (hon p hp).congr rfl (Heap.newLeaf_next t.alloc)
    have hposLeaf : (t.leaves a).page.find e.key ≤
        ((t.newLeaf.2.setLeaf t.newLeaf.1 ⟨page, (t.leaves a).next⟩).leaves a).page.count := by
      rw [hleaf]
      exact find_le _ _
    have hsplit := splitCoW_refines hsound he hb hon₁ hposLeaf (by rw [hleaf, ← hc.count]; exact hcount) clock
    rw [hheap] at hsplit
    rw [hplace, Heap.place_full hc.found (by rw [hpos]; exact habs), hpos]
    exact hsplit

/-- An insertion into the bytes refines the one into the tree. -/
theorem insert_refines {root : Node} (hs : t.Sound) (hh : t.heap.Holds root []) (he : Admitted e)
    (hb : t.nextBlob < 2 ^ 64) (clock : ℕ) :
    Refines heap (fun t' => t'.Sound ∧ t'.nextBlob ≤ t.nextBlob + 1) (t.insert clock e) (t.heap.insert clock e) := by
  refine (place_refines hs hh he hb clock).map (fun t' _ => ?_) fun t' ht' => ?_
  · show (if t'.fenced then t' else t'.drainRetired (2 ^ 64 - 1)).heap = if t'.fenced then t'.heap else _
    split
    · rfl
    · exact heap_drainRetired t' _
  · split
    · exact ht'
    · exact ⟨ht'.1.drainRetired _, ht'.2⟩

end Inserted

/-! ## Runs -/

theorem new_sound (fenced : Bool) (raw : ℕ → UInt8) : (new fenced raw).Sound where
  nodes := fun _ => ⟨fun _ hi => absurd hi (Nat.not_lt_zero _), Nat.zero_le _, Nat.zero_le _⟩
  leaves := fun _ => LeafBytes.blobbed_empty raw

theorem inserts_refines_from {t : ByteTree} {root : Node} (hs : t.Sound) (hh : t.heap.Holds root [])
    (es : List (ℕ × KeyValuePair)) (hes : ∀ p ∈ es, Admitted p.2) (hb : t.nextBlob + es.length < 2 ^ 64) :
    Refines heap (fun t' => t'.Sound ∧ ∃ root', t'.heap.Holds root' []) (t.inserts es) (t.heap.inserts es) := by
  induction es generalizing t root with
  | nil => exact Refines.pure rfl ⟨hs, root, hh⟩
  | cons p es ih =>
    obtain ⟨clock, e⟩ := p
    rw [List.length_cons] at hb
    have hone := insert_refines hs hh (hes (clock, e) List.mem_cons_self) (by omega) clock
    rcases hone.cases with ⟨hnone, hnone'⟩ | ⟨t', hsome, hsome', hsound, hnext⟩
    · rw [inserts, Heap.inserts, hnone, hnone']
      exact Refines.none
    · obtain ⟨root', hholds⟩ := hh.insert_some hsome'
      rw [inserts, Heap.inserts, hsome, hsome']
      exact ih hsound hholds (fun q hq => hes q (List.mem_cons_of_mem _ hq)) (by omega)

/-! ## Reads -/

section Read

variable {t : ByteTree}

/-- No page has a key that is longer than the limit. -/
theorem found_short (hs : t.Sound) {a : ℕ} {key : Bytes} (hfound : (t.leaves a).page.found key = true) :
    key.length ≤ Config.maxKeyBytes := by
  rw [LeafBytes.found, Bool.and_eq_true, decide_eq_true_eq, decide_eq_true_eq] at hfound
  obtain ⟨hlt, hkey⟩ := hfound
  rw [← hkey]
  exact (hs.leaves a).keys _ (List.mem_of_getElem? (LeafBytes.getElem?_entries _ hlt))

theorem lookupVersion_eq (hs : t.Sound) (aborted : List ℕ) (key : Bytes) (readTs : ℕ) :
    t.lookupVersion aborted key readTs = t.heap.lookupVersion aborted key readTs := by
  have hfound : ∀ a, (t.heap.leaves a).page.found key = (t.leaves a).page.found key := fun a => LeafBytes.found_eq ..
  unfold lookupVersion Heap.lookupVersion
  by_cases hkey : key.length < 2 ^ 16
  · rw [findLeaf_eq hkey]
    refine congrArg (Option.bind _) (funext fun a => ?_)
    have hle := find_le (t.leaves a).page key
    have hscan := @LeafBytes.scanVersions_eq t.blobValue (t.leaves a).page aborted readTs key hkey
      ((t.leaves a).page.count - (t.leaves a).page.find key) ((t.leaves a).page.find key) (by omega)
    have hfind : (t.heap.leaves a).page.find key = (t.leaves a).page.find key := LeafBytes.find_eq ..
    simp only [hfound, hfind, hscan]
    rfl
  · -- A key of more than 16 bits is led anywhere, and is in no leaf.
    have hmax : Config.maxKeyBytes = 1024 := rfl
    have hno : ∀ a, (t.leaves a).page.found key = false := by
      intro a
      by_contra h
      have hshort := found_short hs (Bool.eq_true_of_not_eq_false h)
      omega
    simp only [hfound, hno, Bool.false_eq_true, if_false]
    rw [Option.bind_fun_none, Option.bind_fun_none]

theorem exportFrom_eq (fuel : ℕ) (first : Option ℕ) : t.exportFrom fuel first = t.heap.exportFrom fuel first := by
  induction fuel generalizing first with
  | zero => rfl
  | succ fuel ih =>
    cases first with
    | none => rfl
    | some a =>
      rw [exportFrom, Heap.exportFrom, ih, ← LeafBytes.slots_page]
      rfl

end Read

/-- A run in bytes returns just when the run of the tree does, that is when the separators of every node fit their buffer:
no other array is left. What it leaves stands for the tree; the separators and the records are where the headers of their
nodes and pages say, and `Lookup` and `Export` read from the bytes what the model reads from the tree. -/
theorem inserts_refines (fenced : Bool) (raw : ℕ → UInt8) (es : List (ℕ × KeyValuePair)) (hes : ∀ p ∈ es, Admitted p.2)
    (hlen : es.length < 2 ^ 64) : ((new fenced raw).inserts es).map heap = (Heap.new fenced).inserts es ∧
      ∀ t, (new fenced raw).inserts es = some t →
        (∀ a, (t.nodes a).Buffered ∧ (t.leaves a).page.Separate) ∧
        (∀ aborted key readTs, t.lookup aborted key readTs = t.heap.lookup aborted key readTs) ∧
        t.exportAll = t.heap.exportAll := by
  have hrun := inserts_refines_from (new_sound fenced raw) (Heap.new_holds fenced) es hes
    (by rw [show (new fenced raw).nextBlob = 0 from rfl, Nat.zero_add]; exact hlen)
  refine ⟨hrun.same, fun t ht => ?_⟩
  obtain ⟨hs, -⟩ := hrun.keeps t ht
  refine ⟨fun a => ⟨hs.nodes a, (hs.leaves a).toSeparate⟩, fun aborted key readTs => ?_, exportFrom_eq _ _⟩
  rw [lookup, lookupVersion_eq hs]
  rfl

/-- A run with a split and a blob. -/
def splitRun : List (ℕ × KeyValuePair) :=
  [(0, ⟨[2], List.replicate 2040 0, 1, false⟩), (0, ⟨[1], List.replicate 2040 0, 2, false⟩),
    (0, ⟨[3], List.replicate 3000 7, 3, false⟩), (0, ⟨[1], [], 4, true⟩)]

theorem inserts_refines_splitRun : (∀ p ∈ splitRun, Admitted p.2) ∧
    ((new false fun _ => 0).inserts splitRun).map heap = (Heap.new false).inserts splitRun :=
  ⟨by decide +kernel, (inserts_refines false (fun _ => 0) splitRun (by decide +kernel) (by decide)).1⟩

end ByteTree

end Kvdb
