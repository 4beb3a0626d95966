import Kvdb.MemTable.Routes

/-! # A descent during insertions

A reader that walks down with `FindLeaf` may stand at a node that an insertion has replaced meanwhile. The pointers of
that node still lead it to a leaf which was the leaf of its key at some time since it entered the tree: a node that
stays in the tree stays on the route of the key, and a node that leaves it keeps the child that was on the route then
(`Leads.insert`). -/
namespace Kvdb.Retire.Table
set_option autoImplicit false

open Nodes

/-- What the allocator has not handed out, `al.Unused`, holds nothing that is read. -/
abbrev Unused (t : Table) (x : ℕ) : Prop := t.alloc.Unused x

/-- The leaf pages in memory after an insertion into `t` that makes it `t'`: the pages of the tree; a page that has left
it keeps its contents, and of an unused one nothing is known. -/
def written (t t' : Table) (page : ℕ → Option LeafPage) (x : ℕ) : Option LeafPage :=
  if x ∈ t'.linked then t'.root.pageAt x
  else if x ∈ t.alloc.pool ∨ t.alloc.next ≤ x then none
  else page x

/-- The tree in memory: its shape, its separators in order, and its pages. -/
structure Stands (t : Table) (page : ℕ → Option LeafPage) : Prop where
  shape : ∃ d, Uniform d t.root
  keyed : Keyed (· ≤ ·) (t.root.chain [])
  page : ∀ x ∈ t.linked, page x = t.root.pageAt x

/-- The leaf of the key of the entry takes it in its place. -/
def InPlace (t : Table) (e : KeyValuePair) : Prop := ∀ found ∈ t.root.leafFor e.key, found.2.InPlace e

instance decidableInPlace (t : Table) (e : KeyValuePair) : Decidable (t.InPlace e) :=
  inferInstanceAs (Decidable (∀ found ∈ t.root.leafFor e.key, found.2.InPlace e))

/-! ## Where a descent leads -/

/-- From `x` the pointers lead the key to its leaf in the tree, or to a leaf and page of `seen`. -/
inductive Leads (t : Table) (page : ℕ → Option LeafPage) (key : Bytes) (seen : ℕ → LeafPage → Prop) : ℕ → Prop
  | linked {x : ℕ} (hx : x ∈ t.root.route key) : Leads t page key seen x
  | leaf {x : ℕ} {leaf : LeafPage} (hx : x ∉ t.linked) (hold : t.old x = none) (hpage : page x = some leaf)
      (hseen : seen x leaf) : Leads t page key seen x
  | node {x y : ℕ} {p : Pointers} (hx : x ∉ t.linked) (hold : t.old x = some p) (hpage : page x = none)
      (hchild : p.children[findChild p.keys key]? = some y) (hnext : Leads t page key seen y) : Leads t page key seen x

variable {t t' : Table} {page : ℕ → Option LeafPage} {key : Bytes} {seen seen' : ℕ → LeafPage → Prop} {x : ℕ}

theorem Leads.mono (h : Leads t page key seen x) (hseen : ∀ a leaf, seen a leaf → seen' a leaf) :
    Leads t page key seen' x := by
  induction h with
  | linked hx => exact .linked hx
  | leaf hx hold hpage hs => exact .leaf hx hold hpage (hseen _ _ hs)
  | node hx hold hpage hchild _ ih => exact .node hx hold hpage hchild ih

theorem Leads.congr (h : Leads t page key seen x) (hroot : t'.root = t.root) (hold : t'.old = t.old) :
    Leads t' page key seen x := by
  have hlinked : t'.linked = t.linked := congrArg Node.addrs hroot
  induction h with
  | linked hx => exact .linked (by rwa [hroot])
  | leaf hx hnone hpage hs => exact .leaf (by rwa [hlinked]) (by rwa [hold]) hpage hs
  | node hx hsome hpage hchild _ ih => exact .node (by rwa [hlinked]) (by rwa [hold]) hpage hchild ih

theorem Stands.congr (h : t.Stands page) (hroot : t'.root = t.root) : t'.Stands page := by
  obtain ⟨hshape, hkeyed, hpage⟩ := h
  rw [← hroot] at hshape hkeyed hpage
  refine ⟨hshape, hkeyed, fun x hx => hpage x ?_⟩
  rwa [linked, hroot] at hx

theorem pointers_linked (hx : x ∈ t.linked) : t.pointers x = t.root.pointersAt x := if_pos hx

theorem pointers_old (hx : x ∉ t.linked) : t.pointers x = t.old x := if_neg hx

theorem linked_of_route (hx : x ∈ t.root.route key) : x ∈ t.linked := t.root.route_subset key hx

/-- A node on the route is the leaf of the key, or points to the next node of the route. -/
theorem Stands.at_route (h : t.Stands page) (hnodup : t.linked.Nodup) {as bs : List ℕ}
    (hroute : t.root.route key = as ++ x :: bs) :
    (∃ leaf, t.root.leafFor key = some (x, leaf) ∧ page x = some leaf ∧ t.pointers x = none) ∨
      ∃ p y cs, t.pointers x = some p ∧ page x = none ∧ p.children[findChild p.keys key]? = some y ∧ bs = y :: cs := by
  obtain ⟨d, hshape⟩ := h.shape
  have hx : x ∈ t.linked := t.root.route_subset key (by rw [hroute]; simp)
  rw [h.page x hx, pointers_linked hx]
  exact route_next hshape hnodup hroute

/-- Following the pointer for the key. -/
theorem Leads.follow (h : Leads t page key seen x) (hstands : t.Stands page) (hnodup : t.linked.Nodup) {p : Pointers}
    {y : ℕ} (hp : t.pointers x = some p) (hy : p.children[findChild p.keys key]? = some y) :
    Leads t page key seen y := by
  cases h with
  | linked hx =>
    obtain ⟨as, bs, hroute⟩ := List.append_of_mem hx
    rcases hstands.at_route hnodup hroute with ⟨leaf, -, -, hnone⟩ | ⟨p', y', cs, hp', -, hy', rfl⟩
    · rw [hnone] at hp
      cases hp
    · obtain rfl := Option.some.inj (hp'.symm.trans hp)
      obtain rfl := Option.some.inj (hy'.symm.trans hy)
      exact .linked (by rw [hroute]; simp)
  | leaf hx hold hpage hs =>
    rw [pointers_old hx, hold] at hp
    cases hp
  | node hx hold hpage hchild hnext =>
    rw [pointers_old hx] at hp
    obtain rfl := Option.some.inj (hold.symm.trans hp)
    obtain rfl := Option.some.inj (hchild.symm.trans hy)
    exact hnext

/-- At a leaf the descent has come to the leaf of the key, now or before. -/
theorem Leads.arrived (h : Leads t page key seen x) (hstands : t.Stands page) (hnodup : t.linked.Nodup)
    {leaf : LeafPage} (hleaf : page x = some leaf) : t.root.leafFor key = some (x, leaf) ∨ seen x leaf := by
  cases h with
  | linked hx =>
    obtain ⟨as, bs, hroute⟩ := List.append_of_mem hx
    rcases hstands.at_route hnodup hroute with ⟨leaf', hfor, hpage, -⟩ | ⟨p, y, cs, -, hpage, -, -⟩
    · obtain rfl := Option.some.inj (hpage.symm.trans hleaf)
      exact Or.inl hfor
    · rw [hpage] at hleaf
      cases hleaf
  | leaf hx hold hpage hs =>
    obtain rfl := Option.some.inj (hpage.symm.trans hleaf)
    exact Or.inr hs
  | node hx hold hpage hchild hnext =>
    rw [hpage] at hleaf
    cases hleaf

/-- Elsewhere there is a pointer for the key. -/
theorem Leads.proceeds (h : Leads t page key seen x) (hstands : t.Stands page) (hnodup : t.linked.Nodup)
    (hleaf : page x = none) : ∃ p y, t.pointers x = some p ∧ p.children[findChild p.keys key]? = some y := by
  cases h with
  | linked hx =>
    obtain ⟨as, bs, hroute⟩ := List.append_of_mem hx
    rcases hstands.at_route hnodup hroute with ⟨leaf, -, hpage, -⟩ | ⟨p, y, cs, hp, -, hy, -⟩
    · rw [hpage] at hleaf
      cases hleaf
    · exact ⟨p, y, hp, hy⟩
  | leaf hx hold hpage hs =>
    rw [hpage] at hleaf
    cases hleaf
  | node hx hold hpage hchild hnext => exact ⟨_, _, (pointers_old hx).trans hold, hchild⟩

/-! ## An insertion during the descent -/

theorem Sound.linked_nodup {clock : ℕ} {todo : List Retired} (h : t.Sound clock todo) : t.linked.Nodup :=
  (List.nodup_append.mp h.nodup).1

theorem Sound.linked_used {clock : ℕ} {todo : List Retired} (h : t.Sound clock todo) (hx : x ∈ t.linked) :
    ¬ t.Unused x := by
  obtain ⟨hbelow, hpool, -⟩ := h.linked_free hx
  rintro (hin | hge)
  · exact hpool hin
  · exact absurd hbelow (Nat.not_lt.mpr hge)

section Insert

variable {clock : ℕ} {e : KeyValuePair} {retired : List Retired}

theorem linked_insert (hins : t.insert clock e = some (t', retired)) (hx : x ∈ t'.linked) : x ∈ t.linked ∨ t.Unused x := by
  obtain ⟨r, hr, -, rfl⟩ := insert_eq_some hins
  rcases mem_newRoot hx with hgrown | hge
  · exact mem_insertNode hr hgrown
  · exact Or.inr (Or.inr (Nat.le_trans (insertNode_takes hr).next_le hge))

theorem old_insert (hins : t.insert clock e = some (t', retired)) : t'.old = t.pointers := by
  obtain ⟨r, -, -, rfl⟩ := insert_eq_some hins
  rfl

theorem written_kept (hx : x ∉ t'.linked) (hused : ¬ t.Unused x) : t.written t' page x = page x := by
  exact (if_neg hx).trans (if_neg hused)

theorem Stands.insert (h : t.Stands page) (hins : t.insert clock e = some (t', retired)) (hplace : t.InPlace e) :
    t'.Stands (t.written t' page) := by
  obtain ⟨d, hshape⟩ := h.shape
  obtain ⟨r, hr, -, rfl⟩ := insert_eq_some hins
  obtain ⟨path, a, leaf, hplaced⟩ := exists_placed hshape hr
  obtain ⟨d', -, hshape'⟩ := newRoot_uniform (insertNode_uniform hshape hr)
  exact ⟨⟨d', hshape'⟩, hplaced.keyed hshape h.keyed (hplace _ hplaced.leafFor), fun x hx => if_pos hx⟩

/-- A node on the route of a key stays on it, or leaves the tree. -/
theorem Stands.route_insert (h : t.Stands page) (hsound : t.Sound clock [])
    (hins : t.insert clock e = some (t', retired)) (hplace : t.InPlace e) (hx : x ∈ t.root.route key) :
    x ∈ t'.root.route key ∨ x ∉ t'.linked := by
  obtain ⟨d, hshape⟩ := h.shape
  have hkeyed := (h.insert hins hplace).keyed
  have hused := hsound.linked_used (linked_of_route hx)
  obtain ⟨r, hr, -, rfl⟩ := insert_eq_some hins
  have hseps : ((r.grown.chain []).map Page.sep).Pairwise (· ≤ ·) := by
    rw [← newRoot_chain]
    exact List.pairwise_map.mpr (hkeyed.apart.imp And.left)
  rcases insertNode_route hshape hr hsound.linked_nodup (fun y hy => hsound.linked_used hy) hseps hx with hin | hnot
  · exact Or.inl (newRoot_route hin)
  · right
    intro hmem
    rcases mem_newRoot hmem with hgrown | hge
    · exact hnot hgrown
    · exact hused (Or.inr (Nat.le_trans (insertNode_takes hr).next_le hge))

/-- A node that was on the route leads the key on, when the next node of the route does. -/
theorem Stands.leads_step (h : t.Stands page) (hsound : t.Sound clock [])
    (hins : t.insert clock e = some (t', retired)) (hplace : t.InPlace e) {as bs : List ℕ}
    (hroute : t.root.route key = as ++ x :: bs)
    (hnext : ∀ y cs, bs = y :: cs →
      Leads t' (t.written t' page) key (fun a leaf => seen a leaf ∨ t.root.leafFor key = some (a, leaf)) y) :
    Leads t' (t.written t' page) key (fun a leaf => seen a leaf ∨ t.root.leafFor key = some (a, leaf)) x := by
  have hx : x ∈ t.root.route key := by simp [hroute]
  rcases h.route_insert hsound hins hplace hx with hin | hgone
  · exact .linked hin
  · have hkept : t.written t' page x = page x := written_kept hgone (hsound.linked_used (linked_of_route hx))
    rcases h.at_route hsound.linked_nodup hroute with ⟨leaf, hfor, hpage, hnone⟩ | ⟨p, y, cs, hp, hpage, hy, hcs⟩
    · exact .leaf hgone (by rw [old_insert hins, hnone]) (hkept.trans hpage) (Or.inr hfor)
    · exact .node hgone (by rw [old_insert hins, hp]) (hkept.trans hpage) hy (hnext y cs hcs)

/-- A node that was on the route still leads the key to its leaf, or to the leaf that it had before the insertion. -/
theorem Stands.leads_insert (h : t.Stands page) (hsound : t.Sound clock [])
    (hins : t.insert clock e = some (t', retired)) (hplace : t.InPlace e) {as bs : List ℕ}
    (hroute : t.root.route key = as ++ x :: bs) :
    Leads t' (t.written t' page) key (fun a leaf => seen a leaf ∨ t.root.leafFor key = some (a, leaf)) x := by
  induction bs generalizing as x with
  | nil =>
    apply h.leads_step hsound hins hplace hroute
    intro y cs hcs
    cases hcs
  | cons b bs ih =>
    apply h.leads_step hsound hins hplace hroute
    intro y cs hcs
    cases hcs
    have hrest : t.root.route key = (as ++ [x]) ++ b :: bs := by simp [hroute]
    exact ih hrest

theorem Leads.insert (h : Leads t page key seen x) (hstands : t.Stands page) (hsound : t.Sound clock [])
    (hins : t.insert clock e = some (t', retired)) (hplace : t.InPlace e) (hfree : ∀ y, t.Reaches x y → ¬ t.Unused y) :
    Leads t' (t.written t' page) key (fun a leaf => seen a leaf ∨ t.root.leafFor key = some (a, leaf)) x := by
  induction h with
  | linked hx =>
    obtain ⟨as, bs, hroute⟩ := List.append_of_mem hx
    exact hstands.leads_insert hsound hins hplace hroute
  | @leaf x leaf hx hold hpage hs =>
    have hused := hfree x Relation.ReflTransGen.refl
    have hx' : x ∉ t'.linked := fun hmem => (linked_insert hins hmem).elim hx hused
    refine .leaf hx' ?_ ((written_kept hx' hused).trans hpage) (Or.inl hs)
    rw [old_insert hins, pointers_old hx, hold]
  | @node x y p hx hold hpage hchild hnext ih =>
    have hused := hfree x Relation.ReflTransGen.refl
    have hx' : x ∉ t'.linked := fun hmem => (linked_insert hins hmem).elim hx hused
    have hpoints : t.Points x y := ⟨p, (pointers_old hx).trans hold, List.mem_of_getElem? hchild⟩
    refine .node hx' ?_ ((written_kept hx' hused).trans hpage) hchild
      (ih fun z hz => hfree z (Relation.ReflTransGen.head hpoints hz))
    rw [old_insert hins, pointers_old hx, hold]

/-- The page of a node that is in use is not written. -/
theorem Stands.written_eq (h : t.Stands page) (hsound : t.Sound clock [])
    (hins : t.insert clock e = some (t', retired)) (hused : ¬ t.Unused x) : t.written t' page x = page x := by
  by_cases hx' : x ∈ t'.linked
  · have hx : x ∈ t.linked := (linked_insert hins hx').resolve_right hused
    have hsound' := hsound.insert hins
    obtain ⟨d, hshape⟩ := h.shape
    have hkept : t'.root.pageAt x = t.root.pageAt x := by
      obtain ⟨r, hr, -, rfl⟩ := insert_eq_some hins
      obtain ⟨path, a, leaf, hplaced⟩ := exists_placed hshape hr
      exact hplaced.pageAt hshape hr hsound.linked_nodup (fun y hy => hsound.linked_used hy) hsound'.linked_nodup hx hx'
    rw [h.page x hx, ← hkept]
    exact if_pos hx'
  · exact written_kept hx' hused

end Insert

end Kvdb.Retire.Table
