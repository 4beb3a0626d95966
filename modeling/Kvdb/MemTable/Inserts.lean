import Kvdb.MemTable.Holds

/-! # `Insert` in memory

The copy of a leaf is linked in the place of the old one and one pointer of its parent is replaced (`place_copy`); a
split prepares two leaves, ascends, and replaces one pointer above the new nodes (`place_split`). The tree after an
insertion is that of `insertNode` (`insert_spec`), as long as the separators fit the nodes (`Fits`). -/
namespace Kvdb.Heap
set_option autoImplicit false

open Nodes

/-- A property of the leaf that `Insert` comes to and of the path to it. -/
def AtLeaf (h : Heap) (key : Bytes) (P : ℕ → List (ℕ × ℕ) → Prop) : Prop :=
  ∀ found ∈ h.findLeafForWrite key h.alloc.next h.root [], P found.1 found.2

instance decidableAtLeaf (h : Heap) (key : Bytes) (P : ℕ → List (ℕ × ℕ) → Prop) [∀ a path, Decidable (P a path)] :
    Decidable (h.AtLeaf key P) :=
  inferInstanceAs (Decidable (∀ found ∈ h.findLeafForWrite key h.alloc.next h.root [], P found.1 found.2))

/-- `Insert` finds room in the leaf, or its split leaves no node with more separators than its buffer holds. -/
def Fits (h : Heap) (e : KeyValuePair) : Prop :=
  h.AtLeaf e.key fun a path =>
    ((h.leaves a).page.insertEntry ((h.leaves a).page.find e.key) e).isSome = true ∨
      h.SepsFit path ((h.leaves a).page.splitLeaf ((h.leaves a).page.find e.key) e).2.firstKey

instance decidableFits (h : Heap) (e : KeyValuePair) : Decidable (h.Fits e) :=
  inferInstanceAs (Decidable (h.AtLeaf e.key _))

/-! ## A leaf with room -/

theorem place_copy {h : Heap} {root : Node} {e : KeyValuePair} {path : List Ctx} {a : ℕ} {page : LeafPage}
    (hh : h.Holds root []) (hf : Found h root e.key path a)
    (hroom : (h.leaves a).page.insertEntry ((h.leaves a).page.find e.key) e = some page) (clock : ℕ) :
    ∃ h' r, h.place clock e = some h' ∧ Nodes.insertNode e h.alloc root = some r ∧
      h'.Holds (Nodes.newRoot r).1 [] := by
  have hleaf : insertLeaf e h.alloc a (h.leaves a).page =
      ⟨.one (.leaf h.alloc.newLeaf.1 page), h.alloc.newLeaf.2, [h.alloc.newLeaf.1], [⟨a, false⟩]⟩ := by
    unfold insertLeaf
    rw [hroom]
  have hr := hf.insertNode
  rw [hleaf, up_one rfl] at hr
  generalize hnl : h.alloc.newLeaf.1 = nl at hleaf hr
  have hfresh := (hh.owns.taken h.alloc.newLeaf_takes).2
  rw [hnl] at hfresh
  have hnot : nl ∉ root.addrs := (hfresh nl (by simp)).1
  obtain ⟨c, path, rfl⟩ := List.exists_cons_of_ne_nil hf.nonempty
  -- The copy of the leaf, then its place in the chain.
  let h₁ : Heap := h.newLeaf.2.setLeaf nl ⟨page, h.next a⟩
  let h₂ : Heap := h₁.relink (((before (c :: path) []).map Page.addr).getLast?) nl
  let h₃ : Heap := h₂.setNode c.addr ((h₂.nodes c.addr).setLeaf c.left.length (some nl))
  have hother : ∀ x ≠ nl, h₁.leaves x = h.leaves x := by
    intro x hx
    simp only [h₁, setLeaf, newLeaf, hnl, if_neg hx]
  have hrep₁ : Rep h₁ root := hh.rep.frame fun x hx =>
    ⟨rfl, by rw [hother x fun heq => hnot (heq ▸ hx)]⟩
  have hnext : h.alloc.next ≤ h₁.alloc.next := by
    obtain ⟨k, hk, -⟩ := h.alloc.newLeaf_takes
    show h.alloc.next ≤ h.alloc.newLeaf.2.next
    omega
  have hpred := hf.predecessor hh hrep₁ hnext
  have hplace : h.place clock e = some (h₃.retire clock ⟨a, false⟩) := by
    unfold place
    have haddr : h.newLeaf.1 = nl := hnl
    simp only [hf.find, Option.bind_some, hroom, haddr]
    have hpred' : (h.newLeaf.2.setLeaf nl ⟨page, (h.leaves a).next⟩).findPredecessor
        (h.newLeaf.2.setLeaf nl ⟨page, (h.leaves a).next⟩).alloc.next (pathOf (c :: path)) = _ := hpred
    rw [hpred']
    rfl
  refine ⟨_, _, hplace, hr, ?_⟩
  refine Holds.retire (x := ⟨a, false⟩) ?_ clock
  obtain ⟨hroot₂, halloc₂, hpending₂, hfreed₂⟩ :=
    relink_same h₁ (((before (c :: path) []).map Page.addr).getLast?) nl
  have hrep₂ : Rep h₂ root := hrep₁.frame fun x _ => ⟨by rw [relink_nodes], relink_page _ _ _ _⟩
  have hnew : Rep h₂ (.leaf nl page) := by
    refine Rep.leaf nl page ?_
    rw [relink_page]
    simp only [h₁, setLeaf, if_true]
  have htree := hf.tree
  have howns := hh.owns.insert hr halloc₂ hpending₂ hfreed₂
  refine hh.insert hr ?_ ?_ halloc₂ hpending₂ hfreed₂ ?_
  · show h₂.root = (plugAll (c :: path) (.leaf nl page)).addr
    rw [hroot₂, addr_plugAll (List.cons_ne_nil c path) _ (.leaf a (h.leaves a).page), ← htree]
    exact hh.addr
  · rw [htree] at hrep₂
    refine hrep₂.swap hnew howns.root_nodup ?_ ?_ fun x => rfl
    · have hstore := (Rep.subtree path hrep₂).store
      simp only [h₃, setNode, if_true, hstore]
      simp [Store.setLeaf, storeOf, leafPtr, nodePtr]
    · intro x hx
      simp only [h₃, setNode, if_neg hx]
  · refine hf.relinked [] hh howns.root_nodup ?_ rfl ?_ ⟨rfl, ?_⟩
    · show ((plugAll (c :: path) (.leaf nl page)).chain []).map Page.addr = _
      rw [chain_plugAll hf.full, List.map_append, List.map_append]
      rfl
    · intro x hx
      rw [next, hother x fun heq => hnot (heq ▸ hx)]
      rfl
    · simp only [next, h₁, setLeaf, if_true]
      rfl

/-! ## A split -/

/-- The root that `SplitCoW` puts above a pair. -/
theorem newRoot_eq {h : Heap} {pair : Pair} {l rt : Node} {sep : Bytes} (hpair : pair.Of l rt)
    (hfit : sep.length ≤ keyBufSize) :
    h.newRoot pair sep = some { h.copyNode (storeOf [sep] [l, rt]) with root := h.alloc.next } := by
  have hpush : Store.empty.pushKey sep = some ⟨[sep], sep.length, [], []⟩ := by
    unfold Store.pushKey Store.insKey
    rw [if_pos (by simpa [Store.empty] using hfit)]
    simp [Store.empty]
  unfold newRoot
  rw [hpush, Option.map_some]
  cases pair with
  | leaves x y =>
    obtain ⟨hl, hl', hr, hr'⟩ := hpair
    simp [Store.pushChild, Store.pushLeaf, storeOf, copyNode, hl, hl', hr, hr']
    rfl
  | nodes x y =>
    obtain ⟨hl, hl', hr, hr'⟩ := hpair
    simp [Store.pushChild, Store.pushLeaf, storeOf, copyNode, hl, hl', hr, hr']
    rfl

/-- The heap from which the loop of `SplitCoW` starts: the tree is that of `h`, and the new leaves lead to the leaf
after the old one. -/
structure Prepared (h h' : Heap) (root : Node) (a l rt : ℕ) : Prop where
  rep : Rep h' root
  rootAddr : h'.root = h.root
  firstLeaf : h'.firstLeaf = h.firstLeaf
  pending : h'.pending = h.pending
  freed : h'.freed = h.freed
  le : h.alloc.next ≤ h'.alloc.next
  next : ∀ x ∈ root.addrs, h'.next x = h.next x
  pair : Segment h'.next (some l) [l, rt] (h.next a)

theorem Prepared.grows {h h₁ h₂ : Heap} {root : Node} {a l rt : ℕ} (hp : Prepared h h₁ root a l rt) (hg : Grows h₁ h₂)
    (hbelow : ∀ x ∈ root.addrs, x < h₁.alloc.next) : Prepared h h₂ root a l rt := by
  have hrep := hg.rep hp.rep hbelow
  have hle := hg.next
  have hsame := hg.same
  generalize h₂.nodes = nodes at *
  generalize h₂.alloc = al at *
  subst hsame
  exact ⟨hrep, hp.rootAddr, hp.firstLeaf, hp.pending, hp.freed, Nat.le_trans hp.le hle, hp.next, hp.pair⟩

/-- The heap of a split whose leaves have been linked into the chain. -/
structure Linked (h h' : Heap) (root root' : Node) (al : Alloc) : Prop where
  rep : Rep h' root
  rootAddr : h'.root = root.addr
  alloc : h'.alloc = al
  pending : h'.pending = h.pending
  freed : h'.freed = h.freed
  linked : Segment h'.next (some h'.firstLeaf) ((root'.chain []).map Page.addr) none

theorem Prepared.relink {h h₁ : Heap} {root root' : Node} {key : Bytes} {path : List Ctx} {a l rt : ℕ}
    (hp : Prepared h h₁ root a l rt) (hf : Found h root key path a) (hh : h.Holds root []) (hnodup : root'.addrs.Nodup)
    (hchain : (root'.chain []).map Page.addr =
      (before path []).map Page.addr ++ [l, rt] ++ (after path).map Page.addr) :
    Linked h (h₁.relink (h₁.findPredecessor h₁.alloc.next (pathOf path)) l) root root' h₁.alloc := by
  rw [hf.predecessor hh hp.rep hp.le]
  obtain ⟨hroot, halloc, hpending, hfreed⟩ := relink_same h₁ ((before path []).map Page.addr).getLast? l
  exact ⟨hp.rep.frame fun x _ => ⟨by rw [relink_nodes], relink_page _ _ _ _⟩, hroot.trans (hp.rootAddr.trans hh.addr),
    halloc, hpending.trans hp.pending, hfreed.trans hp.freed,
    hf.relinked [rt] hh hnodup hchain hp.firstLeaf hp.next hp.pair⟩

theorem publish_spec {h h₁ : Heap} {root : Node} {e : KeyValuePair} {path : List Ctx} {a l rt : ℕ}
    {left right : LeafPage} {sep : Bytes} {r : Insertion} {asc : Ascent} (hh : h.Holds root [])
    (hf : Found h root e.key path a) (hp : Prepared h h₁ root a l rt)
    (hr : Nodes.insertNode e h.alloc root = some (up path (.leaf a (h.leaves a).page) r))
    (hgrown : r.grown = .split (.leaf l left) sep (.leaf rt right)) (hretired : r.retired = [⟨a, false⟩])
    (ha : Ascended h₁ path (.leaf a (h.leaves a).page) r asc) (clock : ℕ) :
    ∃ h', publish clock a l (pathOf path) asc = some h' ∧
      h'.Holds (Nodes.newRoot (up path (.leaf a (h.leaves a).page) r)).1 [] := by
  have hbelow : ∀ x ∈ root.addrs, x < h₁.alloc.next := fun x hx => Nat.lt_of_lt_of_le (hh.owns.root_below x hx) hp.le
  have hchain : ((Nodes.newRoot (up path (.leaf a (h.leaves a).page) r)).1.chain []).map Page.addr =
      (before path []).map Page.addr ++ [l, rt] ++ (after path).map Page.addr := by
    rw [newRoot_chain, chain_up hf.full, hgrown]
    simp [Grown.chain, Node.chain]
  have hnodup : (Nodes.newRoot (up path (.leaf a (h.leaves a).page) r)).1.addrs.Nodup :=
    Owns.root_nodup (h := { h with alloc := (Nodes.newRoot (up path (.leaf a (h.leaves a).page) r)).2.1 })
      (hh.owns.insert hr rfl rfl rfl)
  cases ha with
  | placed h₂ path' o m r' hg hm hplug hup hone halloc hret ho hm' ho' hm'' hsub =>
    have hlink := (hp.grows hg hbelow).relink hf hh hnodup hchain
    rw [hup, up_one hone] at hr hnodup hlink ⊢
    have hretired' : r'.retired = [⟨o.addr, true⟩, ⟨a, false⟩] := by rw [hret, hretired]
    have hm₃ : Rep (h₂.relink (h₂.findPredecessor h₂.alloc.next (pathOf path)) l) m :=
      hm.frame fun x _ => ⟨by rw [relink_nodes], relink_page _ _ _ _⟩
    rw [publish]
    generalize h₂.relink (h₂.findPredecessor h₂.alloc.next (pathOf path)) l = h₃ at *
    refine ⟨_, rfl, Holds.retire (x := ⟨a, false⟩) ?_ clock⟩
    have hdone : ∀ h' : Heap, h'.root = (plugAll path' m).addr → Rep h' (plugAll path' m) → h'.alloc = h₃.alloc →
        h'.pending = h₃.pending → h'.freed = h₃.freed → h'.next = h₃.next → h'.firstLeaf = h₃.firstLeaf →
        h'.Holds (plugAll path' m) [⟨o.addr, true⟩, ⟨a, false⟩] := by
      intro h' hroot hrep halloc' hpending hfreed hnext hfirst
      rw [← hretired']
      refine hh.insert hr hroot hrep ?_ ?_ ?_ ?_
      · rw [halloc', hlink.alloc, ← halloc]
        rfl
      · rw [hpending, hlink.pending]
      · rw [hfreed, hlink.freed]
      · rw [hnext, hfirst]
        exact hlink.linked
    have hrep₃ := hlink.rep
    rw [hf.tree, hplug] at hrep₃
    cases path' with
    | nil =>
      have hold : h₃.root = o.addr := by
        rw [hlink.rootAddr, hf.tree, hplug]
        rfl
      show Holds ({ h₃ with root := m.addr }.retire clock ⟨h₃.root, true⟩) m _
      rw [hold]
      exact (hdone { h₃ with root := m.addr } rfl (hm₃.frame fun _ _ => ⟨rfl, rfl⟩) rfl rfl rfl rfl rfl).retire clock
    | cons c path' =>
      have hstore := (Rep.subtree path' hrep₃).store
      obtain ⟨hchild, -⟩ := storeOf_child c.keys c.left c.right o
      have hreplace : h₃.replaceRoot clock m.addr (pathOf (c :: path')) =
          (h₃.setNode c.addr ((h₃.nodes c.addr).setChild c.left.length (some m.addr))).retire clock ⟨o.addr, true⟩ := by
        simp only [pathOf, List.map_cons, replaceRoot, hstore, hchild, ho, Option.join_some]
      rw [hreplace]
      refine (hdone (h₃.setNode c.addr ((h₃.nodes c.addr).setChild c.left.length (some m.addr))) ?_ ?_ rfl rfl rfl rfl
        rfl).retire clock
      · show h₃.root = _
        rw [hlink.rootAddr, hf.tree, hplug]
        exact addr_plugAll (List.cons_ne_nil c path') o m
      · refine hrep₃.swap hm₃ hnodup ?_ ?_ fun x => rfl
        · simp only [setNode, if_true, hstore]
          simp [Store.setChild, storeOf, hm', ho', hm'']
        · intro x hx
          simp only [setNode, if_neg hx]
  | top h₂ pair l' rt' sep' hg hl hrt hnew hsplit halloc hret hpair hsep =>
    have hlink := (hp.grows hg hbelow).relink hf hh hnodup hchain
    have hroot : Nodes.newRoot (up path (.leaf a (h.leaves a).page) r) =
        (.internal h₂.alloc.next [sep'] [l', rt'], h₂.alloc.newInternal.2,
          (up path (.leaf a (h.leaves a).page) r).taken ++ [h₂.alloc.next]) := by
      unfold Nodes.newRoot
      rw [hsplit, halloc]
      rfl
    have hsides : ∀ n ∈ [l', rt'], Rep (h₂.relink (h₂.findPredecessor h₂.alloc.next (pathOf path)) l) n ∧
        ∀ x ∈ n.addrs, x < h₂.alloc.next := by
      intro n hn
      simp only [List.mem_cons, List.not_mem_nil, or_false] at hn
      rcases hn with rfl | rfl
      · exact ⟨hl.frame fun x _ => ⟨by rw [relink_nodes], relink_page _ _ _ _⟩,
          fun x hx => hnew x (List.mem_append_left _ hx)⟩
      · exact ⟨hrt.frame fun x _ => ⟨by rw [relink_nodes], relink_page _ _ _ _⟩,
          fun x hx => hnew x (List.mem_append_right _ hx)⟩
    rw [publish]
    generalize h₂.relink (h₂.findPredecessor h₂.alloc.next (pathOf path)) l = h₃ at *
    have hal := hlink.alloc
    refine ⟨_, by rw [newRoot_eq hpair hsep]; rfl, Holds.retire (x := ⟨a, false⟩) ?_ clock⟩
    rw [← hretired, ← hret]
    refine hh.insert hr ?_ ?_ ?_ hlink.pending hlink.freed hlink.linked
    · rw [hroot]
      exact congrArg Alloc.next hal
    · rw [hroot]
      refine Rep.internal _ _ _ ?_ ?_
      · rw [← hal]
        exact newInternal_nodes h₃ _
      · intro n hn
        refine ((grows_newInternal h₃ (storeOf [sep'] [l', rt'])).rep (hsides n hn).1 ?_).frame fun _ _ => ⟨rfl, rfl⟩
        rw [hal]
        exact (hsides n hn).2
    · rw [hroot]
      show h₃.alloc.newInternal.2 = _
      rw [hal]

theorem setLeaf_leaves (h : Heap) (b x : ℕ) (v : Leaf) : (h.setLeaf b v).leaves x = if x = b then v else h.leaves x := rfl

theorem newLeaf_leaves (h : Heap) (x : ℕ) (hx : x ≠ h.newLeaf.1) : h.newLeaf.2.leaves x = h.leaves x := if_neg hx

/-- What a new leaf and a write to a leaf do not touch. -/
def outside (h : Heap) : (ℕ → Store) × ℕ × ℕ × List Retire.PendingRetire × List ℕ :=
  (h.nodes, h.root, h.firstLeaf, h.pending, h.freed)

theorem setLeaf_outside (h : Heap) (a : ℕ) (v : Leaf) : (h.setLeaf a v).outside = h.outside := rfl

theorem newLeaf_outside (h : Heap) : h.newLeaf.2.outside = h.outside := rfl

theorem prepareLeaves_outside (h : Heap) (a : ℕ) (halves : LeafPage × LeafPage) :
    (h.prepareLeaves a halves).1.outside = h.outside := by
  rw [prepareLeaves, setLeaf_outside, setLeaf_outside, newLeaf_outside, newLeaf_outside]

/-- The copy of the leaf that `Insert` makes before it finds that it has no room. -/
def copyLeaf (h : Heap) (a : ℕ) : Heap := h.newLeaf.2.setLeaf h.newLeaf.1 ⟨(h.leaves a).page, (h.leaves a).next⟩

theorem prepareLeaves_copyLeaf_outside (h : Heap) (a : ℕ) (halves : LeafPage × LeafPage) :
    ((h.copyLeaf a).prepareLeaves a halves).1.outside = h.outside := by
  rw [prepareLeaves_outside, copyLeaf, setLeaf_outside, newLeaf_outside]

theorem prepare_spec {h : Heap} {root : Node} {a nl l rt : ℕ} {al : Alloc} (hh : h.Holds root []) (ha : a ∈ root.addrs)
    (htakes : h.alloc.Takes [nl, l, rt] al) (hnl : h.newLeaf.1 = nl) (hl : (h.copyLeaf a).newLeaf.1 = l)
    (hrt : (h.copyLeaf a).newLeaf.2.newLeaf.1 = rt) (hal : (h.copyLeaf a).newLeaf.2.newLeaf.2.alloc = al)
    (halves : LeafPage × LeafPage) :
    (h.copyLeaf a).prepareLeaves a halves = (((h.copyLeaf a).prepareLeaves a halves).1, l, rt) ∧
      Prepared h ((h.copyLeaf a).prepareLeaves a halves).1 root a l rt ∧
      Rep ((h.copyLeaf a).prepareLeaves a halves).1 (.leaf l halves.1) ∧
      Rep ((h.copyLeaf a).prepareLeaves a halves).1 (.leaf rt halves.2) := by
  obtain ⟨hnodup, hfresh⟩ := hh.owns.taken htakes
  obtain ⟨k, hk, -⟩ := htakes
  have hlrt : l ≠ rt := by
    intro heq
    simp [heq] at hnodup
  have hnot : ∀ x ∈ root.addrs, x ≠ nl ∧ x ≠ l ∧ x ≠ rt := by
    intro x hx
    refine ⟨?_, ?_, ?_⟩ <;> (rintro rfl; exact absurd hx (hfresh x (by simp)).1)
  have hold : ∀ x ∈ root.addrs, (h.copyLeaf a).leaves x = h.leaves x := by
    intro x hx
    rw [copyLeaf, hnl, setLeaf_leaves, if_neg (hnot x hx).1, newLeaf_leaves h x (hnl ▸ (hnot x hx).1)]
  have hsame : ∀ x ∈ root.addrs, ((h.copyLeaf a).prepareLeaves a halves).1.leaves x = h.leaves x := by
    intro x hx
    obtain ⟨-, hxl, hxrt⟩ := hnot x hx
    simp only [prepareLeaves, setLeaf_leaves, hl, hrt, if_neg hxl, if_neg hxrt]
    rw [newLeaf_leaves _ x (hrt ▸ hxrt), newLeaf_leaves _ x (hl ▸ hxl), hold x hx]
  have hleft : ((h.copyLeaf a).prepareLeaves a halves).1.leaves l = ⟨halves.1, some rt⟩ := by
    simp only [prepareLeaves, setLeaf_leaves, hl, hrt, if_neg hlrt, if_true]
  have hright : ((h.copyLeaf a).prepareLeaves a halves).1.leaves rt = ⟨halves.2, h.next a⟩ := by
    simp only [prepareLeaves, setLeaf_leaves, hl, hrt, if_true, hold a ha]
    rfl
  have houtside := prepareLeaves_copyLeaf_outside h a halves
  simp only [outside, Prod.mk.injEq] at houtside
  obtain ⟨hnodes, hroot, hfirst, hpending, hfreed⟩ := houtside
  refine ⟨?_, ⟨?_, hroot, hfirst, hpending, hfreed, ?_, ?_, ⟨rfl, ?_⟩⟩, ?_, ?_⟩
  · simp only [prepareLeaves, hl, hrt]
  · exact hh.rep.frame fun x hx => ⟨congrFun hnodes x, by rw [hsame x hx]⟩
  · show h.alloc.next ≤ (h.copyLeaf a).newLeaf.2.newLeaf.2.alloc.next
    rw [hal]
    omega
  · intro x hx
    rw [next, hsame x hx]
    rfl
  · rw [next, hleft]
    exact ⟨rfl, by rw [next, hright]; rfl⟩
  · exact Rep.leaf l _ (by rw [hleft])
  · exact Rep.leaf rt _ (by rw [hright])

theorem place_split {h : Heap} {root : Node} {e : KeyValuePair} {path : List Ctx} {a : ℕ}
    (hh : h.Holds root []) (hf : Found h root e.key path a)
    (hroom : (h.leaves a).page.insertEntry ((h.leaves a).page.find e.key) e = none)
    (hfit : h.SepsFit (pathOf path) ((h.leaves a).page.splitLeaf ((h.leaves a).page.find e.key) e).2.firstKey)
    (clock : ℕ) :
    ∃ h' r, h.place clock e = some h' ∧ Nodes.insertNode e h.alloc root = some r ∧
      h'.Holds (Nodes.newRoot r).1 [] := by
  have hr := hf.insertNode
  have htakes := insertLeaf_takes e h.alloc a (h.leaves a).page
  have ha : a ∈ root.addrs := by
    rw [hf.tree]
    exact mem_plugAll_addrs path (by simp [Node.addrs])
  generalize hhalves : (h.leaves a).page.splitLeaf ((h.leaves a).page.find e.key) e = halves at hfit
  generalize hnl : h.newLeaf.1 = nl
  generalize hl : (h.copyLeaf a).newLeaf.1 = l
  generalize hrt : (h.copyLeaf a).newLeaf.2.newLeaf.1 = rt
  generalize hal : (h.copyLeaf a).newLeaf.2.newLeaf.2.alloc = al
  have hleaf : insertLeaf e h.alloc a (h.leaves a).page =
      ⟨.split (.leaf l halves.1) halves.2.firstKey (.leaf rt halves.2), al, [nl, l, rt], [⟨a, false⟩]⟩ := by
    unfold insertLeaf
    rw [hroom]
    subst hnl hl hrt hal hhalves
    rfl
  rw [hleaf] at hr htakes
  obtain ⟨hnew, hp, hleft, hright⟩ := prepare_spec hh ha htakes hnl hl hrt hal halves
  have hbelow := (hh.owns.taken htakes).2
  generalize hh₁ : ((h.copyLeaf a).prepareLeaves a halves).1 = h₁ at *
  have halloc : h₁.alloc = al := by
    rw [← hh₁]
    exact hal
  have hnodes : h₁.nodes = h.nodes := by
    rw [← hh₁]
    exact congrArg Prod.fst (prepareLeaves_copyLeaf_outside h a halves)
  have htree := hp.rep
  rw [hf.tree] at htree
  have hnewBelow : ∀ x ∈ (Node.leaf l halves.1).addrs ++ (Node.leaf rt halves.2).addrs, x < h₁.alloc.next := by
    intro x hx
    rw [halloc]
    refine (hbelow x ?_).2
    simp only [Node.addrs, List.mem_append, List.mem_singleton] at hx
    simp only [List.mem_cons, List.not_mem_nil, or_false]
    exact Or.inr hx
  obtain ⟨asc, hasc, hended⟩ := ascend_spec (.leaf l halves.1) (.leaf rt halves.2) (.leaves l rt) halves.2.firstKey
    ⟨.split (.leaf l halves.1) halves.2.firstKey (.leaf rt halves.2), al, [nl, l, rt], [⟨a, false⟩]⟩ htree
    (fun x hx => Nat.lt_of_lt_of_le (hh.owns.root_below x (hf.tree ▸ hx)) hp.le) hf.full hleft hright hnewBelow
    ⟨rfl, rfl, rfl, rfl⟩ rfl halloc.symm (hfit.congr fun p _ => by rw [hnodes])
  obtain ⟨h', hpub, hholds⟩ := publish_spec hh hf hp hr rfl rfl hended clock
  refine ⟨h', _, ?_, hr, hholds⟩
  have hpage : ((h.copyLeaf a).leaves a) = h.leaves a := by
    have hne : a ≠ nl := by
      rintro rfl
      exact (hbelow a (by simp)).1 ha
    rw [copyLeaf, hnl, setLeaf_leaves, if_neg hne, newLeaf_leaves h a (hnl ▸ hne)]
  have hsplit : h.place clock e = (h.copyLeaf a).splitCoW clock a (pathOf path) e ((h.leaves a).page.find e.key) := by
    unfold place
    simp only [hf.find, Option.bind_some, hroom]
    rfl
  rw [hsplit, splitCoW, hpage]
  simp only [hhalves]
  rw [hnew]
  simp only [hasc, Option.bind_some, hpub]

theorem insert_spec {h : Heap} {root : Node} {e : KeyValuePair} (hh : h.Holds root []) (hfit : h.Fits e) (clock : ℕ) :
    ∃ h' r, h.insert clock e = some h' ∧ Nodes.insertNode e h.alloc root = some r ∧
      h'.Holds (Nodes.newRoot r).1 [] := by
  obtain ⟨path, a, hf⟩ := hh.found e.key
  have hplaced : ∃ h' r, h.place clock e = some h' ∧ Nodes.insertNode e h.alloc root = some r ∧
      h'.Holds (Nodes.newRoot r).1 [] := by
    cases hroom : (h.leaves a).page.insertEntry ((h.leaves a).page.find e.key) e with
    | some page => exact place_copy hh hf hroom clock
    | none => exact place_split hh hf hroom ((hfit (a, _) hf.find).resolve_left (by simp [hroom])) clock
  obtain ⟨h', r, hplace, hr, hholds⟩ := hplaced
  refine ⟨if h'.fenced then h' else h'.drainRetired (2 ^ 64 - 1), r, ?_, hr, ?_⟩
  · rw [insert, hplace, Option.map_some]
  · split
    · exact hholds
    · exact hholds.drain _

/-- The leaves after `Insert`: those of the path's leaf are replaced. -/
theorem insert_chain {h : Heap} {root : Node} {e : KeyValuePair} (hh : h.Holds root []) (hfit : h.Fits e) (clock : ℕ) :
    ∃ h' root' path a, h.insert clock e = some h' ∧ h'.Holds root' [] ∧ Found h root e.key path a ∧
      root'.chain [] = before path [] ++ (insertLeaf e h.alloc a (h.leaves a).page).grown.chain (sepOf path []) ++
        after path := by
  obtain ⟨path, a, hf⟩ := hh.found e.key
  obtain ⟨h', r, hins, hr, hholds⟩ := insert_spec hh hfit clock
  have heq := hf.insertNode
  rw [hr] at heq
  cases heq
  refine ⟨h', _, path, a, hins, hholds, hf, ?_⟩
  rw [newRoot_chain, chain_up hf.full]

end Kvdb.Heap
