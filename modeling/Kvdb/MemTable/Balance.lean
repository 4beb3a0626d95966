import Kvdb.MemTable.Inserts

/-! # The shape of the tree after insertions

What a reader of the memory sees of the tree: the levels of internal nodes (`Level`), the leaves below them
(`leavesBelow`) and the chain of the leaves. With keys of at most 64 bytes the sixteen separators of a copy fit the
1024 bytes of a node, and every sequence of insertions keeps the shape; with longer keys there are sequences that write
past the end of the buffer. -/
namespace Kvdb.Heap
set_option autoImplicit false

open Nodes

/-- The counts of an internal node. -/
structure Store.Counted (s : Store) : Prop where
  keys : s.keys.length ≤ 15
  children : s.children.length = s.keys.length + 1
  childLeaves : s.childLeaves.length = s.keys.length + 1

/-- The node is `d` levels above the lowest internal level: only the nodes of that level point to leaves, and those
above only to nodes. -/
def Level (h : Heap) : ℕ → ℕ → Prop
  | 0, a => (h.nodes a).Counted ∧ (∀ c ∈ (h.nodes a).children, c = none) ∧
      ∀ l ∈ (h.nodes a).childLeaves, l.isSome = true
  | d + 1, a => (h.nodes a).Counted ∧ (∀ l ∈ (h.nodes a).childLeaves, l = none) ∧
      ∀ c ∈ (h.nodes a).children, ∃ b, c = some b ∧ Level h d b

/-- The leaves below such a node, from left to right. -/
def leavesBelow (h : Heap) : ℕ → ℕ → List ℕ
  | 0, a => (h.nodes a).childLeaves.filterMap id
  | d + 1, a => ((h.nodes a).children.filterMap id).flatMap (leavesBelow h d)

theorem storeOf_counted {keys : List Bytes} {children : List Node} (hlen : children.length = keys.length + 1)
    (hroom : keys.length < internalFanout) : (storeOf keys children).Counted where
  keys := Nat.le_of_lt_succ hroom
  children := by simpa [storeOf] using hlen
  childLeaves := by simpa [storeOf] using hlen

theorem filterMap_some (a : ℕ) (ptrs : List (Option ℕ)) : (some a :: ptrs).filterMap id = a :: ptrs.filterMap id := rfl

theorem chainAll_leaves {seps : List Bytes} {ns : List Node} (hlen : seps.length = ns.length)
    (hns : ∀ n ∈ ns, Uniform 0 n) : (ns.map leafPtr).filterMap id = (chainAll seps ns).map Page.addr := by
  induction ns generalizing seps with
  | nil => simp [chainAll]
  | cons n ns ih =>
    cases seps with
    | nil => cases hlen
    | cons sep seps =>
      obtain ⟨a, page, rfl⟩ := (hns n List.mem_cons_self).cases_zero
      have hrest := ih (Nat.succ.inj hlen) fun m hm => hns m (List.mem_cons_of_mem _ hm)
      rw [List.map_cons, leafPtr, filterMap_some, hrest, chainAll, Node.chain, List.map_append]
      rfl

theorem chainAll_nodes {h : Heap} {d : ℕ} {seps : List Bytes} {ns : List Node} (hlen : seps.length = ns.length)
    (hns : ∀ n ∈ ns, Uniform (d + 1) n)
    (hbelow : ∀ n ∈ ns, ∀ lo, h.leavesBelow d n.addr = (n.chain lo).map Page.addr) :
    ((ns.map nodePtr).filterMap id).flatMap (h.leavesBelow d) = (chainAll seps ns).map Page.addr := by
  induction ns generalizing seps with
  | nil => simp [chainAll]
  | cons n ns ih =>
    cases seps with
    | nil => cases hlen
    | cons sep seps =>
      have hn := hbelow n List.mem_cons_self sep
      obtain ⟨a, keys, children, rfl, -⟩ := (hns n List.mem_cons_self).cases_succ
      have hrest := ih (Nat.succ.inj hlen) (fun m hm => hns m (List.mem_cons_of_mem _ hm))
        fun m hm => hbelow m (List.mem_cons_of_mem _ hm)
      simp only [Node.addr] at hn
      rw [List.map_cons, nodePtr, filterMap_some, List.flatMap_cons, hrest, hn, chainAll, List.map_append]

/-- What is seen in memory of a tree of uniform depth. -/
theorem level_of_rep {h : Heap} {d : ℕ} {n : Node} (hshape : Uniform (d + 1) n) (hrep : Rep h n) (lo : Bytes) :
    h.Level d n.addr ∧ h.leavesBelow d n.addr = (n.chain lo).map Page.addr := by
  induction d generalizing n lo with
  | zero =>
    obtain ⟨a, keys, children, rfl, hlen, hroom, hchildren⟩ := hshape.cases_succ
    cases hrep with
    | internal _ _ _ hstore _ =>
      have hcounted := storeOf_counted hlen hroom
      simp only [Level, leavesBelow, Node.addr, hstore, Node.chain]
      refine ⟨⟨hcounted, ?_, ?_⟩, chainAll_leaves (by simp [hlen]) hchildren⟩
      · intro c hc
        obtain ⟨m, hm, rfl⟩ := List.mem_map.mp hc
        obtain ⟨b, page, rfl⟩ := (hchildren m hm).cases_zero
        rfl
      · intro l hl
        obtain ⟨m, hm, rfl⟩ := List.mem_map.mp hl
        obtain ⟨b, page, rfl⟩ := (hchildren m hm).cases_zero
        rfl
  | succ d ih =>
    obtain ⟨a, keys, children, rfl, hlen, hroom, hchildren⟩ := hshape.cases_succ
    cases hrep with
    | internal _ _ _ hstore hreps =>
      have hcounted := storeOf_counted hlen hroom
      simp only [Level, leavesBelow, Node.addr, hstore, Node.chain]
      refine ⟨⟨hcounted, ?_, ?_⟩, chainAll_nodes (by simp [hlen]) hchildren
        fun m hm lo' => (ih (hchildren m hm) (hreps m hm) lo').2⟩
      · intro l hl
        obtain ⟨m, hm, rfl⟩ := List.mem_map.mp hl
        obtain ⟨b, keys', children', rfl, -⟩ := (hchildren m hm).cases_succ
        rfl
      · intro c hc
        obtain ⟨m, hm, rfl⟩ := List.mem_map.mp hc
        have hm' := (ih (hchildren m hm) (hreps m hm) lo).1
        obtain ⟨b, keys', children', rfl, -⟩ := (hchildren m hm).cases_succ
        exact ⟨b, rfl, hm'⟩

/-! ## Keys of bounded length -/

/-- The keys in the leaves and the separators have at most `L` bytes. -/
def Bounded (L : ℕ) (pages : List Page) : Prop :=
  ∀ p ∈ pages, p.sep.length ≤ L ∧ ∀ x ∈ p.leaf.slots, x.key.length ≤ L

/-- Sixteen separators of 64 bytes fit the buffer of a node. -/
theorem sepsFit_of_bounded {h : Heap} {path : List Ctx} {n : Node} {sep : Bytes} (hrep : Rep h (plugAll path n))
    (hfull : ∀ c ∈ path, c.Full) (hkeys : ∀ c ∈ path, ∀ k ∈ c.keys, k.length ≤ 64) (hsep : sep.length ≤ 64) :
    h.SepsFit (pathOf path) sep := by
  induction path generalizing n sep with
  | nil => exact Nat.le_trans hsep (by decide)
  | cons c path ih =>
    have hstore := (Rep.subtree path hrep).store
    have hfullc := hfull c List.mem_cons_self
    have hkeysc := hkeys c List.mem_cons_self
    have hsum : (c.keys.map List.length).sum ≤ c.keys.length * 64 := by
      have hle := List.sum_le_card_nsmul (c.keys.map List.length) 64 (by simpa using hkeysc)
      simpa using hle
    have hroom := hfullc.room
    have hcount := hfullc.count
    show (h.nodes c.addr).keyDataEnd + _ ≤ _ ∧ ((h.nodes c.addr).keys.length + 1 < _ ∨ _)
    rw [hstore]
    refine ⟨?_, Or.inr ?_⟩
    · simp only [storeOf, keyBufSize, internalFanout] at hroom ⊢
      omega
    · refine ih hrep (fun x hx => hfull x (List.mem_cons_of_mem c hx)) (fun x hx => hkeys x (List.mem_cons_of_mem c hx)) ?_
      show ((c.keys.insertIdx c.left.length sep).getD ((c.keys.length + 1) / 2) []).length ≤ 64
      rw [List.getD_eq_getElem?_getD]
      cases hmid : (c.keys.insertIdx c.left.length sep)[(c.keys.length + 1) / 2]? with
      | none => exact Nat.zero_le _
      | some k =>
        rcases List.eq_or_mem_of_mem_insertIdx (List.mem_of_getElem? hmid) with rfl | hk
        · exact hsep
        · exact hkeysc k hk

/-- The separator of a split is a key of the leaf or of the new entry. -/
theorem splitLeaf_bounded {L : ℕ} {page : LeafPage} {e : KeyValuePair} (hpage : ∀ x ∈ page.slots, x.key.length ≤ L)
    (he : e.key.length ≤ L) {x : KeyValuePair} (hx : x ∈ (page.splitLeaf (page.find e.key) e).1.slots ++
      (page.splitLeaf (page.find e.key) e).2.slots) : x.key.length ≤ L := by
  rcases page.splitLeaf_subset _ e x (page.find_le e.key) hx with rfl | hx
  · exact he
  · exact hpage x hx

theorem firstKey_bounded {L : ℕ} {page : LeafPage} (hpage : ∀ x ∈ page.slots, x.key.length ≤ L) :
    page.firstKey.length ≤ L := by
  obtain ⟨slots⟩ := page
  cases slots with
  | nil => exact Nat.zero_le L
  | cons x slots => exact hpage x List.mem_cons_self

theorem insertLeaf_bounded {L : ℕ} {e : KeyValuePair} {al : Alloc} {a : ℕ} {page : LeafPage} {sep : Bytes}
    (hsep : sep.length ≤ L) (hpage : ∀ x ∈ page.slots, x.key.length ≤ L) (he : e.key.length ≤ L) :
    Bounded L ((insertLeaf e al a page).grown.chain sep) := by
  intro p hp
  rcases insertLeaf_chain e al a page sep with ⟨page', x, hroom, hchain⟩ | ⟨-, x, y, hchain⟩
  · rw [hchain, List.mem_singleton] at hp
    subst hp
    refine ⟨hsep, fun z hz => ?_⟩
    rw [(LeafPage.insertEntry_eq_some hroom).1] at hz
    rcases List.eq_or_mem_of_mem_insertIdx hz with rfl | hz
    · exact he
    · exact hpage z hz
  · have hhalves : ∀ z ∈ _ ++ _, _ := fun z hz => splitLeaf_bounded (x := z) hpage he hz
    rw [hchain] at hp
    simp only [List.mem_cons, List.not_mem_nil, or_false] at hp
    rcases hp with rfl | rfl
    · exact ⟨hsep, fun z hz => hhalves z (List.mem_append_left _ hz)⟩
    · exact ⟨firstKey_bounded fun z hz => hhalves z (List.mem_append_right _ hz),
        fun z hz => hhalves z (List.mem_append_right _ hz)⟩

/-! ## Sequences of insertions -/

/-- An insertion with a key of at most 64 bytes. -/
theorem insert_bounded {h : Heap} {root : Node} {e : KeyValuePair} (hh : h.Holds root [])
    (hbounded : Bounded 64 (root.chain [])) (he : e.key.length ≤ 64) (clock : ℕ) :
    ∃ h' root', h.insert clock e = some h' ∧ h'.Holds root' [] ∧ Bounded 64 (root'.chain []) := by
  have hfit : h.Fits e := by
    intro found hfind
    obtain ⟨path', a, hf⟩ := hh.found e.key
    rw [hf.find] at hfind
    cases hfind
    refine Or.inr (sepsFit_of_bounded (n := .leaf a (h.leaves a).page) ?_ hf.full ?_ ?_)
    · rw [← hf.tree]
      exact hh.rep
    · intro c hc k hk
      obtain ⟨d, hshape⟩ := hh.shape
      rw [hf.tree] at hshape hbounded
      obtain ⟨p, hp, rfl⟩ := List.mem_map.mp ((path_seps hshape hf.full hc []).subset hk)
      exact (hbounded p hp).1
    · have hleaf := hbounded ⟨sepOf path' [], a, (h.leaves a).page⟩ (by rw [hf.chain]; simp)
      exact firstKey_bounded fun z hz => splitLeaf_bounded hleaf.2 he (List.mem_append_right _ hz)
  obtain ⟨h', root', path, a, hins, hholds, hf, hchain⟩ := insert_chain hh hfit clock
  refine ⟨h', root', hins, hholds, ?_⟩
  rw [hf.chain] at hbounded
  have hleaf := hbounded ⟨sepOf path [], a, (h.leaves a).page⟩ (by simp)
  intro p hp
  rw [hchain, List.mem_append, List.mem_append] at hp
  rcases hp with (hp | hp) | hp
  · exact hbounded p (by simp [hp])
  · exact insertLeaf_bounded hleaf.1 hleaf.2 he p hp
  · exact hbounded p (by simp [hp])

theorem inserts_bounded {h : Heap} {root : Node} (hh : h.Holds root []) (hbounded : Bounded 64 (root.chain []))
    (es : List (ℕ × KeyValuePair)) (hes : ∀ p ∈ es, p.2.key.length ≤ 64) :
    ∃ h' root', h.inserts es = some h' ∧ h'.Holds root' [] := by
  induction es generalizing h root with
  | nil => exact ⟨h, root, rfl, hh⟩
  | cons p es ih =>
    obtain ⟨clock, e⟩ := p
    obtain ⟨h₁, root₁, hins, hholds, hbounded₁⟩ := insert_bounded hh hbounded (hes (clock, e) List.mem_cons_self) clock
    obtain ⟨h', root', hrest, hholds'⟩ := ih hholds hbounded₁ fun q hq => hes q (List.mem_cons_of_mem _ hq)
    exact ⟨h', root', by rw [inserts, hins, Option.bind_some, hrest], hholds'⟩

theorem new_bounded (L : ℕ) : Bounded L ((Node.internal 1 [] [.leaf 0 ⟨[]⟩]).chain []) := by
  simp [Bounded, Node.chain, chainAll]

/-- After any insertions with keys of at most 64 bytes all leaves are at one depth, the internal nodes have at most 15
separators and one child more, of one kind on each level, and the leaf chain visits the leaves from left to right. -/
theorem inserts_balanced (fenced : Bool) (es : List (ℕ × KeyValuePair)) (hes : ∀ p ∈ es, p.2.key.length ≤ 64) :
    ∃ h, (new fenced).inserts es = some h ∧ ∃ d, h.Level d h.root ∧
      Segment h.next (some h.firstLeaf) (h.leavesBelow d h.root) none := by
  obtain ⟨h, root, hins, hholds⟩ := inserts_bounded (new_holds fenced) (new_bounded 64) es hes
  obtain ⟨d, hshape⟩ := hholds.shape
  obtain ⟨hlevel, hleaves⟩ := level_of_rep hshape hholds.rep []
  refine ⟨h, hins, d, ?_, ?_⟩
  · rw [hholds.addr]
    exact hlevel
  · rw [hholds.addr, hleaves]
    exact hholds.linked

theorem twoInserts_balanced : (∀ p ∈ [(0, KeyValuePair.mk [1] [7] 1 false), (0, ⟨[1], [8], 2, false⟩)],
    p.2.key.length ≤ 64) ∧ ∃ h, (new false).inserts [(0, ⟨[1], [7], 1, false⟩), (0, ⟨[1], [8], 2, false⟩)] = some h ∧
      ∃ d, h.Level d h.root ∧ Segment h.next (some h.firstLeaf) (h.leavesBelow d h.root) none :=
  ⟨by decide, inserts_balanced false _ (by decide)⟩

/-! ## Longer keys -/

/-- Seventeen keys of 65 bytes in descending order, each with a value that fills a leaf. -/
def longKeyRun : List (ℕ × KeyValuePair) :=
  (List.range 17).map fun i => (0, ⟨List.replicate 64 0 ++ [UInt8.ofNat (17 - i)], List.replicate 2048 0, i, false⟩)

theorem longKeyRun_length : ∀ p ∈ longKeyRun, p.2.key.length = 65 := by
  intro p hp
  obtain ⟨i, -, rfl⟩ := List.mem_map.mp hp
  simp only [List.length_append, List.length_replicate, List.length_singleton]

/-- Every insertion splits the first leaf, and the sixteenth separator does not fit the root. -/
theorem longKeyRun_stops (fenced : Bool) : ((new fenced).inserts longKeyRun).isSome = false := by
  cases fenced with
  | false => decide +kernel
  | true => decide +kernel

/-- The separators fit the nodes in every sequence of insertions with keys of at most `L` bytes just when `L` is at
most 64. -/
theorem separators_fit_iff (fenced : Bool) (L : ℕ) :
    (∀ es : List (ℕ × KeyValuePair), (∀ p ∈ es, p.2.key.length ≤ L) → ((new fenced).inserts es).isSome = true) ↔
      L ≤ 64 := by
  constructor
  · intro h
    by_contra hlt
    have hsome := h longKeyRun fun p hp => by
      rw [longKeyRun_length p hp]
      omega
    rw [longKeyRun_stops] at hsome
    cases hsome
  · intro hle es hes
    obtain ⟨h, root, hins, -⟩ := inserts_bounded (new_holds fenced) (new_bounded 64) es
      fun p hp => Nat.le_trans (hes p hp) hle
    rw [hins]
    rfl

/-- After sixteen insertions the root has 975 bytes of separators, and the next one of 65 bytes is written past the
1024 bytes of the buffer. -/
theorem sixteenth_separator_overflows : (∀ p ∈ longKeyRun, p.2.key.length ≤ Config.maxKeyBytes) ∧
    ((new false).inserts (longKeyRun.take 16)).map (fun h => (h.nodes h.root).keyDataEnd) = some 975 ∧
      ((new false).inserts longKeyRun).isSome = false := by
  refine ⟨?_, by decide +kernel, longKeyRun_stops false⟩
  intro p hp
  rw [longKeyRun_length p hp]
  decide

end Kvdb.Heap
