import Kvdb.MemTable.Layout
import Mathlib.Algebra.Order.BigOperators.Group.List

/-! # The loop of `SplitCoW`

From the pair of pages of a split the loop builds copies of the nodes on the path, with the separator and the pair put
in, until a copy is not overfull. The old nodes are only read, and all that is written is new (`Grows`). `SepsFit` is
the test that the code does not make: that the separators of each copy fit the buffer of a node. -/
namespace Kvdb.Heap
set_option autoImplicit false

open Nodes

/-- The separators of the copies that `SplitCoW` makes along a path fit their buffers. -/
def SepsFit (h : Heap) : List (ℕ × ℕ) → Bytes → Prop
  | [], sep => sep.length ≤ keyBufSize
  | (cp, cidx) :: up, sep =>
    (h.nodes cp).keyDataEnd + sep.length ≤ keyBufSize ∧
      ((h.nodes cp).keys.length + 1 < internalFanout ∨
        SepsFit h up (((h.nodes cp).keys.insertIdx cidx sep).getD (((h.nodes cp).keys.length + 1) / 2) []))

instance decidableSepsFit (h : Heap) : (path : List (ℕ × ℕ)) → (sep : Bytes) → Decidable (h.SepsFit path sep)
  | [], sep => inferInstanceAs (Decidable (sep.length ≤ keyBufSize))
  | (cp, cidx) :: up, sep =>
    let _ := decidableSepsFit h up
      (((h.nodes cp).keys.insertIdx cidx sep).getD (((h.nodes cp).keys.length + 1) / 2) [])
    inferInstanceAs (Decidable (_ ∧ (_ ∨ _)))

theorem SepsFit.congr {h h' : Heap} {path : List (ℕ × ℕ)} {sep : Bytes} (hfit : h.SepsFit path sep)
    (hsame : ∀ p ∈ path, h'.nodes p.1 = h.nodes p.1) : h'.SepsFit path sep := by
  induction path generalizing sep with
  | nil => exact hfit
  | cons p path ih =>
    obtain ⟨cp, cidx⟩ := p
    have hcp : h'.nodes cp = h.nodes cp := hsame (cp, cidx) List.mem_cons_self
    obtain ⟨hroom, hup⟩ := hfit
    unfold SepsFit
    rw [hcp]
    refine ⟨hroom, hup.imp_right fun hnext => ih hnext fun q hq => hsame q (List.mem_cons_of_mem _ hq)⟩

/-! ## The stores of the new nodes -/

namespace Pair

/-- The pointers of two nodes. -/
def Of (l r : Node) : Pair → Prop
  | .leaves x y => nodePtr l = none ∧ leafPtr l = some x ∧ nodePtr r = none ∧ leafPtr r = some y
  | .nodes x y => nodePtr l = some x ∧ leafPtr l = none ∧ nodePtr r = some y ∧ leafPtr r = none

end Pair

theorem putPair_storeOf {pair : Pair} {l r : Node} (hpair : pair.Of l r) (keys : List Bytes) (left right : List Node)
    (n : Node) : (storeOf keys (left ++ n :: right)).putPair left.length pair =
      storeOf keys (left ++ l :: r :: right) := by
  have hset : ∀ (f : Node → Option ℕ) (x y : Option ℕ), f l = x → f r = y →
      (((left ++ n :: right).map f).set left.length x).insertIdx (left.length + 1) y =
        (left ++ l :: r :: right).map f := by
    intro f x y hx hy
    have hlist := set_insertIdx_pair (left.map f) (right.map f) (f n) x y
    simpa [hx, hy] using hlist
  cases pair with
  | leaves x y =>
    obtain ⟨hl, hl', hr, hr'⟩ := hpair
    simp only [Store.putPair, Store.setChild, Store.setLeaf, Store.insChild, Store.insLeaf, storeOf,
      hset nodePtr _ _ hl hr, hset leafPtr _ _ hl' hr']
  | nodes x y =>
    obtain ⟨hl, hl', hr, hr'⟩ := hpair
    simp only [Store.putPair, Store.setChild, Store.setLeaf, Store.insChild, Store.insLeaf, storeOf,
      hset nodePtr _ _ hl hr, hset leafPtr _ _ hl' hr']

theorem sum_insertIdx {keys : List Bytes} {idx : ℕ} (hidx : idx ≤ keys.length) (sep : Bytes) :
    ((keys.insertIdx idx sep).map List.length).sum = (keys.map List.length).sum + sep.length := by
  rw [((List.perm_insertIdx sep keys hidx).map List.length).sum_eq, List.map_cons, List.sum_cons, Nat.add_comm]

theorem insKey_storeOf {keys : List Bytes} {children : List Node} {idx : ℕ} {sep : Bytes} (hidx : idx ≤ keys.length)
    (hfit : (keys.map List.length).sum + sep.length ≤ keyBufSize) :
    (storeOf keys children).insKey idx sep = some (storeOf (keys.insertIdx idx sep) children) := by
  have hroom : (storeOf keys children).keyDataEnd + sep.length ≤ keyBufSize := hfit
  unfold Store.insKey
  rw [if_pos hroom]
  simp only [storeOf, sum_insertIdx hidx]

theorem pushKeys_eq {ks : List Bytes} {s : Store} (hfit : s.keyDataEnd + (ks.map List.length).sum ≤ keyBufSize) :
    Store.pushKeys ks s =
      some { s with keys := s.keys ++ ks, keyDataEnd := s.keyDataEnd + (ks.map List.length).sum } := by
  induction ks generalizing s with
  | nil => simp [Store.pushKeys]
  | cons k ks ih =>
    rw [List.map_cons, List.sum_cons] at hfit
    have hk : s.pushKey k = some { s with keys := s.keys ++ [k], keyDataEnd := s.keyDataEnd + k.length } := by
      unfold Store.pushKey Store.insKey
      rw [if_pos (by omega), insertIdx_eq_take_drop _ _ _ (Nat.le_refl _)]
      simp
    rw [Store.pushKeys, hk, Option.bind_some, ih (by simp only []; omega)]
    simp [Nat.add_assoc]

/-- The keys that the two halves of a node push into their empty stores. -/
theorem pushKeys_empty {ks : List Bytes} (hfit : (ks.map List.length).sum ≤ keyBufSize) :
    Store.pushKeys ks Store.empty = some ⟨ks, (ks.map List.length).sum, [], []⟩ := by
  rw [pushKeys_eq (by simpa [Store.empty] using hfit)]
  simp [Store.empty]

/-! ## New nodes -/

/-- `h'` is `h` with new internal nodes. -/
structure Grows (h h' : Heap) : Prop where
  same : h' = { h with nodes := h'.nodes, alloc := h'.alloc }
  nodes : ∀ x < h.alloc.next, h'.nodes x = h.nodes x
  next : h.alloc.next ≤ h'.alloc.next

theorem Grows.trans {h h' h'' : Heap} (hg : Grows h h') (hg' : Grows h' h'') : Grows h h'' where
  same := by
    have hsame' := hg'.same
    rw [hg.same] at hsame'
    exact hsame'
  nodes := fun x hx => (hg'.nodes x (Nat.lt_of_lt_of_le hx hg.next)).trans (hg.nodes x hx)
  next := Nat.le_trans hg.next hg'.next

theorem Grows.leaves {h h' : Heap} (hg : Grows h h') : h'.leaves = h.leaves := by rw [hg.same]

theorem Grows.rep {h h' : Heap} (hg : Grows h h') {n : Node} (hrep : Rep h n)
    (hbelow : ∀ x ∈ n.addrs, x < h.alloc.next) : Rep h' n :=
  hrep.frame fun a ha => ⟨hg.nodes a (hbelow a ha), by rw [hg.leaves]⟩

/-- A node that `NewInternal` returns, once it is filled. -/
theorem grows_newInternal (h : Heap) (s : Store) : Grows h (h.newInternal.2.setNode h.newInternal.1 s) where
  same := rfl
  nodes := by
    intro x hx
    have hne : x ≠ h.alloc.next := Nat.ne_of_lt hx
    simp [setNode, newInternal, Alloc.newInternal, hne]
  next := Nat.le_succ _

@[simp] theorem newInternal_nodes (h : Heap) (s : Store) :
    (h.newInternal.2.setNode h.newInternal.1 s).nodes h.alloc.next = s := by
  simp [setNode, newInternal, Alloc.newInternal]

/-- The two nodes that an overfull node is divided into. -/
def newHalves (h : Heap) (a b : Store) : Heap :=
  (h.newInternal.2.newInternal.2.setNode h.newInternal.1 a).setNode h.newInternal.2.newInternal.1 b

theorem grows_newHalves (h : Heap) (a b : Store) : Grows h (h.newHalves a b) where
  same := rfl
  nodes := by
    intro x hx
    have hne : x ≠ h.alloc.next := Nat.ne_of_lt hx
    have hne' : x ≠ h.alloc.next + 1 := by omega
    simp [newHalves, setNode, newInternal, Alloc.newInternal, hne, hne']
  next := Nat.le_add_right _ 2

@[simp] theorem newHalves_left (h : Heap) (a b : Store) : (h.newHalves a b).nodes h.alloc.next = a := by
  simp [newHalves, setNode, newInternal, Alloc.newInternal]

@[simp] theorem newHalves_right (h : Heap) (a b : Store) : (h.newHalves a b).nodes (h.alloc.next + 1) = b := by
  simp [newHalves, setNode, newInternal, Alloc.newInternal]

/-! ## The ascent -/

/-- How the loop ends: `n` stood below the path, and `r` is the split there. -/
inductive Ascended (h : Heap) (path : List Ctx) (n : Node) (r : Insertion) : Ascent → Prop
  | placed (h' : Heap) (path' : List Ctx) (o m : Node) (r' : Insertion) : Grows h h' → Rep h' m →
      plugAll path n = plugAll path' o → up path n r = up path' o r' → r'.grown = .one m → r'.alloc = h'.alloc →
      r'.retired = ⟨o.addr, true⟩ :: r.retired → nodePtr o = some o.addr → nodePtr m = some m.addr →
      leafPtr o = none → leafPtr m = none → (∀ c ∈ path', c ∈ path) →
      Ascended h path n r (.placed h' m.addr (pathOf path'))
  | top (h' : Heap) (pair : Pair) (l rt : Node) (sep : Bytes) : Grows h h' → Rep h' l → Rep h' rt →
      (∀ x ∈ l.addrs ++ rt.addrs, x < h'.alloc.next) → (up path n r).grown = .split l sep rt →
      (up path n r).alloc = h'.alloc → (up path n r).retired = r.retired → pair.Of l rt → sep.length ≤ keyBufSize →
      Ascended h path n r (.top h' pair sep)

theorem Ascended.cons {h h' : Heap} {path : List Ctx} {c : Ctx} {n : Node} {r r' : Insertion} {a : Ascent}
    (ha : Ascended h' path (c.plug n) r' a) (hg : Grows h h')
    (hup : replaceChild c.addr c.keys c.left.length (c.left ++ n :: c.right) r = r') (hretired : r'.retired = r.retired) :
    Ascended h (c :: path) n r a := by
  subst hup
  cases ha with
  | placed h'' path' o m r'' hg' hm hplug hup hone halloc hret ho hm' ho' hm'' hsub =>
    exact .placed h'' path' o m r'' (hg.trans hg') hm hplug hup hone halloc (by rw [hret, hretired]) ho hm' ho' hm''
      fun x hx => List.mem_cons_of_mem c (hsub x hx)
  | top h'' pair l rt sep hg' hl hrt hbelow hsplit halloc hret hpair hsep =>
    exact .top h'' pair l rt sep (hg.trans hg') hl hrt hbelow hsplit halloc (by rw [← hretired]; exact hret) hpair hsep

theorem mem_plug_addrs {c : Ctx} {n m : Node} (hm : m ∈ c.left ++ n :: c.right) {x : ℕ} (hx : x ∈ m.addrs) :
    x ∈ (c.plug n).addrs :=
  List.mem_cons_of_mem c.addr (mem_addrsAll.mpr ⟨m, hm, hx⟩)

theorem mem_pathOf_addrs {path : List Ctx} (n : Node) {p : ℕ × ℕ} (hp : p ∈ pathOf path) :
    p.1 ∈ (plugAll path n).addrs := by
  refine (addrs_plugAll path n).mem_iff.mpr (List.mem_append_right _ ?_)
  induction path with
  | nil => cases hp
  | cons c path ih =>
    rcases List.mem_cons.mp hp with rfl | hp
    · simp [pathAddrs]
    · simp [pathAddrs, ih hp]

theorem mem_plugAll_addrs (path : List Ctx) {n : Node} {x : ℕ} (hx : x ∈ n.addrs) : x ∈ (plugAll path n).addrs :=
  (addrs_plugAll path n).mem_iff.mpr (List.mem_append_left _ hx)

/-- The copy of a node in the loop. -/
def copyNode (h : Heap) (s : Store) : Heap := h.newInternal.2.setNode h.newInternal.1 s

/-- The loop over a node whose copy is overfull. -/
theorem ascend_overfull {h : Heap} {cp cidx : ℕ} {path : List (ℕ × ℕ)} {pair : Pair} {sep : Bytes} {keys : List Bytes}
    {children : List Node} (hs : ((h.nodes cp).putPair cidx pair).insKey cidx sep = some (storeOf keys children))
    (hover : ¬ keys.length < internalFanout) (hfit : (keys.map List.length).sum ≤ keyBufSize) :
    ascend ((cp, cidx) :: path) h pair sep =
      ascend path ((h.copyNode (storeOf keys children)).newHalves
          (storeOf (keys.take (keys.length / 2)) (children.take (keys.length / 2 + 1)))
          (storeOf (keys.drop (keys.length / 2 + 1)) (children.drop (keys.length / 2 + 1))))
        (.nodes (h.alloc.next + 1) (h.alloc.next + 2)) (keys.getD (keys.length / 2) []) := by
  have hsub : ∀ ks : List Bytes, ks.Sublist keys → (ks.map List.length).sum ≤ keyBufSize := by
    intro ks hks
    exact Nat.le_trans ((hks.map List.length).sum_le_sum fun x _ => Nat.zero_le x) hfit
  have hlen : ¬ (storeOf keys children).keys.length < internalFanout := hover
  rw [ascend]
  simp only [hs, Option.bind_some, if_neg hlen]
  have hkeys : (storeOf keys children).keys = keys := rfl
  rw [hkeys, pushKeys_empty (hsub _ (List.take_sublist _ _)), pushKeys_empty (hsub _ (List.drop_sublist _ _))]
  simp only [Option.bind_some, storeOf, List.map_take, List.map_drop]
  rfl

theorem ascend_spec {h : Heap} {path : List Ctx} {n : Node} (l rt : Node) (pair : Pair) (sep : Bytes) (r : Insertion)
    (hrep : Rep h (plugAll path n)) (hold : ∀ x ∈ (plugAll path n).addrs, x < h.alloc.next)
    (hfull : ∀ c ∈ path, c.Full) (hl : Rep h l) (hrt : Rep h rt) (hnew : ∀ x ∈ l.addrs ++ rt.addrs, x < h.alloc.next)
    (hpair : pair.Of l rt) (hgrown : r.grown = .split l sep rt) (halloc : r.alloc = h.alloc)
    (hfit : h.SepsFit (pathOf path) sep) :
    ∃ a, ascend (pathOf path) h pair sep = some a ∧ Ascended h path n r a := by
  induction path generalizing h n l rt pair sep r with
  | nil =>
    refine ⟨_, rfl, .top h pair l rt sep ⟨rfl, fun _ _ => rfl, Nat.le_refl _⟩ hl hrt hnew hgrown halloc rfl hpair hfit⟩
  | cons c path ih =>
    have hplug := Rep.subtree path hrep
    have hcount := (hfull c List.mem_cons_self).count
    have hstore := hplug.store
    obtain ⟨hroom, hup⟩ := hfit
    rw [hstore] at hroom hup
    have hkeys : (c.keys.insertIdx c.left.length sep).length = c.keys.length + 1 :=
      List.length_insertIdx_of_le_length (by omega) sep
    have hs : ((h.nodes c.addr).putPair c.left.length pair).insKey c.left.length sep =
        some (storeOf (c.keys.insertIdx c.left.length sep) (c.left ++ l :: rt :: c.right)) := by
      rw [hstore, putPair_storeOf hpair]
      exact insKey_storeOf (by omega) hroom
    have hchildren : ∀ m ∈ c.left ++ l :: rt :: c.right, Rep h m ∧ ∀ x ∈ m.addrs, x < h.alloc.next := by
      intro m hm
      have hside : m ∈ c.left ++ n :: c.right → Rep h m ∧ ∀ x ∈ m.addrs, x < h.alloc.next := fun hmem =>
        ⟨hplug.child hmem, fun x hx => hold x (mem_plugAll_addrs path (mem_plug_addrs hmem hx))⟩
      simp only [List.mem_append, List.mem_cons] at hm
      rcases hm with hm | rfl | rfl | hm
      · exact hside (by simp [hm])
      · exact ⟨hl, fun x hx => hnew x (List.mem_append_left _ hx)⟩
      · exact ⟨hrt, fun x hx => hnew x (List.mem_append_right _ hx)⟩
      · exact hside (by simp [hm])
    show ∃ a, ascend ((c.addr, c.left.length) :: pathOf path) h pair sep = some a ∧ _
    by_cases hover : c.keys.length + 1 < internalFanout
    · have hfits : (c.keys.insertIdx c.left.length sep).length < internalFanout := by
        rw [hkeys]
        exact hover
      have hreplace := replaceChild_fits (n := n) hgrown hfits
      have hlen : (storeOf (c.keys.insertIdx c.left.length sep) (c.left ++ l :: rt :: c.right)).keys.length <
          internalFanout := hfits
      have hg := grows_newInternal h (storeOf (c.keys.insertIdx c.left.length sep) (c.left ++ l :: rt :: c.right))
      unfold ascend
      simp only [hs, Option.bind_some, if_pos hlen]
      refine ⟨_, rfl, .placed _ path (c.plug n) (.internal h.alloc.next _ _) _ hg ?_ rfl rfl
        (by rw [hreplace, halloc]; rfl) (by rw [hreplace, halloc]; rfl) (by rw [hreplace]; rfl) rfl rfl rfl rfl
        fun x hx => List.mem_cons_of_mem c hx⟩
      refine Rep.internal _ _ _ (newInternal_nodes h _) ?_
      intro m hm
      exact hg.rep (hchildren m hm).1 (hchildren m hm).2
    · -- The copy is divided, and its halves are the pair for the rest of the path.
      have hsum : ((c.keys.insertIdx c.left.length sep).map List.length).sum ≤ keyBufSize := by
        rw [sum_insertIdx (by omega)]
        exact hroom
      have hmid : h.SepsFit (pathOf path) ((c.keys.insertIdx c.left.length sep).getD ((c.keys.length + 1) / 2) []) :=
        hup.resolve_left hover
      rw [← hkeys] at hover hmid
      rw [ascend_overfull hs hover hsum]
      obtain ⟨taken, hreplace⟩ := replaceChild_overfull (n := n) hgrown rfl hover
      rw [halloc] at hreplace
      generalize c.keys.insertIdx c.left.length sep = keys at *
      generalize c.left ++ l :: rt :: c.right = children at *
      have hg := (grows_newInternal h (storeOf keys children)).trans (grows_newHalves _
        (storeOf (keys.take (keys.length / 2)) (children.take (keys.length / 2 + 1)))
        (storeOf (keys.drop (keys.length / 2 + 1)) (children.drop (keys.length / 2 + 1))))
      have hpart : ∀ m ∈ children, Rep ((h.copyNode (storeOf keys children)).newHalves
          (storeOf (keys.take (keys.length / 2)) (children.take (keys.length / 2 + 1)))
          (storeOf (keys.drop (keys.length / 2 + 1)) (children.drop (keys.length / 2 + 1)))) m := fun m hm =>
        hg.rep (hchildren m hm).1 (hchildren m hm).2
      have hpartBelow : ∀ x ∈ (Node.internal (h.alloc.next + 1) (keys.take (keys.length / 2))
            (children.take (keys.length / 2 + 1))).addrs ++
          (Node.internal (h.alloc.next + 2) (keys.drop (keys.length / 2 + 1))
            (children.drop (keys.length / 2 + 1))).addrs, x < h.alloc.next + 3 := by
        intro x hx
        have hmem : x = h.alloc.next + 1 ∨ x = h.alloc.next + 2 ∨ x ∈ addrsAll children := by
          rw [← List.take_append_drop (keys.length / 2 + 1) children, addrsAll_append]
          simp only [Node.addrs, List.mem_append, List.mem_cons] at hx ⊢
          tauto
        rcases hmem with rfl | rfl | hmem
        · omega
        · omega
        · obtain ⟨m, hm, hx'⟩ := mem_addrsAll.mp hmem
          have hlt := (hchildren m hm).2 x hx'
          omega
      obtain ⟨a, ha, hended⟩ := ih _ _ (.nodes (h.alloc.next + 1) (h.alloc.next + 2)) _
        (replaceChild c.addr c.keys c.left.length (c.left ++ n :: c.right) r) (hg.rep hrep hold)
        (fun x hx => Nat.lt_of_lt_of_le (hold x hx) hg.next) (fun x hx => hfull x (List.mem_cons_of_mem c hx))
        (Rep.internal _ _ _ (newHalves_left _ _ _) fun m hm => hpart m (List.mem_of_mem_take hm))
        (Rep.internal _ _ _ (newHalves_right _ _ _) fun m hm => hpart m (List.mem_of_mem_drop hm))
        hpartBelow ⟨rfl, rfl, rfl, rfl⟩ (by rw [hreplace]; rfl) (by rw [hreplace]; rfl)
        (hmid.congr fun p hp => hg.nodes p.1 (hold p.1 (mem_pathOf_addrs (c.plug n) hp)))
      exact ⟨a, ha, hended.cons hg rfl (by rw [hreplace])⟩

end Kvdb.Heap
