import Kvdb.MemTable.Nodes
import Kvdb.MemTable.Keys
import Mathlib.Data.List.GetD

/-! # The path to a leaf

`FindLeafForWrite` records the internal nodes it goes through and the position it leaves each of them at. Such a node
without the child at that position is a `Ctx`; a path is a list of them, from the lowest node up, and `plugAll` puts a
node back below it. `Uniform` is the shape of the tree, and `Node.chain` its leaves from left to right, each with the
separator on its left: an insertion changes the chain at one place only (`chain_up`). -/
namespace Kvdb.Nodes
set_option autoImplicit false

/-- An internal node without one of its children. -/
structure Ctx where
  addr : ℕ
  keys : List Bytes
  left : List Node
  right : List Node

namespace Ctx

def plug (c : Ctx) (n : Node) : Node := .internal c.addr c.keys (c.left ++ n :: c.right)

/-- One child more than separators, and room for them. -/
structure Full (c : Ctx) : Prop where
  count : c.keys.length = c.left.length + c.right.length
  room : c.keys.length < internalFanout

end Ctx

def plugAll : List Ctx → Node → Node
  | [], n => n
  | c :: path, n => plugAll path (c.plug n)

/-- The key is led along the path. -/
def Follows (key : Bytes) (path : List Ctx) : Prop := ∀ c ∈ path, findChild c.keys key = c.left.length

theorem plugAll_append (path path' : List Ctx) (n : Node) :
    plugAll (path ++ path') n = plugAll path' (plugAll path n) := by
  induction path generalizing n with
  | nil => rfl
  | cons c path ih => exact ih (c.plug n)

/-! ## The shape of the tree -/

/-- All leaves are `d` levels below the node; a node has at most 15 separators and one child more. -/
def Uniform : ℕ → Node → Prop
  | 0, .leaf _ _ => True
  | d + 1, .internal _ keys children =>
    children.length = keys.length + 1 ∧ keys.length < internalFanout ∧ ∀ c ∈ children, Uniform d c
  | _, _ => False

theorem findChild_middle : Bisect.Middle fun lo hi => (lo + hi) / 2 := by
  intro lo hi hlt
  show lo ≤ (lo + hi) / 2 ∧ (lo + hi) / 2 < hi
  omega

theorem findChild_le (keys : List Bytes) (key : Bytes) : findChild keys key ≤ keys.length := by
  exact Bisect.bisect_le findChild_middle _ _ _ _ (Nat.zero_le _)

theorem Uniform.cases_succ {d : ℕ} {n : Node} (h : Uniform (d + 1) n) :
    ∃ addr keys children, n = .internal addr keys children ∧ children.length = keys.length + 1 ∧
      keys.length < internalFanout ∧ ∀ c ∈ children, Uniform d c := by
  cases n with
  | leaf addr page => cases h
  | internal addr keys children => exact ⟨addr, keys, children, rfl, h⟩

theorem Uniform.cases_zero {n : Node} (h : Uniform 0 n) : ∃ addr page, n = .leaf addr page := by
  cases n with
  | leaf addr page => exact ⟨addr, page, rfl⟩
  | internal addr keys children => cases h

/-- The child that a key is led to, with the context around it. -/
theorem exists_child (addr : ℕ) {keys : List Bytes} {children : List Node} (key : Bytes)
    (hlen : children.length = keys.length + 1) (hroom : keys.length < internalFanout) :
    ∃ c : Ctx, ∃ n, c.Full ∧ findChild keys key = c.left.length ∧ c.keys = keys ∧
      children = c.left ++ n :: c.right ∧ .internal addr keys children = c.plug n := by
  have hle := findChild_le keys key
  have hidx : findChild keys key < children.length := by omega
  have hsplit : children = children.take (findChild keys key) ++
      children[findChild keys key] :: children.drop (findChild keys key + 1) := by
    rw [List.cons_getElem_drop_succ, List.take_append_drop]
  have hleft : (children.take (findChild keys key)).length = findChild keys key := by
    rw [List.length_take]
    omega
  refine ⟨⟨addr, keys, children.take (findChild keys key), children.drop (findChild keys key + 1)⟩,
    children[findChild keys key], ⟨?_, hroom⟩, hleft.symm, rfl, hsplit, ?_⟩
  · simp only [List.length_take, List.length_drop]
    omega
  · exact congrArg (Node.internal addr keys) hsplit

/-- The path of a key in a tree of uniform depth. -/
theorem exists_path {d : ℕ} {n : Node} (key : Bytes) (h : Uniform d n) :
    ∃ path addr page, n = plugAll path (.leaf addr page) ∧ path.length = d ∧ Follows key path ∧
      ∀ c ∈ path, c.Full := by
  induction d generalizing n with
  | zero =>
    obtain ⟨addr, page, rfl⟩ := h.cases_zero
    exact ⟨[], addr, page, rfl, rfl, by simp [Follows], by simp⟩
  | succ d ih =>
    obtain ⟨addr, keys, children, rfl, hlen, hroom, hchildren⟩ := h.cases_succ
    obtain ⟨c, m, hfull, hidx, hkeys, hsplit, hplug⟩ := exists_child addr key hlen hroom
    obtain ⟨path, a, page, rfl, hdepth, hfollows, hfulls⟩ := ih (hchildren m (by simp [hsplit]))
    refine ⟨path ++ [c], a, page, ?_, by simp [hdepth], ?_, ?_⟩
    · rw [plugAll_append]
      exact hplug
    · intro x hx
      rcases List.mem_append.mp hx with hx | hx
      · exact hfollows x hx
      · rw [List.mem_singleton.mp hx, hkeys]
        exact hidx
    · intro x hx
      rcases List.mem_append.mp hx with hx | hx
      · exact hfulls x hx
      · rw [List.mem_singleton.mp hx]
        exact hfull

/-! ## Insertion along a path -/

/-- The nodes above an insertion, from the lowest one up; `n` is what stood below the path before. -/
def up : List Ctx → Node → Insertion → Insertion
  | [], _, r => r
  | c :: path, n, r => up path (c.plug n) (replaceChild c.addr c.keys c.left.length (c.left ++ n :: c.right) r)

theorem insertNode_plugAll {e : KeyValuePair} {al : Alloc} (path : List Ctx) {n : Node} {r : Insertion}
    (hfollows : Follows e.key path) (h : insertNode e al n = some r) :
    insertNode e al (plugAll path n) = some (up path n r) := by
  induction path generalizing n r with
  | nil => exact h
  | cons c path ih =>
    refine ih (fun x hx => hfollows x (List.mem_cons_of_mem c hx)) ?_
    have hidx := hfollows c List.mem_cons_self
    rw [Ctx.plug, insertNode, insertChild_eq, hidx, List.getElem?_append_right (Nat.le_refl _), Nat.sub_self]
    simp [h]

/-- Above a replaced pointer the nodes stay. -/
theorem up_one {path : List Ctx} {n m : Node} {r : Insertion} (h : r.grown = .one m) :
    up path n r = { r with grown := .one (plugAll path m) } := by
  induction path generalizing n m r with
  | nil =>
    obtain ⟨grown, alloc, taken, retired⟩ := r
    cases h
    rfl
  | cons c path ih =>
    have hstep : replaceChild c.addr c.keys c.left.length (c.left ++ n :: c.right) r =
        { r with grown := .one (c.plug m) } := by
      unfold replaceChild
      rw [h]
      simp [Ctx.plug]
    rw [up, hstep, ih rfl]
    rfl

/-- The children of a node with a pair in the place of a child. -/
theorem set_insertIdx_pair {α : Type} (left right : List α) (n l r : α) :
    ((left ++ n :: right).set left.length l).insertIdx (left.length + 1) r = left ++ l :: r :: right := by
  induction left with
  | nil => rfl
  | cons x left ih => simpa using ih

/-- The outcome of one level whose copy has room for the separator. -/
theorem replaceChild_fits {c : Ctx} {n l rt : Node} {sep : Bytes} {r : Insertion} (hgrown : r.grown = .split l sep rt)
    (hfits : (c.keys.insertIdx c.left.length sep).length < internalFanout) :
    replaceChild c.addr c.keys c.left.length (c.left ++ n :: c.right) r =
      ⟨.one (.internal r.alloc.newInternal.1 (c.keys.insertIdx c.left.length sep) (c.left ++ l :: rt :: c.right)),
        r.alloc.newInternal.2, r.taken ++ [r.alloc.newInternal.1], ⟨c.addr, true⟩ :: r.retired⟩ := by
  unfold replaceChild
  rw [hgrown]
  unfold splitCoW
  simp only [set_insertIdx_pair, if_pos hfits]

/-- The outcome of one level whose copy is overfull. -/
theorem replaceChild_overfull {c : Ctx} {n l rt : Node} {sep : Bytes} {r : Insertion}
    (hgrown : r.grown = .split l sep rt) {keys : List Bytes} (hkeys : c.keys.insertIdx c.left.length sep = keys)
    (hover : ¬ keys.length < internalFanout) :
    ∃ taken, replaceChild c.addr c.keys c.left.length (c.left ++ n :: c.right) r =
      ⟨.split (.internal (r.alloc.next + 1) (keys.take (keys.length / 2))
            ((c.left ++ l :: rt :: c.right).take (keys.length / 2 + 1)))
          (keys.getD (keys.length / 2) [])
          (.internal (r.alloc.next + 2) (keys.drop (keys.length / 2 + 1))
            ((c.left ++ l :: rt :: c.right).drop (keys.length / 2 + 1))),
        ⟨r.alloc.pool, r.alloc.next + 3⟩, taken, r.retired⟩ := by
  subst hkeys
  unfold replaceChild
  rw [hgrown]
  unfold splitCoW
  simp only [set_insertIdx_pair, if_neg hover]
  exact ⟨_, rfl⟩

def Grown.Uniform (d : ℕ) : Grown → Prop
  | .one node => Nodes.Uniform d node
  | .split left _ right => Nodes.Uniform d left ∧ Nodes.Uniform d right

theorem replaceChild_uniform {d : ℕ} {c : Ctx} {n : Node} {r : Insertion} (hfull : c.Full)
    (hleft : ∀ m ∈ c.left, Uniform d m) (hright : ∀ m ∈ c.right, Uniform d m) (h : r.grown.Uniform d) :
    (replaceChild c.addr c.keys c.left.length (c.left ++ n :: c.right) r).grown.Uniform (d + 1) := by
  have hcount := hfull.count
  have hroom := hfull.room
  unfold replaceChild
  split
  · next m hgrown =>
    rw [hgrown] at h
    refine ⟨?_, hroom, ?_⟩
    · simp only [List.length_set, List.length_append, List.length_cons]
      omega
    · intro x hx
      simp only [List.set_append_right _ _ (Nat.le_refl _), Nat.sub_self, List.set_cons_zero, List.mem_append,
        List.mem_cons] at hx
      rcases hx with hx | rfl | hx
      · exact hleft x hx
      · exact h
      · exact hright x hx
  · next l sep rt hgrown =>
    rw [hgrown] at h
    have hall : ∀ x ∈ c.left ++ l :: rt :: c.right, Uniform d x := by
      intro x hx
      simp only [List.mem_append, List.mem_cons] at hx
      rcases hx with hx | rfl | rfl | hx
      · exact hleft x hx
      · exact h.1
      · exact h.2
      · exact hright x hx
    have hkeys : (c.keys.insertIdx c.left.length sep).length = c.keys.length + 1 :=
      List.length_insertIdx_of_le_length (by omega) sep
    unfold splitCoW
    simp only [set_insertIdx_pair]
    split
    · next hfits =>
      refine ⟨?_, hfits, hall⟩
      simp only [hkeys, List.length_append, List.length_cons]
      omega
    · next hover =>
      refine ⟨⟨?_, ?_, fun x hx => hall x (List.mem_of_mem_take hx)⟩, ?_, ?_,
        fun x hx => hall x (List.mem_of_mem_drop hx)⟩
      · simp only [List.length_take, hkeys, List.length_append, List.length_cons]
        omega
      · simp only [List.length_take, hkeys]
        omega
      · simp only [List.length_drop, hkeys, List.length_append, List.length_cons]
        omega
      · simp only [List.length_drop, hkeys]
        omega

theorem insertNode_uniform {d : ℕ} {e : KeyValuePair} {al : Alloc} {n : Node} {r : Insertion} (h : Uniform d n)
    (hins : insertNode e al n = some r) : r.grown.Uniform d := by
  induction d generalizing n r with
  | zero =>
    obtain ⟨addr, page, rfl⟩ := h.cases_zero
    simp only [insertNode, Option.some.injEq] at hins
    subst hins
    unfold insertLeaf
    split
    · exact trivial
    · exact ⟨trivial, trivial⟩
  | succ d ih =>
    obtain ⟨addr, keys, children, rfl, hlen, hroom, hchildren⟩ := h.cases_succ
    obtain ⟨c, m, hfull, hidx, hkeys, hsplit, hplug⟩ := exists_child addr e.key hlen hroom
    rw [hplug] at hins
    have hm : Uniform d m := hchildren m (by simp [hsplit])
    obtain ⟨r', hr'⟩ : ∃ r', insertNode e al m = some r' := by
      obtain ⟨path, a, page, rfl, -, hfollows, -⟩ := exists_path e.key hm
      exact ⟨_, insertNode_plugAll path hfollows rfl⟩
    have hup := insertNode_plugAll [c] (by simpa [Follows, hkeys] using hidx) hr'
    rw [plugAll, plugAll, hins] at hup
    cases hup
    exact replaceChild_uniform hfull (fun x hx => hchildren x (by simp [hsplit, hx]))
      (fun x hx => hchildren x (by simp [hsplit, hx])) (ih hm hr')

/-- The root after an insertion; it is one level higher when the old one was split. -/
theorem newRoot_uniform {d : ℕ} {r : Insertion} (h : r.grown.Uniform d) : ∃ d', d ≤ d' ∧ Uniform d' (newRoot r).1 := by
  unfold newRoot
  split
  · next n hgrown =>
    rw [hgrown] at h
    exact ⟨d, Nat.le_refl d, h⟩
  · next l sep rt hgrown =>
    rw [hgrown] at h
    refine ⟨d + 1, Nat.le_succ d, rfl, by simp [internalFanout], ?_⟩
    intro x hx
    simp only [List.mem_cons, List.not_mem_nil, or_false] at hx
    rcases hx with rfl | rfl
    · exact h.1
    · exact h.2

/-! ## The leaves from left to right -/

/-- A leaf with the separator on its left. -/
structure Page where
  sep : Bytes
  addr : ℕ
  leaf : LeafPage

mutual

/-- The leaves below a node; `lo` is the separator on the left of the node. -/
def Node.chain (lo : Bytes) : Node → List Page
  | .leaf addr page => [⟨lo, addr, page⟩]
  | .internal _ keys children => chainAll (lo :: keys) children

def chainAll : List Bytes → List Node → List Page
  | sep :: seps, n :: ns => n.chain sep ++ chainAll seps ns
  | _, _ => []

end

def Grown.chain (lo : Bytes) : Grown → List Page
  | .one node => node.chain lo
  | .split left sep right => left.chain lo ++ right.chain sep

theorem chainAll_append {seps seps' : List Bytes} {ns ms : List Node} (h : seps.length = ns.length) :
    chainAll (seps ++ seps') (ns ++ ms) = chainAll seps ns ++ chainAll seps' ms := by
  induction seps generalizing ns with
  | nil =>
    rw [List.eq_nil_of_length_eq_zero h.symm]
    simp [chainAll]
  | cons sep seps ih =>
    cases ns with
    | nil => cases h
    | cons n ns => simp [chainAll, ih (Nat.succ.inj h)]

theorem mem_chainAll {seps : List Bytes} {ns : List Node} {p : Page} (hp : p ∈ chainAll seps ns) :
    ∃ n ∈ ns, ∃ sep, p ∈ n.chain sep := by
  induction ns generalizing seps with
  | nil => simp [chainAll] at hp
  | cons n ns ih =>
    cases seps with
    | nil => simp [chainAll] at hp
    | cons sep seps =>
      rw [chainAll, List.mem_append] at hp
      rcases hp with hp | hp
      · exact ⟨n, List.mem_cons_self, sep, hp⟩
      · obtain ⟨m, hm, sep', hmem⟩ := ih hp
        exact ⟨m, List.mem_cons_of_mem n hm, sep', hmem⟩

namespace Ctx

/-- The leaves on the left of the missing child, the separator there, and the leaves on its right. -/
def before (c : Ctx) (lo : Bytes) : List Page := chainAll ((lo :: c.keys).take c.left.length) c.left
def sep (c : Ctx) (lo : Bytes) : Bytes := (lo :: c.keys).getD c.left.length []
def after (c : Ctx) : List Page := chainAll (c.keys.drop c.left.length) c.right

theorem Full.seps {c : Ctx} (h : c.Full) (lo : Bytes) :
    lo :: c.keys = (lo :: c.keys).take c.left.length ++ c.sep lo :: c.keys.drop c.left.length := by
  have hcount := h.count
  have hlt : c.left.length < (lo :: c.keys).length := by
    rw [List.length_cons]
    omega
  have hdrop : (lo :: c.keys).drop c.left.length = c.sep lo :: c.keys.drop c.left.length := by
    rw [List.drop_eq_getElem_cons hlt, sep, List.getD_eq_getElem _ _ hlt]
    rfl
  rw [← hdrop, List.take_append_drop]

theorem Full.seps_insert {c : Ctx} (h : c.Full) (lo new : Bytes) :
    lo :: c.keys.insertIdx c.left.length new =
      (lo :: c.keys).take c.left.length ++ c.sep lo :: new :: c.keys.drop c.left.length := by
  have hcount := h.count
  have hseps := h.seps lo
  have hlen : ((lo :: c.keys).take c.left.length).length = c.left.length := by
    rw [List.length_take, List.length_cons]
    omega
  rw [← List.insertIdx_succ_cons, insertIdx_eq_take_drop _ _ _ (by simp only [List.length_cons]; omega)]
  conv_lhs => rw [hseps]
  rw [List.take_append, List.drop_append, hlen]
  simp [List.take_of_length_le, List.drop_of_length_le, hlen]

theorem Full.length_take {c : Ctx} (h : c.Full) (lo : Bytes) :
    ((lo :: c.keys).take c.left.length).length = c.left.length := by
  have hcount := h.count
  rw [List.length_take, List.length_cons]
  omega

theorem Full.chain_plug {c : Ctx} (h : c.Full) (lo : Bytes) (n : Node) :
    (c.plug n).chain lo = c.before lo ++ n.chain (c.sep lo) ++ c.after := by
  rw [plug, Node.chain, h.seps lo, chainAll_append (h.length_take lo), chainAll, before, after, List.append_assoc]

end Ctx

/-- The chain of the two nodes that an overfull node is divided into. -/
theorem chainAll_halves {lo : Bytes} {keys : List Bytes} {children : List Node} {mid : ℕ} (hmid : mid < keys.length)
    (hlen : children.length = keys.length + 1) :
    chainAll (lo :: keys.take mid) (children.take (mid + 1)) ++
        chainAll (keys.getD mid [] :: keys.drop (mid + 1)) (children.drop (mid + 1)) =
      chainAll (lo :: keys) children := by
  have hkeys : lo :: keys = (lo :: keys.take mid) ++ (keys.getD mid [] :: keys.drop (mid + 1)) := by
    rw [List.getD_eq_getElem _ _ hmid, List.cons_append, List.cons_getElem_drop_succ, List.take_append_drop]
  have hleft : (lo :: keys.take mid).length = (children.take (mid + 1)).length := by
    simp only [List.length_cons, List.length_take]
    omega
  rw [← chainAll_append hleft, ← hkeys, List.take_append_drop]

theorem replaceChild_chain {c : Ctx} {n : Node} {r : Insertion} (hfull : c.Full) (lo : Bytes) :
    (replaceChild c.addr c.keys c.left.length (c.left ++ n :: c.right) r).grown.chain lo =
      c.before lo ++ r.grown.chain (c.sep lo) ++ c.after := by
  have hcount := hfull.count
  unfold replaceChild
  split
  · next m hgrown =>
    have hset : (c.left ++ n :: c.right).set c.left.length m = c.left ++ m :: c.right := by simp
    rw [hgrown, hset]
    exact hfull.chain_plug lo m
  · next l sep rt hgrown =>
    have hwhole : chainAll (lo :: c.keys.insertIdx c.left.length sep) (c.left ++ l :: rt :: c.right) =
        c.before lo ++ (l.chain (c.sep lo) ++ rt.chain sep) ++ c.after := by
      rw [hfull.seps_insert lo sep, chainAll_append (hfull.length_take lo), chainAll, chainAll, Ctx.before, Ctx.after]
      simp only [List.append_assoc]
    have hkeys : (c.keys.insertIdx c.left.length sep).length = c.keys.length + 1 :=
      List.length_insertIdx_of_le_length (by omega) sep
    rw [hgrown]
    unfold splitCoW
    simp only [set_insertIdx_pair]
    split
    · exact hwhole
    · refine (chainAll_halves ?_ ?_).trans hwhole
      · omega
      · simp only [hkeys, List.length_append, List.length_cons]
        omega

/-- The leaves on the left of a path, the separator on the left of what stands below it, and the leaves on its
right. -/
def sepOf : List Ctx → Bytes → Bytes
  | [], lo => lo
  | c :: path, lo => c.sep (sepOf path lo)

def before : List Ctx → Bytes → List Page
  | [], _ => []
  | c :: path, lo => before path lo ++ c.before (sepOf path lo)

def after : List Ctx → List Page
  | [] => []
  | c :: path => c.after ++ after path

theorem chain_plugAll {path : List Ctx} (hfull : ∀ c ∈ path, c.Full) (lo : Bytes) (n : Node) :
    (plugAll path n).chain lo = before path lo ++ n.chain (sepOf path lo) ++ after path := by
  induction path generalizing n with
  | nil => simp [plugAll, before, sepOf, after]
  | cons c path ih =>
    rw [plugAll, ih (fun x hx => hfull x (List.mem_cons_of_mem c hx)), (hfull c List.mem_cons_self).chain_plug]
    simp only [before, sepOf, after, List.append_assoc]

/-- An insertion changes the chain at the leaf below the path. -/
theorem chain_up {path : List Ctx} (hfull : ∀ c ∈ path, c.Full) (lo : Bytes) (n : Node) (r : Insertion) :
    (up path n r).grown.chain lo = before path lo ++ r.grown.chain (sepOf path lo) ++ after path := by
  induction path generalizing n r with
  | nil => simp [up, before, sepOf, after]
  | cons c path ih =>
    rw [up, ih (fun x hx => hfull x (List.mem_cons_of_mem c hx)), replaceChild_chain (hfull c List.mem_cons_self)]
    simp only [before, sepOf, after, List.append_assoc]

theorem newRoot_chain (r : Insertion) (lo : Bytes) : (newRoot r).1.chain lo = r.grown.chain lo := by
  unfold newRoot
  split
  · next hgrown => rw [hgrown, Grown.chain]
  · next hgrown => simp [hgrown, Grown.chain, Node.chain, chainAll]

/-- The pages of the new leaves. -/
theorem insertLeaf_chain (e : KeyValuePair) (al : Alloc) (a : ℕ) (page : LeafPage) (sep : Bytes) :
    (∃ page' x, page.insertEntry (page.find e.key) e = some page' ∧
        (insertLeaf e al a page).grown.chain sep = [⟨sep, x, page'⟩]) ∨
      (page.insertEntry (page.find e.key) e = none ∧ ∃ x y,
        (insertLeaf e al a page).grown.chain sep =
          [⟨sep, x, (page.splitLeaf (page.find e.key) e).1⟩,
            ⟨(page.splitLeaf (page.find e.key) e).2.firstKey, y, (page.splitLeaf (page.find e.key) e).2⟩]) := by
  unfold insertLeaf
  cases hroom : page.insertEntry (page.find e.key) e with
  | some page' => exact Or.inl ⟨page', al.newLeaf.1, rfl, by simp [Grown.chain, Node.chain]⟩
  | none => exact Or.inr ⟨rfl, al.newLeaf.2.newLeaf.1, al.newLeaf.2.newLeaf.2.newLeaf.1, by simp [Grown.chain, Node.chain]⟩

theorem Uniform.chain_head {d : ℕ} {n : Node} (h : Uniform d n) (lo : Bytes) :
    ∃ p ps, n.chain lo = p :: ps ∧ p.sep = lo := by
  induction d generalizing n with
  | zero =>
    obtain ⟨addr, page, rfl⟩ := h.cases_zero
    exact ⟨⟨lo, addr, page⟩, [], rfl, rfl⟩
  | succ d ih =>
    obtain ⟨addr, keys, children, rfl, hlen, -, hchildren⟩ := h.cases_succ
    cases children with
    | nil => cases hlen
    | cons c cs =>
      obtain ⟨p, ps, hchain, hsep⟩ := ih (hchildren c List.mem_cons_self)
      refine ⟨p, ps ++ chainAll keys cs, ?_, hsep⟩
      rw [Node.chain, chainAll, hchain, List.cons_append]

/-- The chain of a list of children ends with the chain of its last child. -/
theorem chainAll_concat {seps : List Bytes} {ns : List Node} (n : Node) (hlen : seps.length = ns.length + 1) :
    ∃ seps' sep, chainAll seps (ns ++ [n]) = chainAll seps' ns ++ n.chain sep := by
  obtain ⟨seps', sep, rfl⟩ := (List.eq_nil_or_concat seps).resolve_left (by rintro rfl; cases hlen)
  refine ⟨seps', sep, ?_⟩
  rw [List.concat_eq_append, chainAll_append (by simpa using hlen)]
  simp [chainAll]

/-- A subtree of a tree of uniform depth. -/
theorem Uniform.subtree {d : ℕ} (path : List Ctx) {n : Node} (h : Uniform d (plugAll path n)) :
    ∃ k, k + path.length = d ∧ Uniform k n := by
  induction path generalizing n with
  | nil => exact ⟨d, rfl, h⟩
  | cons c path ih =>
    obtain ⟨k, hk, hplug⟩ := ih h
    cases k with
    | zero => cases hplug
    | succ k => exact ⟨k, by simp; omega, hplug.2.2 n (by simp)⟩

theorem Uniform.sibling {d : ℕ} {c : Ctx} {n : Node} (h : Uniform d (c.plug n)) {m : Node}
    (hm : m ∈ c.left ++ n :: c.right) : ∃ k, k + 1 = d ∧ Uniform k m := by
  cases d with
  | zero => cases h
  | succ k => exact ⟨k, rfl, h.2.2 m hm⟩

theorem Uniform.depth_lt {d : ℕ} {n : Node} (h : Uniform d n) : d < n.addrs.length := by
  induction d generalizing n with
  | zero =>
    obtain ⟨addr, page, rfl⟩ := h.cases_zero
    simp [Node.addrs]
  | succ d ih =>
    obtain ⟨addr, keys, children, rfl, hlen, -, hchildren⟩ := h.cases_succ
    cases children with
    | nil => cases hlen
    | cons c cs =>
      have hc := ih (hchildren c List.mem_cons_self)
      simp only [Node.addrs, addrsAll, List.length_cons, List.length_append]
      omega

theorem addr_plugAll {path : List Ctx} (hne : path ≠ []) (n m : Node) :
    (plugAll path n).addr = (plugAll path m).addr := by
  induction path generalizing n m with
  | nil => exact absurd rfl hne
  | cons c path ih =>
    cases path with
    | nil => rfl
    | cons c' path => exact ih (List.cons_ne_nil c' path) (c.plug n) (c.plug m)

/-- The leaves of the chain are nodes of the tree. -/
theorem chain_sublist (n : Node) (lo : Bytes) : ((n.chain lo).map Page.addr).Sublist n.addrs := by
  induction n using Node.induct generalizing lo with
  | hleaf addr page => simp [Node.chain, Node.addrs]
  | hinternal addr keys children ih =>
    have hall : ∀ (ns : List Node) (seps : List Bytes), (∀ c ∈ ns, c ∈ children) →
        ((chainAll seps ns).map Page.addr).Sublist (addrsAll ns) := by
      intro ns
      induction ns with
      | nil => simp [chainAll]
      | cons c ns ihns =>
        intro seps hsub
        cases seps with
        | nil => simp [chainAll]
        | cons sep seps =>
          rw [chainAll, List.map_append, addrsAll]
          exact (ih c (hsub c List.mem_cons_self) sep).append
            (ihns seps fun x hx => hsub x (List.mem_cons_of_mem c hx))
    rw [Node.chain, Node.addrs]
    exact (hall children (lo :: keys) fun c hc => hc).cons addr

/-! ## The separators of a path -/

/-- The separators of a list of children stand on the left of their leaves. -/
theorem chainAll_seps {d : ℕ} {seps : List Bytes} {ns : List Node} (hlen : seps.length ≤ ns.length)
    (hns : ∀ n ∈ ns, Uniform d n) : seps.Sublist ((chainAll seps ns).map Page.sep) := by
  induction ns generalizing seps with
  | nil =>
    rw [List.eq_nil_of_length_eq_zero (Nat.le_zero.mp hlen)]
    exact List.nil_sublist _
  | cons n ns ih =>
    cases seps with
    | nil => exact List.nil_sublist _
    | cons sep seps =>
      obtain ⟨p, ps, hchain, hsep⟩ := (hns n List.mem_cons_self).chain_head sep
      have hrest := ih (Nat.le_of_succ_le_succ hlen) fun m hm => hns m (List.mem_cons_of_mem n hm)
      rw [chainAll, hchain, List.cons_append, List.map_cons, List.map_append, hsep]
      exact (hrest.trans (List.sublist_append_right _ _)).cons_cons sep

theorem path_seps {d : ℕ} {path : List Ctx} {n : Node} (hshape : Uniform d (plugAll path n))
    (hfull : ∀ c ∈ path, c.Full) {c : Ctx} (hc : c ∈ path) (lo : Bytes) :
    c.keys.Sublist (((plugAll path n).chain lo).map Page.sep) := by
  obtain ⟨below, above, rfl⟩ := List.append_of_mem hc
  rw [plugAll_append] at hshape ⊢
  obtain ⟨k, -, hplug⟩ := Uniform.subtree above hshape
  have hkeys : c.keys.Sublist (((c.plug (plugAll below n)).chain (sepOf above lo)).map Page.sep) := by
    cases k with
    | zero => cases hplug
    | succ k =>
      refine (List.sublist_cons_self _ _).trans (chainAll_seps ?_ hplug.2.2)
      rw [List.length_cons, hplug.1]
  rw [plugAll, chain_plugAll fun x hx => hfull x (by simp [hx]), List.map_append, List.map_append]
  exact (hkeys.trans (List.sublist_append_right _ _)).trans (List.sublist_append_left _ _)

theorem findChild_splits {keys : List Bytes} (hsorted : keys.Pairwise (· ≤ ·)) (key : Bytes) :
    Bisect.Splits (fun sep : Bytes => decide (key < sep)) keys (findChild keys key) := by
  refine Bisect.bisect_all findChild_middle (hsorted.imp ?_)
  intro a b hab hlt
  exact decide_eq_true (lt_of_lt_of_le (of_decide_eq_true hlt) hab)

/-- A key is led to the right of the separators that are not above it. -/
theorem sepOf_le {path : List Ctx} {key lo : Bytes} (hfollows : Follows key path) (hfull : ∀ c ∈ path, c.Full)
    (hsorted : ∀ c ∈ path, c.keys.Pairwise (· ≤ ·)) (hlo : lo ≤ key) : sepOf path lo ≤ key := by
  induction path with
  | nil => exact hlo
  | cons c path ih =>
    have hup := ih (fun x hx => hfollows x (List.mem_cons_of_mem c hx)) (fun x hx => hfull x (List.mem_cons_of_mem c hx))
      fun x hx => hsorted x (List.mem_cons_of_mem c hx)
    have hcount := (hfull c List.mem_cons_self).count
    have hsplits := findChild_splits (hsorted c List.mem_cons_self) key
    rw [hfollows c List.mem_cons_self] at hsplits
    show (sepOf path lo :: c.keys).getD c.left.length [] ≤ key
    cases hlen : c.left.length with
    | zero => exact hup
    | succ i =>
      have hi : i < c.keys.length := by omega
      rw [List.getD_cons_succ, List.getD_eq_getElem _ _ hi]
      exact le_of_not_gt (of_decide_eq_false (hsplits.1 i _ (by omega) (List.getElem?_eq_getElem hi)))

/-- The first leaf on the right of the path has a separator above the key. -/
theorem lt_head_after {d : ℕ} {path : List Ctx} {n : Node} {key : Bytes} (hshape : Uniform d (plugAll path n))
    (hfollows : Follows key path) (hfull : ∀ c ∈ path, c.Full) (hsorted : ∀ c ∈ path, c.keys.Pairwise (· ≤ ·))
    {b : Page} (hb : (after path).head? = some b) : key < b.sep := by
  induction path generalizing n with
  | nil => cases hb
  | cons c path ih =>
    obtain ⟨k, -, hplug⟩ := Uniform.subtree path hshape
    have hcount := (hfull c List.mem_cons_self).count
    have hsplits := findChild_splits (hsorted c List.mem_cons_self) key
    rw [hfollows c List.mem_cons_self] at hsplits
    cases hright : c.right with
    | nil =>
      refine ih hshape (fun x hx => hfollows x (List.mem_cons_of_mem c hx))
        (fun x hx => hfull x (List.mem_cons_of_mem c hx)) (fun x hx => hsorted x (List.mem_cons_of_mem c hx)) ?_
      simpa [after, Ctx.after, hright, chainAll] using hb
    | cons r rs =>
      have hi : c.left.length < c.keys.length := by
        rw [hcount, hright, List.length_cons]
        omega
      obtain ⟨j, -, hr⟩ := hplug.sibling (m := r) (by simp [hright])
      obtain ⟨p, ps, hchain, hsep⟩ := hr.chain_head c.keys[c.left.length]
      rw [after, Ctx.after, hright, List.drop_eq_getElem_cons hi, chainAll, hchain] at hb
      cases hb
      rw [hsep]
      exact of_decide_eq_true (hsplits.2 _ _ (Nat.le_refl _) (List.getElem?_eq_getElem hi))

end Kvdb.Nodes
