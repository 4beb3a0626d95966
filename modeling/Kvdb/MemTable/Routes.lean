import Kvdb.MemTable.InOrder

/-! # The route of a key

`FindLeaf` stands at one internal node after the other until it comes to a leaf. With the separators in order an
insertion keeps on the route of every key the nodes of the route that it leaves in the tree: all other nodes of the
route are gone (`insertNode_route`). -/
namespace Kvdb.Nodes
set_option autoImplicit false

mutual

/-- The addresses that `FindLeaf` comes to below a node. -/
def Node.route (key : Bytes) : Node → List ℕ
  | .leaf addr _ => [addr]
  | .internal addr keys children => addr :: routeAt key (findChild keys key) children

def routeAt (key : Bytes) : ℕ → List Node → List ℕ
  | _, [] => []
  | 0, n :: _ => n.route key
  | i + 1, _ :: ns => routeAt key i ns

end

mutual

/-- The leaf that `FindLeaf` returns, with its page. -/
def Node.leafFor (key : Bytes) : Node → Option (ℕ × LeafPage)
  | .leaf addr page => some (addr, page)
  | .internal _ keys children => leafAt key (findChild keys key) children

def leafAt (key : Bytes) : ℕ → List Node → Option (ℕ × LeafPage)
  | _, [] => none
  | 0, n :: _ => n.leafFor key
  | i + 1, _ :: ns => leafAt key i ns

end

mutual

/-- The page of the leaf at an address. -/
def Node.pageAt (x : ℕ) : Node → Option LeafPage
  | .leaf addr page => if addr = x then some page else none
  | .internal _ _ children => pageAmong x children

def pageAmong (x : ℕ) : List Node → Option LeafPage
  | [] => none
  | n :: ns => (n.pageAt x).or (pageAmong x ns)

end

theorem routeAt_eq (key : Bytes) (i : ℕ) (ns : List Node) : routeAt key i ns = (ns[i]?).elim [] (Node.route key) := by
  induction ns generalizing i with
  | nil => rfl
  | cons n ns ih =>
    cases i with
    | zero => rfl
    | succ i => exact ih i

theorem leafAt_eq (key : Bytes) (i : ℕ) (ns : List Node) : leafAt key i ns = (ns[i]?).bind (Node.leafFor key) := by
  induction ns generalizing i with
  | nil => rfl
  | cons n ns ih =>
    cases i with
    | zero => rfl
    | succ i => exact ih i

theorem Node.route_subset (key : Bytes) (n : Node) : n.route key ⊆ n.addrs := by
  induction n using Node.induct with
  | hleaf addr page => exact List.Subset.refl _
  | hinternal addr keys children ih =>
    rw [Node.route, Node.addrs, routeAt_eq]
    cases hc : children[findChild keys key]? with
    | none => simp
    | some c =>
      intro x hx
      rcases List.mem_cons.mp hx with rfl | hx
      · exact List.mem_cons_self
      · have hmem := List.mem_of_getElem? hc
        exact List.mem_cons_of_mem _ (mem_addrsAll.mpr ⟨c, hmem, ih c hmem hx⟩)

/-! ## Positions among the separators -/

theorem findChild_eq_countP {keys : List Bytes} (hsorted : keys.Pairwise (· ≤ ·)) (key : Bytes) :
    findChild keys key = keys.countP fun sep => decide (sep ≤ key) := by
  have hsplits := findChild_splits hsorted key
  have hle := findChild_le keys key
  have hleft : (keys.take (findChild keys key)).countP (fun sep => decide (sep ≤ key)) = findChild keys key := by
    have hall : ∀ sep ∈ keys.take (findChild keys key), decide (sep ≤ key) = true := by
      intro sep hsep
      have hnot := of_decide_eq_false (hsplits.take sep hsep)
      exact decide_eq_true (le_of_not_gt hnot)
    rw [List.countP_eq_length.mpr hall, List.length_take]
    omega
  have hright : (keys.drop (findChild keys key)).countP (fun sep => decide (sep ≤ key)) = 0 := by
    apply List.countP_eq_zero.mpr
    intro sep hsep
    have hlt := of_decide_eq_true (hsplits.drop sep hsep)
    simpa using hlt
  conv_rhs => rw [← List.take_append_drop (findChild keys key) keys, List.countP_append, hleft, hright, Nat.add_zero]

/-- The position of a key after one more separator. -/
theorem findChild_insertIdx {keys : List Bytes} {i : ℕ} {sep : Bytes} (hi : i ≤ keys.length)
    (hsorted : (keys.insertIdx i sep).Pairwise (· ≤ ·)) (key : Bytes) :
    findChild (keys.insertIdx i sep) key = findChild keys key + (if sep ≤ key then 1 else 0) ∧
      (findChild keys key < i → ¬ sep ≤ key) ∧ (i < findChild keys key → sep ≤ key) := by
  have hperm := List.perm_insertIdx sep keys hi
  have hkeys : keys.Pairwise (· ≤ ·) := by
    rw [insertIdx_eq_take_drop sep keys i hi] at hsorted
    have hsub : (keys.take i ++ keys.drop i).Sublist (keys.take i ++ sep :: keys.drop i) :=
      (List.Sublist.refl _).append (List.sublist_cons_self _ _)
    rw [List.take_append_drop] at hsub
    exact hsorted.sublist hsub
  have hsplits := findChild_splits hkeys key
  rw [insertIdx_eq_take_drop sep keys i hi] at hsorted
  obtain ⟨-, hright, hcross⟩ := List.pairwise_append.mp hsorted
  refine ⟨?_, ?_, ?_⟩
  · rw [findChild_eq_countP (by rwa [insertIdx_eq_take_drop sep keys i hi]), findChild_eq_countP hkeys, hperm.countP_eq,
      List.countP_cons]
    simp only [decide_eq_true_eq]
  · intro hlt hle
    have hlen : findChild keys key < keys.length := by omega
    have hkey := of_decide_eq_true (hsplits.2 _ _ (Nat.le_refl _) (List.getElem?_eq_getElem hlen))
    have hmem : keys[findChild keys key] ∈ keys.take i := by
      apply List.mem_of_getElem? (i := findChild keys key)
      rw [List.getElem?_take_of_lt hlt, List.getElem?_eq_getElem hlen]
    exact absurd (lt_of_lt_of_le hkey (le_trans (hcross _ hmem sep List.mem_cons_self) hle)) (lt_irrefl key)
  · intro hlt
    have hlen : i < keys.length := by
      have hle := findChild_le keys key
      omega
    have hkey := of_decide_eq_false (hsplits.1 i _ hlt (List.getElem?_eq_getElem hlen))
    have hmem : keys[i] ∈ keys.drop i := by
      rw [List.drop_eq_getElem_cons hlen]
      exact List.mem_cons_self
    exact le_trans ((List.pairwise_cons.mp hright).1 _ hmem) (le_of_not_gt hkey)

/-! ## The route after an insertion -/

def Grown.route (key : Bytes) : Grown → List ℕ
  | .one node => node.route key
  | .split left sep right => if key < sep then left.route key else right.route key

/-- The route below two halves of a list of children is the one below the list. -/
theorem routeAt_halves {keys : List Bytes} {children : List Node} {mid : ℕ} (hsorted : keys.Pairwise (· ≤ ·))
    (hmid : mid < keys.length) (key : Bytes) :
    (if key < keys.getD mid [] then routeAt key (findChild (keys.take mid) key) (children.take (mid + 1))
      else routeAt key (findChild (keys.drop (mid + 1)) key) (children.drop (mid + 1))) =
      routeAt key (findChild keys key) children := by
  have hkeys : keys = keys.take mid ++ keys[mid] :: keys.drop (mid + 1) := by
    rw [List.cons_getElem_drop_succ, List.take_append_drop]
  have hcut := hsorted
  rw [hkeys] at hcut
  obtain ⟨hleft, hright, hcross⟩ := List.pairwise_append.mp hcut
  have hdrop := (List.pairwise_cons.mp hright).1
  have hcount : findChild keys key = findChild (keys.take mid) key +
      (findChild (keys.drop (mid + 1)) key + if keys[mid] ≤ key then 1 else 0) := by
    rw [findChild_eq_countP hsorted, findChild_eq_countP hleft, findChild_eq_countP (List.pairwise_cons.mp hright).2]
    conv_lhs => rw [hkeys]
    simp only [List.countP_append, List.countP_cons, decide_eq_true_eq]
  rw [List.getD_eq_getElem _ _ hmid, routeAt_eq, routeAt_eq, routeAt_eq]
  split
  · next hlt =>
    have hnone : findChild (keys.drop (mid + 1)) key = 0 := by
      rw [findChild_eq_countP (List.pairwise_cons.mp hright).2]
      apply List.countP_eq_zero.mpr
      intro sep hsep
      have habove := lt_of_lt_of_le hlt (hdrop sep hsep)
      simpa using habove
    have hle := findChild_le (keys.take mid) key
    rw [List.length_take] at hle
    rw [hcount, hnone, if_neg (not_le_of_gt hlt), List.getElem?_take_of_lt (by omega), Nat.add_zero]
  · next hge =>
    have hall : findChild (keys.take mid) key = mid := by
      rw [findChild_eq_countP hleft, List.countP_eq_length.mpr, List.length_take]
      · omega
      · intro sep hsep
        exact decide_eq_true (le_trans (hcross sep hsep _ List.mem_cons_self) (le_of_not_gt hge))
    rw [hcount, hall, if_pos (le_of_not_gt hge), List.getElem?_drop]
    congr 2
    omega

/-- The route below a node whose child has been replaced by a pair. -/
theorem routeAt_pair {c : Ctx} {n l rt : Node} {sep : Bytes} (hfull : c.Full)
    (hsorted : (c.keys.insertIdx c.left.length sep).Pairwise (· ≤ ·)) (key : Bytes) :
    routeAt key (findChild (c.keys.insertIdx c.left.length sep) key) (c.left ++ l :: rt :: c.right) =
      if findChild c.keys key = c.left.length then (Grown.split l sep rt).route key
      else routeAt key (findChild c.keys key) (c.left ++ n :: c.right) := by
  have hcount := hfull.count
  obtain ⟨hidx, hbefore, hafter⟩ := findChild_insertIdx (by omega) hsorted key
  rw [hidx, routeAt_eq, routeAt_eq]
  rcases Nat.lt_trichotomy (findChild c.keys key) c.left.length with hlt | heq | hgt
  · rw [if_neg (hbefore hlt), if_neg (Nat.ne_of_lt hlt), Nat.add_zero, List.getElem?_append_left hlt,
      List.getElem?_append_left hlt]
  · rw [if_pos heq, heq, Grown.route, List.getElem?_append_right (by omega)]
    by_cases hle : sep ≤ key
    · rw [if_pos hle, if_neg (not_lt_of_ge hle), Nat.add_sub_cancel_left]
      rfl
    · rw [if_neg hle, if_pos (lt_of_not_ge hle), Nat.add_zero, Nat.sub_self]
      rfl
  · rw [if_pos (hafter hgt), if_neg (Nat.ne_of_gt hgt), List.getElem?_append_right (by omega),
      List.getElem?_append_right (Nat.le_of_lt hgt)]
    obtain ⟨j, hj⟩ := Nat.exists_eq_add_of_lt hgt
    have hpair : findChild c.keys key + 1 - c.left.length = j + 1 + 1 := by omega
    have hone : findChild c.keys key - c.left.length = j + 1 := by omega
    rw [hpair, hone]
    rfl

/-- The route through a node whose child has been replaced: past that child it is the one before. -/
theorem replaceChild_route {c : Ctx} {n : Node} {r : Insertion} (hfull : c.Full)
    (hsorted : ∀ l sep rt, r.grown = .split l sep rt → (c.keys.insertIdx c.left.length sep).Pairwise (· ≤ ·))
    (key : Bytes) :
    ∃ a, (replaceChild c.addr c.keys c.left.length (c.left ++ n :: c.right) r).grown.route key =
        a :: (if findChild c.keys key = c.left.length then r.grown.route key
          else routeAt key (findChild c.keys key) (c.left ++ n :: c.right)) ∧
      ((∃ m, r.grown = .one m) → a = c.addr) := by
  cases hgrown : r.grown with
  | one m =>
    refine ⟨c.addr, ?_, fun _ => rfl⟩
    unfold replaceChild
    simp only [hgrown, Grown.route, Node.route]
    congr 1
    rw [routeAt_eq, routeAt_eq]
    split
    · next heq => simp [heq]
    · next hne => rw [List.getElem?_set_ne (Ne.symm hne)]
  | split l sep rt =>
    have hkeys := hsorted l sep rt hgrown
    have hpair := @routeAt_pair c n l rt sep hfull hkeys key
    by_cases hfits : (c.keys.insertIdx c.left.length sep).length < internalFanout
    · refine ⟨r.alloc.newInternal.1, ?_, by rintro ⟨m, hm⟩; cases hm⟩
      rw [replaceChild_fits hgrown hfits, Grown.route, Node.route, hpair]
    · obtain ⟨taken, hout⟩ := replaceChild_overfull (n := n) hgrown rfl hfits
      have hmid : (c.keys.insertIdx c.left.length sep).length / 2 < (c.keys.insertIdx c.left.length sep).length := by
        simp only [internalFanout] at hfits
        omega
      have hhalves := @routeAt_halves _ (c.left ++ l :: rt :: c.right) _ hkeys hmid key
      rw [hpair] at hhalves
      refine ⟨if key < (c.keys.insertIdx c.left.length sep).getD ((c.keys.insertIdx c.left.length sep).length / 2) []
        then r.alloc.next + 1 else r.alloc.next + 2, ?_, by rintro ⟨m, hm⟩; cases hm⟩
      rw [hout, Grown.route, ← hhalves]
      split
      · rfl
      · rfl

/-! ## The nodes of a route that leave the tree -/

theorem mem_replaceChild {c : Ctx} {n : Node} {r : Insertion} {y : ℕ}
    (hy : y ∈ (replaceChild c.addr c.keys c.left.length (c.left ++ n :: c.right) r).grown.addrs) :
    (y = c.addr ∧ ∃ m, r.grown = .one m) ∨ y ∈ addrsAll (c.left ++ c.right) ∨ y ∈ r.grown.addrs ∨ r.alloc.next ≤ y := by
  cases hgrown : r.grown with
  | one m =>
    unfold replaceChild at hy
    simp only [hgrown, Grown.addrs, Node.addrs, List.set_append_right _ _ (Nat.le_refl _), Nat.sub_self,
      List.set_cons_zero, addrsAll_append, addrsAll, List.mem_cons, List.mem_append] at hy
    rw [addrsAll_append, List.mem_append, Grown.addrs]
    rcases hy with rfl | hleft | hm | hright
    · exact Or.inl ⟨rfl, m, rfl⟩
    · exact Or.inr (Or.inl (Or.inl hleft))
    · exact Or.inr (Or.inr (Or.inl hm))
    · exact Or.inr (Or.inl (Or.inr hright))
  | split l sep rt =>
    have hpair : ∀ z, z ∈ addrsAll (c.left ++ l :: rt :: c.right) →
        z ∈ addrsAll (c.left ++ c.right) ∨ z ∈ (Grown.split l sep rt).addrs := by
      intro z hz
      simp only [addrsAll_append, addrsAll, Grown.addrs, List.mem_append] at hz ⊢
      tauto
    by_cases hfits : (c.keys.insertIdx c.left.length sep).length < internalFanout
    · rw [replaceChild_fits hgrown hfits, Grown.addrs, Node.addrs] at hy
      rcases List.mem_cons.mp hy with rfl | hmem
      · exact Or.inr (Or.inr (Or.inr (Nat.le_refl _)))
      · rcases hpair y hmem with hside | hnew
        · exact Or.inr (Or.inl hside)
        · exact Or.inr (Or.inr (Or.inl hnew))
    · obtain ⟨taken, hout⟩ := replaceChild_overfull (n := n) hgrown rfl hfits
      rw [hout, Grown.addrs, Node.addrs, Node.addrs] at hy
      have hcut : ∀ (ns : List Node) (k : ℕ), addrsAll ns = addrsAll (ns.take k) ++ addrsAll (ns.drop k) := by
        intro ns k
        rw [← addrsAll_append, List.take_append_drop]
      simp only [List.mem_append, List.mem_cons] at hy
      rcases hy with (rfl | hmem) | (rfl | hmem)
      · exact Or.inr (Or.inr (Or.inr (Nat.le_succ _)))
      · rcases hpair y (by rw [hcut]; exact List.mem_append_left _ hmem) with hside | hnew
        · exact Or.inr (Or.inl hside)
        · exact Or.inr (Or.inr (Or.inl hnew))
      · exact Or.inr (Or.inr (Or.inr (Nat.le_add_right _ _)))
      · rcases hpair y (by rw [hcut]; exact List.mem_append_right _ hmem) with hside | hnew
        · exact Or.inr (Or.inl hside)
        · exact Or.inr (Or.inr (Or.inl hnew))

/-- The allocator has not handed the address out. -/
def Alloc.Unused (al : Alloc) (y : ℕ) : Prop := y ∈ al.pool ∨ al.next ≤ y

theorem Alloc.Takes.unused {al al' : Alloc} {taken : List ℕ} (h : al.Takes taken al') {y : ℕ} (hy : y ∈ taken) :
    al.Unused y := by
  obtain ⟨k, -, hperm⟩ := h
  rcases List.mem_append.mp (hperm.subset (List.mem_append_left _ hy)) with hpool | hnew
  · exact Or.inl hpool
  · exact Or.inr (List.left_le_of_mem_range' hnew)

theorem Alloc.Takes.next_le {al al' : Alloc} {taken : List ℕ} (h : al.Takes taken al') : al.next ≤ al'.next := by
  obtain ⟨k, hnext, -⟩ := h
  omega

theorem Alloc.Takes.unused_of {al al' : Alloc} {taken : List ℕ} (h : al.Takes taken al') {y : ℕ} (hy : al'.Unused y) :
    al.Unused y := by
  obtain ⟨k, hnext, hperm⟩ := h
  rcases hy with hpool | hge
  · rcases List.mem_append.mp (hperm.subset (List.mem_append_right _ hpool)) with hin | hnew
    · exact Or.inl hin
    · exact Or.inr (List.left_le_of_mem_range' hnew)
  · exact Or.inr (by omega)

/-- The addresses after an insertion were there before, or come from the allocator. -/
theorem mem_insertNode {e : KeyValuePair} {al : Alloc} {n : Node} {r : Insertion} (h : insertNode e al n = some r)
    {y : ℕ} (hy : y ∈ r.grown.addrs) : y ∈ n.addrs ∨ al.Unused y := by
  have hcount := insertNode_balanced h y
  have hpos := List.count_pos_iff.mpr hy
  by_cases htaken : y ∈ r.taken
  · exact Or.inr ((insertNode_takes h).unused htaken)
  · rw [List.count_eq_zero_of_not_mem htaken] at hcount
    exact Or.inl (List.count_pos_iff.mp (by omega))

theorem insertLeaf_retired (e : KeyValuePair) (al : Alloc) (addr : ℕ) (page : LeafPage) :
    (insertLeaf e al addr page).retired = [⟨addr, false⟩] := by
  unfold insertLeaf
  split
  · rfl
  · rfl

theorem insertLeaf_unused {e : KeyValuePair} {al : Alloc} {addr : ℕ} {page : LeafPage} {y : ℕ}
    (hy : y ∈ (insertLeaf e al addr page).grown.addrs) : al.Unused y := by
  have hcount := insertLeaf_balanced e al addr page y
  have hpos := List.count_pos_iff.mpr hy
  rw [insertLeaf_retired] at hcount
  simp only [List.map_cons, List.map_nil] at hcount
  exact (insertLeaf_takes e al addr page).unused (List.count_pos_iff.mp (by omega))

/-- The separators of a node with a pair in the place of a child are those of the chain. -/
theorem seps_pair {d : ℕ} {c : Ctx} {n l rt : Node} {sep lo : Bytes} {r : Insertion} (hfull : c.Full)
    (hside : ∀ m ∈ c.left ++ c.right, Uniform d m) (hgrown : r.grown = .split l sep rt)
    (hshape : Uniform d l ∧ Uniform d rt)
    (hseps : (((replaceChild c.addr c.keys c.left.length (c.left ++ n :: c.right) r).grown.chain lo).map
      Page.sep).Pairwise (· ≤ ·)) : (c.keys.insertIdx c.left.length sep).Pairwise (· ≤ ·) := by
  have hcount := hfull.count
  have hkeys : (c.keys.insertIdx c.left.length sep).length = c.keys.length + 1 :=
    List.length_insertIdx_of_le_length (by omega) sep
  have hchain : chainAll (lo :: c.keys.insertIdx c.left.length sep) (c.left ++ l :: rt :: c.right) =
      (replaceChild c.addr c.keys c.left.length (c.left ++ n :: c.right) r).grown.chain lo := by
    rw [replaceChild_chain hfull, hgrown, hfull.seps_insert lo sep, chainAll_append (hfull.length_take lo), chainAll,
      chainAll, Ctx.before, Ctx.after, Grown.chain]
    simp only [List.append_assoc]
  rw [← hchain] at hseps
  refine hseps.sublist ((List.sublist_cons_self lo _).trans (chainAll_seps (d := d) ?_ ?_))
  · simp only [List.length_cons, List.length_append, hkeys]
    omega
  · intro m hm
    simp only [List.mem_append, List.mem_cons] at hm
    rcases hm with hm | rfl | rfl | hm
    · exact hside m (List.mem_append_left _ hm)
    · exact hshape.1
    · exact hshape.2
    · exact hside m (List.mem_append_right _ hm)

/-- A node on the route of a key is on it after an insertion, or no longer in the tree. -/
theorem insertNode_route {d : ℕ} {e : KeyValuePair} {al : Alloc} {n : Node} {r : Insertion} {lo : Bytes}
    (hshape : Uniform d n) (hins : insertNode e al n = some r) (hnodup : n.addrs.Nodup)
    (hused : ∀ y ∈ n.addrs, ¬ al.Unused y) (hseps : ((r.grown.chain lo).map Page.sep).Pairwise (· ≤ ·)) {key : Bytes}
    {x : ℕ} (hx : x ∈ n.route key) : x ∈ r.grown.route key ∨ x ∉ r.grown.addrs := by
  induction d generalizing n r lo with
  | zero =>
    obtain ⟨addr, page, rfl⟩ := hshape.cases_zero
    obtain rfl : x = addr := List.mem_singleton.mp hx
    obtain rfl := Option.some.inj hins
    exact Or.inr fun hmem => hused x List.mem_cons_self (insertLeaf_unused hmem)
  | succ d ih =>
    obtain ⟨addr, keys, children, rfl, hlen, hroom, hchildren⟩ := hshape.cases_succ
    obtain ⟨c, m, hfull, hidx, rfl, rfl, hplug⟩ := exists_child addr e.key hlen hroom
    obtain rfl : addr = c.addr := by
      rw [Ctx.plug] at hplug
      cases hplug
      rfl
    rw [insertNode, insertChild_eq, hidx, List.getElem?_append_right (Nat.le_refl _), Nat.sub_self] at hins
    obtain ⟨below, hbelow, rfl⟩ := Option.map_eq_some_iff.mp hins
    have hm : insertNode e al m = some below := hbelow
    have hmshape : Uniform d m := hchildren m (by simp)
    -- The address of the node, the addresses below the child and those below its siblings are different ones.
    rw [Node.addrs] at hnodup hused
    obtain ⟨hown, hbelows⟩ := List.nodup_cons.mp hnodup
    have hperm : (addrsAll (c.left ++ m :: c.right)).Perm (m.addrs ++ addrsAll (c.left ++ c.right)) := by
      simp only [addrsAll_append, addrsAll]
      exact List.perm_append_comm_assoc _ _ _
    obtain ⟨hmnodup, -, hapart⟩ := List.nodup_append.mp (hperm.nodup_iff.mp hbelows)
    have hmused : ∀ y ∈ m.addrs, ¬ al.Unused y := fun y hy =>
      hused y (List.mem_cons_of_mem _ (hperm.mem_iff.mpr (List.mem_append_left _ hy)))
    have hnext : ∀ y, below.alloc.next ≤ y → al.Unused y := fun y hy =>
      Or.inr (Nat.le_trans (insertNode_takes hm).next_le hy)
    obtain ⟨a, hroute, hone⟩ := replaceChild_route (n := m) (r := below) hfull (fun l sep rt hgrown => by
      have hpair := insertNode_uniform hmshape hm
      rw [hgrown] at hpair
      exact seps_pair hfull (fun z hz => hchildren z (by simp only [List.mem_append, List.mem_cons] at hz ⊢; tauto))
        hgrown hpair hseps) key
    rw [hroute]
    rw [Node.route] at hx
    rcases List.mem_cons.mp hx with rfl | hx
    · by_cases hgrown : ∃ m', below.grown = .one m'
      · rw [hone hgrown]
        exact Or.inl List.mem_cons_self
      · right
        intro hmem
        rcases mem_replaceChild hmem with ⟨-, hex⟩ | hside | hin | hge
        · exact hgrown hex
        · exact hown (hperm.mem_iff.mpr (List.mem_append_right _ hside))
        · rcases mem_insertNode hm hin with hin | hunused
          · exact hown (hperm.mem_iff.mpr (List.mem_append_left _ hin))
          · exact hused _ List.mem_cons_self hunused
        · exact hused _ List.mem_cons_self (hnext _ hge)
    · by_cases hpos : findChild c.keys key = c.left.length
      · rw [hpos, routeAt_eq, List.getElem?_append_right (Nat.le_refl _), Nat.sub_self] at hx
        have hxm : x ∈ m.addrs := m.route_subset key hx
        rw [replaceChild_chain hfull, List.map_append, List.map_append] at hseps
        rcases ih hmshape hm hmnodup hmused (List.pairwise_append.mp (List.pairwise_append.mp hseps).1).2.1 hx with hin | hnot
        · rw [if_pos hpos]
          exact Or.inl (List.mem_cons_of_mem _ hin)
        · right
          intro hmem
          rcases mem_replaceChild hmem with ⟨rfl, -⟩ | hside | hin | hge
          · exact hown (hperm.mem_iff.mpr (List.mem_append_left _ hxm))
          · exact hapart x hxm x hside rfl
          · exact hnot hin
          · exact hmused x hxm (hnext x hge)
      · rw [if_neg hpos]
        exact Or.inl (List.mem_cons_of_mem _ hx)

theorem newRoot_route {r : Insertion} {key : Bytes} {x : ℕ} (hx : x ∈ r.grown.route key) :
    x ∈ (newRoot r).1.route key := by
  unfold newRoot
  split
  · next n hgrown =>
    rw [hgrown] at hx
    exact hx
  · next l sep rt hgrown =>
    rw [hgrown] at hx
    rw [Node.route, routeAt_eq, findChild_eq_countP (List.pairwise_singleton _ _), List.countP_singleton]
    apply List.mem_cons_of_mem
    by_cases hle : sep ≤ key
    · simpa [Grown.route, hle, not_lt_of_ge hle] using hx
    · simpa [Grown.route, hle, lt_of_not_ge hle] using hx

theorem mem_newRoot {r : Insertion} {x : ℕ} (hx : x ∈ (newRoot r).1.addrs) : x ∈ r.grown.addrs ∨ r.alloc.next ≤ x := by
  unfold newRoot at hx
  split at hx
  · next n hgrown =>
    rw [hgrown]
    exact Or.inl hx
  · next l sep rt hgrown =>
    rw [hgrown]
    rw [Node.addrs] at hx
    rcases List.mem_cons.mp hx with rfl | hx
    · exact Or.inr (Nat.le_refl _)
    · left
      simpa [Grown.addrs, addrsAll] using hx

/-! ## What is at an address -/

theorem pageAmong_eq_some {x : ℕ} {ns : List Node} {page : LeafPage} (h : pageAmong x ns = some page) :
    ∃ n ∈ ns, n.pageAt x = some page := by
  induction ns with
  | nil => cases h
  | cons n ns ih =>
    rw [pageAmong, Option.or_eq_some_iff] at h
    rcases h with hn | ⟨-, hns⟩
    · exact ⟨n, List.mem_cons_self, hn⟩
    · obtain ⟨m, hm, hat⟩ := ih hns
      exact ⟨m, List.mem_cons_of_mem _ hm, hat⟩

theorem Node.pageAt_mem {n : Node} {x : ℕ} {page : LeafPage} (h : n.pageAt x = some page) : x ∈ n.addrs := by
  induction n using Node.induct with
  | hleaf addr leaf =>
    rw [Node.pageAt] at h
    split at h
    · next heq => exact List.mem_singleton.mpr heq.symm
    · cases h
  | hinternal addr keys children ih =>
    obtain ⟨c, hc, hat⟩ := pageAmong_eq_some h
    exact List.mem_cons_of_mem _ (mem_addrsAll.mpr ⟨c, hc, ih c hc hat⟩)

theorem Node.pointersAt_mem {n : Node} {x : ℕ} {p : Pointers} (h : n.pointersAt x = some p) : x ∈ n.addrs := by
  induction n using Node.induct with
  | hleaf addr leaf => cases h
  | hinternal addr keys children ih =>
    rw [Node.pointersAt] at h
    split at h
    · next heq =>
      rw [Node.addrs, heq]
      exact List.mem_cons_self
    · obtain ⟨c, hc, hat⟩ := pointersAmong_eq_some h
      exact List.mem_cons_of_mem _ (mem_addrsAll.mpr ⟨c, hc, ih c hc hat⟩)

/-- What is at an address below a child is what is there below the parent. -/
theorem at_child {children : List Node} {c : Node} {x : ℕ} (hnodup : (addrsAll children).Nodup) (hc : c ∈ children)
    (hx : x ∈ c.addrs) : pageAmong x children = c.pageAt x ∧ pointersAmong x children = c.pointersAt x := by
  induction children with
  | nil => cases hc
  | cons n ns ih =>
    rw [addrsAll] at hnodup
    obtain ⟨-, hrest, hapart⟩ := List.nodup_append.mp hnodup
    rw [pageAmong, pointersAmong]
    rcases List.mem_cons.mp hc with rfl | hc
    · have hns : ∀ m ∈ ns, x ∉ m.addrs := fun m hm hmem => hapart x hx x (mem_addrsAll.mpr ⟨m, hm, hmem⟩) rfl
      have hpage : pageAmong x ns = none := by
        rw [Option.eq_none_iff_forall_ne_some]
        intro page hpage
        obtain ⟨m, hm, hat⟩ := pageAmong_eq_some hpage
        exact hns m hm (Node.pageAt_mem hat)
      have hpointers : pointersAmong x ns = none := by
        rw [Option.eq_none_iff_forall_ne_some]
        intro p hp
        obtain ⟨m, hm, hat⟩ := pointersAmong_eq_some hp
        exact hns m hm (Node.pointersAt_mem hat)
      rw [hpage, hpointers, Option.or_none, Option.or_none]
      exact ⟨rfl, rfl⟩
    · have hn : x ∉ n.addrs := fun hmem => hapart x hmem x (mem_addrsAll.mpr ⟨c, hc, hx⟩) rfl
      have hpage : n.pageAt x = none := by
        rw [Option.eq_none_iff_forall_ne_some]
        exact fun page hpage => hn (Node.pageAt_mem hpage)
      have hpointers : n.pointersAt x = none := by
        rw [Option.eq_none_iff_forall_ne_some]
        exact fun p hp => hn (Node.pointersAt_mem hp)
      rw [hpage, hpointers, Option.none_or, Option.none_or]
      exact ih hrest hc

theorem addrs_sublist {ns : List Node} {c : Node} (hc : c ∈ ns) : c.addrs.Sublist (addrsAll ns) := by
  obtain ⟨as, bs, rfl⟩ := List.append_of_mem hc
  rw [addrsAll_append, addrsAll]
  exact (List.sublist_append_left _ _).trans (List.sublist_append_right _ _)

theorem Node.route_eq_cons (key : Bytes) (n : Node) : ∃ cs, n.route key = n.addr :: cs := by
  cases n with
  | leaf addr page => exact ⟨[], rfl⟩
  | internal addr keys children => exact ⟨_, rfl⟩

/-- The route from a node on it: the leaf of the key, or the child that the node leads the key to. -/
theorem route_next {d : ℕ} {n : Node} {key : Bytes} (hshape : Uniform d n) (hnodup : n.addrs.Nodup) {as bs : List ℕ}
    {x : ℕ} (hroute : n.route key = as ++ x :: bs) :
    (∃ page, n.leafFor key = some (x, page) ∧ n.pageAt x = some page ∧ n.pointersAt x = none) ∨
      ∃ p y cs, n.pointersAt x = some p ∧ n.pageAt x = none ∧ p.children[findChild p.keys key]? = some y ∧
        bs = y :: cs := by
  induction d generalizing n as with
  | zero =>
    obtain ⟨addr, page, rfl⟩ := hshape.cases_zero
    obtain ⟨rfl, hrest⟩ | ⟨as', rfl, hrest⟩ := List.append_eq_cons_iff.mp hroute.symm
    · cases hrest
      exact Or.inl ⟨page, rfl, by simp [Node.pageAt], rfl⟩
    · simp at hrest
  | succ d ih =>
    obtain ⟨addr, keys, children, rfl, hlen, hroom, hchildren⟩ := hshape.cases_succ
    rw [Node.addrs] at hnodup
    obtain ⟨hown, hbelow⟩ := List.nodup_cons.mp hnodup
    have hidx : findChild keys key < children.length := by
      have hle := findChild_le keys key
      omega
    have hmem := List.getElem_mem hidx
    have hsub : ∀ y ∈ children[findChild keys key].addrs, y ∈ addrsAll children := fun y hy =>
      mem_addrsAll.mpr ⟨_, hmem, hy⟩
    rw [Node.route, routeAt_eq, List.getElem?_eq_getElem hidx] at hroute
    obtain ⟨rfl, hrest⟩ | ⟨as', rfl, hrest⟩ := List.append_eq_cons_iff.mp hroute.symm
    · cases hrest
      right
      obtain ⟨cs, hcs⟩ := children[findChild keys key].route_eq_cons key
      refine ⟨⟨keys, children.map Node.addr⟩, children[findChild keys key].addr, cs, if_pos rfl, ?_, ?_, hcs⟩
      · rw [Node.pageAt, Option.eq_none_iff_forall_ne_some]
        intro page hpage
        obtain ⟨c, hc, hat⟩ := pageAmong_eq_some hpage
        exact hown (mem_addrsAll.mpr ⟨c, hc, Node.pageAt_mem hat⟩)
      · rw [List.getElem?_map, List.getElem?_eq_getElem hidx]
        rfl
    · have hrest' : children[findChild keys key].route key = as' ++ x :: bs := hrest
      have hx : x ∈ children[findChild keys key].addrs :=
        Node.route_subset key _ (by rw [hrest']; simp)
      have hne : addr ≠ x := by
        rintro rfl
        exact hown (hsub _ hx)
      have hsublist : children[findChild keys key].addrs.Sublist (addrsAll children) := addrs_sublist hmem
      obtain ⟨hpage, hpointers⟩ := at_child hbelow hmem hx
      rw [Node.leafFor, leafAt_eq, List.getElem?_eq_getElem hidx, Option.bind_some, Node.pageAt, Node.pointersAt,
        if_neg hne, hpage, hpointers]
      exact ih (hchildren _ hmem) (hbelow.sublist hsublist) hrest'

/-! ## The pages of the chain -/

theorem pageAt_of_chain {n : Node} (hnodup : n.addrs.Nodup) {lo : Bytes} {p : Page} (hp : p ∈ n.chain lo) :
    n.pageAt p.addr = some p.leaf := by
  induction n using Node.induct generalizing lo with
  | hleaf addr page =>
    rw [List.mem_singleton.mp hp]
    exact if_pos rfl
  | hinternal addr keys children ih =>
    rw [Node.addrs] at hnodup
    obtain ⟨c, hc, sep, hmem⟩ := mem_chainAll hp
    have hbelow := (List.nodup_cons.mp hnodup).2
    have hat := ih c hc (hbelow.sublist (addrs_sublist hc)) hmem
    rw [Node.pageAt, (at_child hbelow hc (Node.pageAt_mem hat)).1, hat]

theorem mem_chainAll_of_mem {seps : List Bytes} {ns : List Node} (hlen : ns.length ≤ seps.length) {c : Node}
    (hc : c ∈ ns) {x : ℕ} {page : LeafPage} (hmem : ∀ sep, ∃ lo, (⟨lo, x, page⟩ : Page) ∈ c.chain sep) :
    ∃ lo, (⟨lo, x, page⟩ : Page) ∈ chainAll seps ns := by
  induction ns generalizing seps with
  | nil => cases hc
  | cons n ns ih =>
    cases seps with
    | nil => cases hlen
    | cons sep seps =>
      rw [chainAll]
      rcases List.mem_cons.mp hc with rfl | hc
      · obtain ⟨lo, hlo⟩ := hmem sep
        exact ⟨lo, List.mem_append_left _ hlo⟩
      · obtain ⟨lo, hlo⟩ := ih (Nat.le_of_succ_le_succ hlen) hc
        exact ⟨lo, List.mem_append_right _ hlo⟩

theorem mem_chain_of_pageAt {d : ℕ} {n : Node} (hshape : Uniform d n) {x : ℕ} {page : LeafPage}
    (h : n.pageAt x = some page) (sep : Bytes) : ∃ lo, (⟨lo, x, page⟩ : Page) ∈ n.chain sep := by
  induction d generalizing n sep with
  | zero =>
    obtain ⟨addr, leaf, rfl⟩ := hshape.cases_zero
    rw [Node.pageAt] at h
    split at h
    · next heq =>
      cases h
      subst heq
      exact ⟨sep, List.mem_cons_self⟩
    · cases h
  | succ d ih =>
    obtain ⟨addr, keys, children, rfl, hlen, hroom, hchildren⟩ := hshape.cases_succ
    obtain ⟨c, hc, hat⟩ := pageAmong_eq_some h
    rw [Node.chain]
    refine mem_chainAll_of_mem ?_ hc fun lo => ih (hchildren c hc) hat lo
    rw [hlen, List.length_cons]

theorem leafFor_plugAll {key : Bytes} {path : List Ctx} (hfollows : Follows key path) (n : Node) :
    (plugAll path n).leafFor key = n.leafFor key := by
  induction path generalizing n with
  | nil => rfl
  | cons c path ih =>
    rw [plugAll, ih fun x hx => hfollows x (List.mem_cons_of_mem c hx)]
    rw [Ctx.plug, Node.leafFor, leafAt_eq, hfollows c List.mem_cons_self, List.getElem?_append_right (Nat.le_refl _),
      Nat.sub_self]
    rfl

theorem up_retired {path : List Ctx} {n : Node} {r : Insertion} {x : Retired} (hx : x ∈ r.retired) :
    x ∈ (up path n r).retired := by
  induction path generalizing n r with
  | nil => exact hx
  | cons c path ih =>
    rw [up]
    apply ih
    unfold replaceChild
    split
    · exact hx
    · unfold splitCoW
      simp only []
      split
      · exact List.mem_cons_of_mem _ hx
      · exact hx

/-- Where an insertion goes: the chain before and after it. -/
structure Placed (e : KeyValuePair) (al : Alloc) (n : Node) (r : Insertion) (path : List Ctx) (a : ℕ) (page : LeafPage) :
    Prop where
  tree : n = plugAll path (.leaf a page)
  follows : Follows e.key path
  full : ∀ c ∈ path, c.Full
  leafFor : n.leafFor e.key = some (a, page)
  retired : ⟨a, false⟩ ∈ r.retired
  chain : ∀ lo, n.chain lo = before path lo ++ ⟨sepOf path lo, a, page⟩ :: after path
  chain_after : ∀ lo, (newRoot r).1.chain lo =
    before path lo ++ (insertLeaf e al a page).grown.chain (sepOf path lo) ++ after path

theorem exists_placed {d : ℕ} {e : KeyValuePair} {al : Alloc} {n : Node} {r : Insertion} (hshape : Uniform d n)
    (hins : insertNode e al n = some r) : ∃ path a page, Placed e al n r path a page := by
  obtain ⟨path, a, page, rfl, -, hfollows, hfull⟩ := exists_path e.key hshape
  have hleaf : insertNode e al (.leaf a page) = some (insertLeaf e al a page) := rfl
  have hup := insertNode_plugAll path hfollows hleaf
  obtain rfl := Option.some.inj (hins.symm.trans hup)
  refine ⟨path, a, page, rfl, hfollows, hfull, leafFor_plugAll hfollows _, ?_, ?_, ?_⟩
  · apply up_retired
    rw [insertLeaf_retired]
    exact List.mem_singleton_self _
  · intro lo
    rw [chain_plugAll hfull, Node.chain, List.append_assoc]
    rfl
  · intro lo
    rw [newRoot_chain, chain_up hfull]

theorem grown_chain_subset (g : Grown) (lo : Bytes) : (g.chain lo).map Page.addr ⊆ g.addrs := by
  cases g with
  | one n => exact (chain_sublist n lo).subset
  | split l sep rt =>
    rw [Grown.chain, List.map_append, Grown.addrs]
    exact ((chain_sublist l lo).append (chain_sublist rt sep)).subset

/-- The leaf of the new entry is no longer in the tree. -/
theorem Placed.gone {e : KeyValuePair} {al : Alloc} {n : Node} {r : Insertion} {path : List Ctx} {a : ℕ}
    {page : LeafPage} (h : Placed e al n r path a page) (hins : insertNode e al n = some r) (hnodup : n.addrs.Nodup)
    (hused : ∀ y ∈ n.addrs, ¬ al.Unused y) : a ∉ (newRoot r).1.addrs := by
  have ha : a ∈ n.addrs := (chain_sublist n []).subset (by rw [h.chain]; simp)
  have htakes := newRoot_takes (insertNode_takes hins)
  have hcount := newRoot_balanced (insertNode_balanced hins) a
  have hretired : 0 < (r.retired.map Retired.addr).count a :=
    List.count_pos_iff.mpr (List.mem_map.mpr ⟨_, h.retired, rfl⟩)
  rw [List.count_eq_zero_of_not_mem fun hmem => hused a ha (htakes.unused hmem)] at hcount
  have hone := List.nodup_iff_count_le_one.mp hnodup a
  intro hmem
  have hpos := List.count_pos_iff.mpr hmem
  omega

/-- A leaf that stays in the tree keeps its page. -/
theorem Placed.pageAt {d : ℕ} {e : KeyValuePair} {al : Alloc} {n : Node} {r : Insertion} {path : List Ctx} {a : ℕ}
    {page : LeafPage} (h : Placed e al n r path a page) (hshape : Uniform d n) (hins : insertNode e al n = some r)
    (hnodup : n.addrs.Nodup) (hused : ∀ y ∈ n.addrs, ¬ al.Unused y) (hnodup' : (newRoot r).1.addrs.Nodup) {x : ℕ}
    (hx : x ∈ n.addrs) (hx' : x ∈ (newRoot r).1.addrs) : (newRoot r).1.pageAt x = n.pageAt x := by
  obtain ⟨d', -, hshape'⟩ := newRoot_uniform (insertNode_uniform hshape hins)
  apply Option.ext
  intro leaf
  constructor
  · intro hat
    obtain ⟨lo, hmem⟩ := mem_chain_of_pageAt hshape' hat []
    have hcases : (⟨lo, x, leaf⟩ : Page) ∈ n.chain [] := by
      rw [h.chain_after, List.append_assoc, List.mem_append, List.mem_append] at hmem
      rw [h.chain]
      rcases hmem with hbefore | hnew | hafter
      · exact List.mem_append_left _ hbefore
      · have hgrown : x ∈ (insertLeaf e al a page).grown.addrs := by
          have hnodes := grown_chain_subset (insertLeaf e al a page).grown (sepOf path [])
          exact hnodes (List.mem_map_of_mem hnew)
        exact absurd (insertLeaf_unused hgrown) (hused x hx)
      · exact List.mem_append_right _ (List.mem_cons_of_mem _ hafter)
    exact pageAt_of_chain hnodup hcases
  · intro hat
    obtain ⟨lo, hmem⟩ := mem_chain_of_pageAt hshape hat []
    have hcases : (⟨lo, x, leaf⟩ : Page) ∈ (newRoot r).1.chain [] := by
      rw [h.chain, List.mem_append, List.mem_cons] at hmem
      rw [h.chain_after, List.append_assoc]
      rcases hmem with hbefore | heq | hafter
      · exact List.mem_append_left _ hbefore
      · cases heq
        exact absurd hx' (h.gone hins hnodup hused)
      · exact List.mem_append_right _ (List.mem_append_right _ hafter)
    exact pageAt_of_chain hnodup' hcases

/-- The separators around the leaf of the new entry. -/
theorem Placed.bounds {d : ℕ} {e : KeyValuePair} {al : Alloc} {n : Node} {r : Insertion} {path : List Ctx} {a : ℕ}
    {page : LeafPage} (h : Placed e al n r path a page) (hshape : Uniform d n)
    (hseps : ((n.chain []).map Page.sep).Pairwise (· ≤ ·)) :
    sepOf path [] ≤ e.key ∧ ∀ b ∈ after path, e.key < b.sep := by
  rw [h.tree] at hshape
  have hsorted : ∀ c ∈ path, c.keys.Pairwise (· ≤ ·) := by
    intro c hc
    have hsub := path_seps hshape h.full hc []
    rw [← h.tree] at hsub
    exact hseps.sublist hsub
  refine ⟨sepOf_le h.follows h.full hsorted (Heap.nil_le_key e.key), ?_⟩
  rw [h.chain, List.map_append, List.map_cons] at hseps
  have hafter := (List.pairwise_cons.mp (List.pairwise_append.mp hseps).2.1).2
  cases hlist : after path with
  | nil => exact fun b hb => by cases hb
  | cons b₀ bs =>
    have hlt := lt_head_after hshape h.follows h.full hsorted (b := b₀) (by rw [hlist]; rfl)
    rw [hlist, List.map_cons] at hafter
    intro b hb
    rcases List.mem_cons.mp hb with rfl | hb
    · exact hlt
    · exact lt_of_lt_of_le hlt ((List.pairwise_cons.mp hafter).1 b.sep (List.mem_map_of_mem hb))

theorem Placed.keyed {d : ℕ} {e : KeyValuePair} {al : Alloc} {n : Node} {r : Insertion} {path : List Ctx} {a : ℕ}
    {page : LeafPage} (h : Placed e al n r path a page) (hshape : Uniform d n) (hkeyed : Keyed (· ≤ ·) (n.chain []))
    (hplace : page.InPlace e) : Keyed (· ≤ ·) ((newRoot r).1.chain []) := by
  obtain ⟨hsep, hbelow⟩ := h.bounds hshape (List.pairwise_map.mpr (hkeyed.apart.imp And.left))
  rw [h.chain] at hkeyed
  have hsorted := hkeyed.sorted ⟨sepOf path [], a, page⟩ (by simp)
  have hnew := hkeyed.insert al (fun _ _ hab => hab) (fun _ _ hab => le_of_lt hab) (fun _ _ _ hab hbc => le_trans hab hbc)
    hplace (divides_le hsorted hplace) hsep hbelow
  rw [h.chain_after]
  exact hnew.1

end Kvdb.Nodes
