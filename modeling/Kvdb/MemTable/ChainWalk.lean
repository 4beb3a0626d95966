import Kvdb.MemTable.InOrder
import Kvdb.MemTable.Routes

/-! # A walk along the leaves during insertions

A scan copies the leaves of a memtable from `first_leaf_` on, along their `next` pointers, while the writer inserts.
An insertion writes new pages and the pointer in front of them, so a leaf that it has replaced keeps its page and its
pointer as long as it is queued (`insert_frame`). The leaves that a walk still comes to are a `Trail`: replaced leaves,
and then the rest of the chain. -/
namespace Kvdb.Heap
set_option autoImplicit false

open Nodes
open Retire (PendingRetire)

/-! ## What an insertion leaves as it is -/

/-- The leaves are the same, and what was queued still is. -/
structure Calm (h h' : Heap) : Prop where
  leaves : h'.leaves = h.leaves
  fenced : h'.fenced = h.fenced
  pending : h.pending ⊆ h'.pending

theorem Calm.trans {h h' h'' : Heap} (hc : Calm h h') (hc' : Calm h' h'') : Calm h h'' :=
  ⟨hc'.leaves.trans hc.leaves, hc'.fenced.trans hc.fenced, fun _ hr => hc'.pending (hc.pending hr)⟩

theorem calm_retire (h : Heap) (clock : ℕ) (x : Retired) : Calm h (h.retire clock x) :=
  ⟨rfl, rfl, fun _ hr => List.mem_append_left _ hr⟩

/-- A queued page has the clock of its retirement as its fence. -/
theorem mem_retire {h : Heap} (hfenced : h.fenced = true) (clock : ℕ) (x : Retired) :
    (⟨x.addr, x.isInternal, clock⟩ : PendingRetire) ∈ (h.retire clock x).pending := by
  have heq : (h.retire clock x).pending = h.pending ++ [⟨x.addr, x.isInternal, if h.fenced then clock else h.retireSeq + 1⟩] := by
    unfold retire withBooks books Retire.Table.retire
    simp only [hfenced, if_true]
  rw [heq, hfenced, if_pos rfl]
  exact List.mem_append_right _ (List.mem_singleton_self _)

theorem calm_setNode (h : Heap) (a : ℕ) (s : Store) : Calm h (h.setNode a s) := ⟨rfl, rfl, fun _ hr => hr⟩

def Ascent.heap : Ascent → Heap
  | .placed h _ _ => h
  | .top h _ _ => h

/-- The loop of `SplitCoW` only writes new nodes. -/
theorem ascend_grows {path : List (ℕ × ℕ)} {h : Heap} {pair : Pair} {sep : Bytes} {asc : Ascent}
    (hasc : ascend path h pair sep = some asc) : Grows h asc.heap := by
  induction path generalizing h pair sep with
  | nil =>
    cases hasc
    exact ⟨rfl, fun _ _ => rfl, Nat.le_refl _⟩
  | cons p path ih =>
    obtain ⟨cp, cidx⟩ := p
    rw [ascend] at hasc
    obtain ⟨s, -, hrest⟩ := Option.bind_eq_some_iff.mp hasc
    have hcopy := grows_newInternal h s
    split at hrest
    · cases hrest
      exact hcopy
    · obtain ⟨ls, -, hrest⟩ := Option.bind_eq_some_iff.mp hrest
      obtain ⟨rs, -, hrest⟩ := Option.bind_eq_some_iff.mp hrest
      exact (hcopy.trans (grows_newHalves _ _ _)).trans (ih hrest)

theorem calm_newRoot {h h' : Heap} {pair : Pair} {sep : Bytes} (hroot : h.newRoot pair sep = some h') : Calm h h' := by
  obtain ⟨s, -, rfl⟩ := Option.map_eq_some_iff.mp hroot
  exact ⟨rfl, rfl, fun _ hr => hr⟩

theorem calm_replaceRoot (h : Heap) (clock saved : ℕ) (up : List (ℕ × ℕ)) : Calm h (h.replaceRoot clock saved up) := by
  cases up with
  | nil => exact (show Calm h { h with root := saved } from ⟨rfl, rfl, fun _ hr => hr⟩).trans (calm_retire _ _ _)
  | cons p up =>
    obtain ⟨lock, idx⟩ := p
    have hset : Calm h (h.setNode lock ((h.nodes lock).setChild idx (some saved))) := ⟨rfl, rfl, fun _ hr => hr⟩
    unfold replaceRoot
    simp only []
    split
    · exact hset.trans (calm_retire _ _ _)
    · exact hset

theorem relink_other {pred : Option ℕ} {x : ℕ} (h : Heap) (y : ℕ) (hne : pred ≠ some x) :
    (h.relink pred y).leaves x = h.leaves x := by
  cases pred with
  | none => rfl
  | some p =>
    have hxp : x ≠ p := fun heq => hne (congrArg some heq.symm)
    exact if_neg hxp

theorem relink_queue (h : Heap) (pred : Option ℕ) (y : ℕ) :
    (h.relink pred y).fenced = h.fenced ∧ (h.relink pred y).pending = h.pending := by
  cases pred with
  | none => exact ⟨rfl, rfl⟩
  | some p => exact ⟨rfl, rfl⟩

/-- `h'` comes from `h` by an insertion that replaces the leaf `a`, and differs in the leaves of `before` and in unused
ones only. -/
structure Frame (h h' : Heap) (before : List ℕ) (a clock : ℕ) : Prop where
  fenced : h'.fenced = true
  pending : h.pending ⊆ h'.pending
  retired : (⟨a, false, clock⟩ : PendingRetire) ∈ h'.pending
  leaves : ∀ x, ¬ h.alloc.Unused x → x ∉ before → h'.leaves x = h.leaves x

/-- The new leaves are led to and published, and the old one is queued. -/
theorem frame_of_relink {h h₁ h₂ : Heap} {before : List ℕ} {a clock y : ℕ} (hfenced : h.fenced = true)
    (hfenced₁ : h₁.fenced = h.fenced) (hpending₁ : h₁.pending = h.pending)
    (hleaves : ∀ x, ¬ h.alloc.Unused x → h₁.leaves x = h.leaves x) (hcalm : Calm (h₁.relink before.getLast? y) h₂) :
    Frame h (h₂.retire clock ⟨a, false⟩) before a clock := by
  obtain ⟨hf, hp⟩ := relink_queue h₁ before.getLast? y
  have hf₂ : h₂.fenced = true := by rw [hcalm.fenced, hf, hfenced₁, hfenced]
  have hp₂ : h.pending ⊆ h₂.pending := by
    rw [← hpending₁, ← hp]
    exact hcalm.pending
  refine ⟨hf₂, fun r hr => (calm_retire h₂ clock _).pending (hp₂ hr), mem_retire hf₂ clock ⟨a, false⟩, ?_⟩
  intro x hused hbefore
  rw [(calm_retire h₂ clock _).leaves, hcalm.leaves, relink_other h₁ y, hleaves x hused]
  intro hlast
  exact hbefore (List.mem_of_getLast? hlast)

theorem newLeaf_used {h : Heap} (v : Leaf) {x : ℕ} (hused : ¬ h.alloc.Unused x) :
    (h.newLeaf.2.setLeaf h.newLeaf.1 v).leaves x = h.leaves x := by
  have hne : x ≠ h.newLeaf.1 := by
    rintro rfl
    exact hused (h.alloc.newLeaf_takes.unused (List.mem_singleton_self _))
  rw [setLeaf_leaves, if_neg hne, newLeaf_leaves h x hne]

theorem newLeaf_still_used {h : Heap} {x : ℕ} (hused : ¬ h.alloc.Unused x) : ¬ h.newLeaf.2.alloc.Unused x := fun hmem =>
  hused (h.alloc.newLeaf_takes.unused_of hmem)

theorem prepareLeaves_used {h : Heap} (a : ℕ) (halves : LeafPage × LeafPage) {x : ℕ} (hused : ¬ h.alloc.Unused x) :
    (h.prepareLeaves a halves).1.leaves x = h.leaves x := by
  have hused' := newLeaf_still_used hused
  have hleft : x ≠ h.newLeaf.1 := by
    rintro rfl
    exact hused (h.alloc.newLeaf_takes.unused (List.mem_singleton_self _))
  have hright : x ≠ h.newLeaf.2.newLeaf.1 := by
    rintro rfl
    exact hused' (h.newLeaf.2.alloc.newLeaf_takes.unused (List.mem_singleton_self _))
  simp only [prepareLeaves, setLeaf_leaves, if_neg hleft, if_neg hright]
  rw [newLeaf_leaves _ x hright, newLeaf_leaves h x hleft]

theorem Holds.used {h : Heap} {root : Node} {todo : List Retired} (hh : h.Holds root todo) {x : ℕ} (hx : x ∈ root.addrs) :
    ¬ h.alloc.Unused x := by
  have hmem : x ∈ (h.books root).owned todo := List.mem_append_left _ hx
  rintro (hpool | hge)
  · have hdisj := (List.nodup_append.mp hh.owns.nodup).2.2 x hx x
    exact hdisj (by simp [books, hpool]) rfl
  · have hlt := hh.owns.below x hmem
    omega

/-- The new nodes of a split are published. -/
theorem publish_frame {h h₁ h' : Heap} {root : Node} {key : Bytes} {path : List Ctx} {a l clock : ℕ} {asc : Ascent}
    (hh : h.Holds root []) (hf : Found h root key path a) (hfenced : h.fenced = true) (hfenced₁ : h₁.fenced = h.fenced)
    (hpending₁ : h₁.pending = h.pending) (hnodes₁ : h₁.nodes = h.nodes) (hle : h.alloc.next ≤ h₁.alloc.next)
    (hleaves : ∀ x, ¬ h.alloc.Unused x → h₁.leaves x = h.leaves x) (hgrows : Grows h₁ asc.heap)
    (hpub : publish clock a l (pathOf path) asc = some h') :
    Frame h h' ((before path []).map Page.addr) a clock := by
  have hkept : ∀ x, ¬ h.alloc.Unused x → asc.heap.leaves x = h.leaves x := fun x hx => by rw [hgrows.leaves, hleaves x hx]
  have hrep : Rep asc.heap root := hh.rep.frame fun x hx => by
    have hbelow := Nat.lt_of_lt_of_le (hh.owns.root_below x hx) hle
    exact ⟨by rw [hgrows.nodes x hbelow, hnodes₁], by rw [hkept x (hh.used hx)]⟩
  have hpred := hf.predecessor hh hrep (Nat.le_trans hle hgrows.next)
  have hsame := hgrows.same
  have hfenced₂ : asc.heap.fenced = h.fenced := by rw [hsame, ← hfenced₁]
  have hpending₂ : asc.heap.pending = h.pending := by rw [hsame, ← hpending₁]
  cases asc with
  | placed h₂ saved up =>
    have hpred' : h₂.findPredecessor h₂.alloc.next (pathOf path) = _ := hpred
    simp only [publish, hpred', Option.some.injEq] at hpub
    subst hpub
    exact frame_of_relink hfenced hfenced₂ hpending₂ hkept (calm_replaceRoot _ clock saved up)
  | top h₂ pair sep =>
    have hpred' : h₂.findPredecessor h₂.alloc.next (pathOf path) = _ := hpred
    simp only [publish, hpred'] at hpub
    obtain ⟨h₃, hroot, rfl⟩ := Option.map_eq_some_iff.mp hpub
    exact frame_of_relink hfenced hfenced₂ hpending₂ hkept (calm_newRoot hroot)

theorem place_frame {h h' : Heap} {root : Node} {e : KeyValuePair} {path : List Ctx} {a clock : ℕ}
    (hh : h.Holds root []) (hf : Found h root e.key path a) (hfenced : h.fenced = true)
    (hplace : h.place clock e = some h') : Frame h h' ((before path []).map Page.addr) a clock := by
  unfold place at hplace
  simp only [hf.find, Option.bind_some] at hplace
  split at hplace
  · next page hroom =>
    have hkept : ∀ x, ¬ h.alloc.Unused x →
        (h.newLeaf.2.setLeaf h.newLeaf.1 ⟨page, (h.leaves a).next⟩).leaves x = h.leaves x := fun x hx => newLeaf_used _ hx
    have hrep : Rep (h.newLeaf.2.setLeaf h.newLeaf.1 ⟨page, (h.leaves a).next⟩) root :=
      hh.rep.frame fun x hx => ⟨rfl, by rw [hkept x (hh.used hx)]⟩
    rw [hf.predecessor hh hrep h.alloc.newLeaf_takes.next_le] at hplace
    obtain ⟨c, path, rfl⟩ := List.exists_cons_of_ne_nil hf.nonempty
    simp only [pathOf, List.map_cons, Option.some.injEq] at hplace
    subst hplace
    refine frame_of_relink hfenced ?_ ?_ hkept (calm_setNode _ _ _)
    · rfl
    · rfl
  · next hroom =>
    -- The copy that had no room, the two halves, and then the ascent.
    obtain ⟨asc, hasc, hpub⟩ := Option.bind_eq_some_iff.mp hplace
    have houtside := prepareLeaves_copyLeaf_outside h a
      (((h.copyLeaf a).leaves a).page.splitLeaf ((h.leaves a).page.find e.key) e)
    simp only [outside, Prod.mk.injEq] at houtside
    obtain ⟨hnodes, -, -, hpending, -⟩ := houtside
    refine publish_frame hh hf hfenced ?_ hpending hnodes ?_ ?_ (ascend_grows hasc) hpub
    · rfl
    · exact (h.alloc.newLeaf_takes.trans (h.alloc.newLeaf.2.newLeaf_takes.trans (Alloc.newLeaf_takes _))).next_le
    · intro x hx
      have hcopy : (h.copyLeaf a).leaves x = h.leaves x := newLeaf_used _ hx
      have hstill : ¬ (h.copyLeaf a).alloc.Unused x := newLeaf_still_used hx
      exact (prepareLeaves_used a _ hstill).trans hcopy

/-- What `Insert` leaves as it is in a tree with a fence source. -/
theorem insert_frame {h h' : Heap} {root : Node} {e : KeyValuePair} {path : List Ctx} {a clock : ℕ}
    (hh : h.Holds root []) (hf : Found h root e.key path a) (hfenced : h.fenced = true)
    (hins : h.insert clock e = some h') : Frame h h' ((before path []).map Page.addr) a clock := by
  obtain ⟨h₁, hplace, rfl⟩ := Option.map_eq_some_iff.mp hins
  have hframe := place_frame hh hf hfenced hplace
  rw [if_pos hframe.fenced]
  exact hframe

/-! ## The leaves that a walk comes to -/

/-- A walk that stands at the pointer comes to these pages: leaves that were retired no earlier than `readTs`, and then
the rest of the chain. -/
inductive Trail (h : Heap) (chain : List Page) (readTs : ℕ) : Option ℕ → List Page → Prop
  | linked {as bs : List Page} (hchain : chain = as ++ bs) : Trail h chain readTs (bs.head?.map Page.addr) bs
  | stale {p : Page} {ps : List Page} (hpending : ∃ r ∈ h.pending, r.addr = p.addr ∧ readTs ≤ r.fenceTs)
      (hpage : (h.leaves p.addr).page = p.leaf) (hnext : Trail h chain readTs (h.leaves p.addr).next ps) :
      Trail h chain readTs (some p.addr) (p :: ps)

theorem Holds.page_eq {h : Heap} {root : Node} {todo : List Retired} (hh : h.Holds root todo) {p : Page}
    (hp : p ∈ root.chain []) : (h.leaves p.addr).page = p.leaf := hh.rep.chain [] p hp

/-- The pointer behind a leaf of the chain. -/
theorem Holds.next_eq {h : Heap} {root : Node} {todo : List Retired} (hh : h.Holds root todo) {as bs : List Page} {p : Page}
    (hchain : root.chain [] = as ++ p :: bs) : (h.leaves p.addr).next = bs.head?.map Page.addr := by
  have hlinked := hh.linked
  rw [hchain, List.map_append, List.map_cons] at hlinked
  obtain ⟨m, -, -, hbs⟩ := hlinked.split
  cases bs with
  | nil => exact hbs
  | cons q bs => exact hbs.1

/-- The walk reads the leaf that it stands at, and follows its pointer. -/
theorem Trail.visit {h : Heap} {root : Node} {readTs a : ℕ} {ps : List Page} (hh : h.Holds root [])
    (ht : Trail h (root.chain []) readTs (some a) ps) :
    ∃ p ps', ps = p :: ps' ∧ p.addr = a ∧ (h.leaves a).page = p.leaf ∧
      Trail h (root.chain []) readTs (h.leaves a).next ps' := by
  generalize hpos : some a = pos at ht
  cases ht with
  | @linked as _ hchain =>
    cases ps with
    | nil => cases hpos
    | cons p bs =>
      obtain rfl : a = p.addr := by
        simpa using hpos
      refine ⟨p, bs, rfl, rfl, hh.page_eq (by rw [hchain]; simp), ?_⟩
      rw [hh.next_eq hchain]
      have hrest : root.chain [] = (as ++ [p]) ++ bs := by rw [hchain, List.append_assoc]; rfl
      exact .linked hrest
  | @stale p ps hpending hpage hnext =>
    obtain rfl : a = p.addr := Option.some.inj hpos
    exact ⟨p, ps, rfl, rfl, hpage, hnext⟩

theorem Trail.of_none {h : Heap} {chain : List Page} {readTs : ℕ} {ps : List Page} (ht : Trail h chain readTs none ps) :
    ps = [] := by
  generalize hpos : none = pos at ht
  cases ht with
  | linked hchain =>
    cases ps with
    | nil => rfl
    | cons p bs => cases hpos
  | stale hpending hpage hnext => cases hpos

/-- What is queued is in use. -/
theorem Holds.pending_used {h : Heap} {root : Node} (hh : h.Holds root []) {r : PendingRetire} (hr : r ∈ h.pending) :
    ¬ h.alloc.Unused r.addr ∧ r.addr ∉ root.addrs := by
  have hin : r.addr ∈ h.pending.map PendingRetire.addr := List.mem_map_of_mem hr
  have hmem : r.addr ∈ (h.books root).owned [] := by
    simp only [Retire.Table.owned, books, List.mem_append]
    exact Or.inr (Or.inr (Or.inl hin))
  have hnodup := hh.owns.nodup
  simp only [Retire.Table.owned, books, List.map_nil, List.nil_append] at hnodup
  obtain ⟨-, hrest, hlinked⟩ := List.nodup_append.mp hnodup
  obtain ⟨-, -, hqueue⟩ := List.nodup_append.mp hrest
  refine ⟨?_, fun hroot => hlinked _ hroot _ (List.mem_append_left _ hin) rfl⟩
  rintro (hpool | hge)
  · exact hqueue _ hin _ (List.mem_append_right _ hpool) rfl
  · have hlt := hh.owns.below _ hmem
    omega

/-- The page of the path's leaf. -/
def pageOf (h : Heap) (path : List Ctx) (a : ℕ) : Page := ⟨sepOf path [], a, (h.leaves a).page⟩

/-- The leaf that an insertion replaces still leads to the leaves behind it. -/
theorem Frame.stale {h h' : Heap} {root root' : Node} {key : Bytes} {path : List Ctx} {a clock readTs : ℕ}
    {new : List Page} (hframe : Frame h h' ((before path []).map Page.addr) a clock) (hh : h.Holds root [])
    (hf : Found h root key path a) (hle : readTs ≤ clock)
    (hchain' : root'.chain [] = before path [] ++ new ++ after path) :
    Trail h' (root'.chain []) readTs (some a) (pageOf h path a :: after path) := by
  have hchain : root.chain [] = before path [] ++ pageOf h path a :: after path := hf.chain
  have hnodup := hh.owns.root_nodup.sublist (chain_sublist root [])
  rw [hchain, List.map_append, List.map_cons] at hnodup
  have ha : a ∈ root.addrs := (chain_sublist root []).subset (by rw [hchain]; simp [pageOf])
  have hbefore : a ∉ (before path []).map Page.addr := fun hmem =>
    (List.nodup_append.mp hnodup).2.2 a hmem a List.mem_cons_self rfl
  have hkept := hframe.leaves a (hh.used ha) hbefore
  have hnext := hh.next_eq hchain
  refine .stale (p := pageOf h path a) ⟨_, hframe.retired, rfl, hle⟩ ?_ ?_
  · exact congrArg Leaf.page hkept
  · have hpointer : (h'.leaves (pageOf h path a).addr).next = (after path).head?.map Page.addr :=
      (congrArg Leaf.next hkept).trans hnext
    rw [hpointer]
    exact .linked hchain'

/-- After an insertion the walk comes to the same pages, or to the new ones in the place of the old one. -/
theorem Trail.insert {h h' : Heap} {root root' : Node} {key : Bytes} {path : List Ctx} {a clock readTs : ℕ}
    {new ps : List Page} {pos : Option ℕ} (ht : Trail h (root.chain []) readTs pos ps) (hh : h.Holds root [])
    (hf : Found h root key path a) (hframe : Frame h h' ((before path []).map Page.addr) a clock) (hle : readTs ≤ clock)
    (hchain' : root'.chain [] = before path [] ++ new ++ after path) :
    ∃ ps', Trail h' (root'.chain []) readTs pos ps' ∧
      (ps' = ps ∨ ∃ qs, ps = qs ++ pageOf h path a :: after path ∧ ps' = qs ++ new ++ after path) := by
  have hchain : root.chain [] = before path [] ++ pageOf h path a :: after path := hf.chain
  induction ht with
  | @linked as bs hsplit =>
    rcases List.append_eq_append_iff.mp (hsplit.symm.trans hchain) with ⟨mid, hbefore, hbs⟩ | ⟨mid, has, hbs⟩
    · cases mid with
      | nil =>
        have hcons : bs = pageOf h path a :: after path := hbs
        subst hcons
        exact ⟨_, hframe.stale hh hf hle hchain', Or.inl rfl⟩
      | cons q mid =>
        have hrest : root'.chain [] = as ++ ((q :: mid) ++ new ++ after path) := by
          rw [hchain', hbefore]
          simp only [List.append_assoc]
        have hlinked : Trail h' (root'.chain []) readTs (some q.addr) ((q :: mid) ++ new ++ after path) := .linked hrest
        rw [hbs]
        exact ⟨_, hlinked, Or.inr ⟨q :: mid, rfl, rfl⟩⟩
    · cases mid with
      | nil =>
        have hcons : bs = pageOf h path a :: after path := hbs.symm
        subst hcons
        exact ⟨_, hframe.stale hh hf hle hchain', Or.inl rfl⟩
      | cons q mid =>
        have hafter : after path = mid ++ bs := (List.cons.inj hbs).2
        have hrest : root'.chain [] = (before path [] ++ new ++ mid) ++ bs := by
          rw [hchain', hafter]
          simp only [List.append_assoc]
        exact ⟨bs, .linked hrest, Or.inl rfl⟩
  | @stale p ps hpending hpage hnext ih =>
    obtain ⟨r, hr, haddr, hfence⟩ := hpending
    obtain ⟨hused, hgone⟩ := hh.pending_used hr
    rw [haddr] at hused hgone
    have hbefore : p.addr ∉ (before path []).map Page.addr := by
      intro hmem
      refine hgone ((chain_sublist root []).subset ?_)
      rw [hchain, List.map_append]
      exact List.mem_append_left _ hmem
    have hkept := hframe.leaves p.addr hused hbefore
    obtain ⟨ps', ht', hcases⟩ := ih
    refine ⟨p :: ps', .stale ⟨r, hframe.pending hr, haddr, hfence⟩ (by rw [hkept, hpage]) (by rwa [hkept]), ?_⟩
    rcases hcases with rfl | ⟨qs, rfl, rfl⟩
    · exact Or.inl rfl
    · exact Or.inr ⟨p :: qs, rfl, rfl⟩

/-- A drain up to `readTs` spares the replaced leaves. -/
theorem Trail.drain {h : Heap} {chain : List Page} {readTs minTs : ℕ} {ps : List Page} {pos : Option ℕ}
    (ht : Trail h chain readTs pos ps) (hle : minTs ≤ readTs) : Trail (h.drainRetired minTs) chain readTs pos ps := by
  induction ht with
  | linked hchain => exact .linked hchain
  | stale hpending hpage _ ih =>
    obtain ⟨r, hr, haddr, hfence⟩ := hpending
    refine .stale ⟨r, ?_, haddr, hfence⟩ hpage ih
    unfold drainRetired withBooks Retire.Table.drainRetired
    split
    · exact hr
    · exact List.mem_filter.mpr ⟨hr, by simp; omega⟩

/-- An insertion in place: the new pages stand for the old one in the chain, and in any other list of pages that ends
with the chain behind it. -/
theorem insert_replaces {h : Heap} {root : Node} {e : KeyValuePair} (hh : h.Holds root [])
    (hkeyed : Keyed (· ≤ ·) (root.chain [])) (hfit : h.Fits e) (hplace : h.InPlace e) (clock : ℕ) :
    ∃ h' root' path a new, h.insert clock e = some h' ∧ h'.Holds root' [] ∧ Found h root e.key path a ∧
      Keyed (· ≤ ·) (root'.chain []) ∧ root'.chain [] = before path [] ++ new ++ after path ∧
      ∀ as, Keyed (· ≤ ·) (as ++ h.pageOf path a :: after path) → Keyed (· ≤ ·) (as ++ new ++ after path) ∧
        (entriesOf (as ++ new ++ after path)).Perm (e :: entriesOf (as ++ h.pageOf path a :: after path)) := by
  obtain ⟨h', root', path, a, hins, hholds, hf, hchain⟩ := insert_chain hh hfit clock
  obtain ⟨hsep, hbelow⟩ := hf.route hh hkeyed
  have hin : (h.leaves a).page.InPlace e := hplace (a, _) hf.find
  have hall : ∀ as, Keyed (· ≤ ·) (as ++ h.pageOf path a :: after path) →
      Keyed (· ≤ ·) (as ++ (insertLeaf e h.alloc a (h.leaves a).page).grown.chain (sepOf path []) ++ after path) ∧
        (entriesOf (as ++ (insertLeaf e h.alloc a (h.leaves a).page).grown.chain (sepOf path []) ++ after path)).Perm
          (e :: entriesOf (as ++ h.pageOf path a :: after path)) := by
    intro as has
    have hpages : Keyed (· ≤ ·) (as ++ ⟨sepOf path [], a, (h.leaves a).page⟩ :: after path) := has
    have hsorted := hpages.sorted ⟨sepOf path [], a, (h.leaves a).page⟩ (by simp)
    have hnew := hpages.insert h.alloc (fun _ _ hab => hab) (fun _ _ hab => le_of_lt hab)
      (fun _ _ _ hab hbc => le_trans hab hbc) hin (divides_le hsorted hin) hsep hbelow
    exact hnew
  refine ⟨h', root', path, a, _, hins, hholds, hf, ?_, hchain, hall⟩
  rw [hf.chain] at hkeyed
  rw [hchain]
  exact (hall _ hkeyed).1

end Kvdb.Heap
