import Kvdb.Engine.RangeScan
import Kvdb.Lib.Runs
import Kvdb.MemTable.ChainWalk

/-! # A range scan that copies a memtable during insertions

`RangeScan` walks along the leaves of the active memtable and copies those within its bounds, while the writer goes on
inserting and draining. The copies come from different moments; together they still are in key order and hold every
version that the memtable had when the walk began, each once, and besides only versions that came in during the walk
(`materialize_during_inserts`). -/
namespace Kvdb.ScanWalk
set_option autoImplicit false

open Kvdb.Runs Kvdb.Nodes
open Kvdb.Engine (bounded)
open Kvdb.MaterializedMemTableSource (leafInRange)

inductive Phase where
  | idle
  | loaded
  | registered
  | walking
  deriving DecidableEq

/-- A memtable with a fence source, the writer between `MinActiveTS` and `DrainRetired` (`measured`), and a scan with
its timestamp, its pointer into the chain and the leaves it has copied. -/
structure State where
  heap : Heap
  clock : ℕ
  measured : Option ℕ
  phase : Phase
  readTs : ℕ
  leaf : Option ℕ
  copied : List (List KeyValuePair)

inductive Action where
  | advance (ts : ℕ)
  | insert (e : KeyValuePair)
  | measure (minActiveTs : ℕ)
  | drain
  | load
  | acquire
  | begin
  | visit
  | release
  deriving DecidableEq

def init (clock : ℕ) : State := ⟨Heap.new true, clock, none, .idle, 0, none, []⟩

def State.active (s : State) : Bool := s.phase = .registered || s.phase = .walking

/-- `measure` takes any minimum that is not above the timestamp of a registered scan. -/
def step (lower upper : RangeBound) (s : State) : Action → Option State
  | .advance ts => if s.clock < ts then some { s with clock := ts } else none
  | .insert e =>
    if s.measured = none then (s.heap.insert s.clock e).map fun h => { s with heap := h } else none
  | .measure minTs =>
    if s.active = true → minTs ≤ s.readTs then some { s with measured := some minTs } else none
  | .drain => s.measured.map fun minTs => { s with heap := s.heap.drainRetired minTs, measured := none }
  | .load => if s.phase = .idle then some { s with phase := .loaded, readTs := s.clock } else none
  | .acquire => if s.phase = .loaded then some { s with phase := .registered } else none
  | .begin =>
    if s.phase = .registered then some { s with phase := .walking, leaf := some s.heap.firstLeaf, copied := [] } else none
  | .visit =>
    if s.phase = .walking then
      s.leaf.map fun a =>
        let slots := (s.heap.leaves a).page.slots
        { s with
          leaf := (s.heap.leaves a).next
          copied := if leafInRange lower upper slots then s.copied ++ [slots] else s.copied }
    else none
  | .release => if s.phase = .walking then some { s with phase := .idle } else none

/-- Every entry goes to its place, and the separators fit the nodes. -/
def Orderly (s : State) : Action → Prop
  | .insert e => s.heap.Fits e ∧ s.heap.InPlace e
  | _ => True

instance decidableOrderly (s : State) : (a : Action) → Decidable (Orderly s a)
  | .insert e => inferInstanceAs (Decidable (s.heap.Fits e ∧ s.heap.InPlace e))
  | .advance _ | .measure _ | .drain | .load | .acquire | .begin | .visit | .release => isTrue trivial

/-- The entries that come in, in order. -/
def inserted (acts : List Action) : List KeyValuePair :=
  acts.filterMap fun a =>
    match a with
    | .insert e => some e
    | _ => none

/-! ## The invariant -/

/-- The memory holds a tree with its pages in key order. -/
structure Tree (s : State) (root : Node) : Prop where
  holds : s.heap.Holds root []
  keyed : Keyed (· ≤ ·) (root.chain [])
  fenced : s.heap.fenced = true
  clock : s.phase ≠ .idle → s.readTs ≤ s.clock

/-- The scan has copied the pages of `done` and comes to those of `ps`: all versions of `start`, and some of `ins`. A
minimum that the writer has measured is not above the timestamp of the scan, or the scan has come to no replaced leaf
since. -/
structure Copying (lower upper : RangeBound) (start ins : List KeyValuePair) (s : State) (root : Node)
    (done ps : List Page) : Prop where
  phase : s.phase = .walking
  trail : Heap.Trail s.heap (root.chain []) s.readTs s.leaf ps
  keyed : Keyed (· ≤ ·) (done ++ ps)
  copied : s.copied = (done.map fun p => p.leaf.slots).filter (leafInRange lower upper)
  entries : ∃ added, added.Sublist ins ∧ (entriesOf (done ++ ps)).Perm (start ++ added)
  measured : ∀ minTs, s.measured = some minTs → minTs ≤ s.readTs ∨
    ∃ as, root.chain [] = as ++ ps ∧ s.leaf = ps.head?.map Page.addr

variable {lower upper : RangeBound} {start ins : List KeyValuePair} {s t : State} {root : Node} {done ps : List Page}

theorem tree_init (clock : ℕ) : Tree (init clock) (.internal 1 [] [.leaf 0 ⟨[]⟩]) where
  holds := Heap.new_holds true
  keyed := Heap.new_keyed _
  fenced := rfl
  clock := fun hphase => absurd rfl hphase

theorem Tree.insert {e : KeyValuePair} (h : Tree s root) (hok : Orderly s (.insert e))
    (hstep : step lower upper s (.insert e) = some t) :
    ∃ h' root' path a new, t = { s with heap := h' } ∧ s.measured = none ∧ s.heap.insert s.clock e = some h' ∧
      Tree { s with heap := h' } root' ∧ Heap.Found s.heap root e.key path a ∧
      root'.chain [] = before path [] ++ new ++ after path ∧
      ∀ as, Keyed (· ≤ ·) (as ++ s.heap.pageOf path a :: after path) → Keyed (· ≤ ·) (as ++ new ++ after path) ∧
        (entriesOf (as ++ new ++ after path)).Perm (e :: entriesOf (as ++ s.heap.pageOf path a :: after path)) := by
  obtain ⟨h', root', path, a, new, hins, hholds, hf, hkeyed, hchain, hall⟩ :=
    Heap.insert_replaces h.holds h.keyed hok.1 hok.2 s.clock
  simp only [step, Option.ite_none_right_eq_some] at hstep
  obtain ⟨hmeasured, hstep⟩ := hstep
  rw [hins] at hstep
  cases hstep
  have hfenced := (Heap.insert_frame h.holds hf h.fenced hins).fenced
  exact ⟨h', root', path, a, new, rfl, hmeasured, hins, ⟨hholds, hkeyed, hfenced, h.clock⟩, hf, hchain, hall⟩

/-- Every step keeps the tree. -/
theorem Tree.step {a : Action} (h : Tree s root) (hok : Orderly s a) (hstep : ScanWalk.step lower upper s a = some t) :
    ∃ root', Tree t root' := by
  cases a with
  | advance ts =>
    simp only [ScanWalk.step, Option.ite_none_right_eq_some, Option.some.injEq] at hstep
    obtain ⟨hlt, rfl⟩ := hstep
    exact ⟨root, h.holds, h.keyed, h.fenced, fun hphase => Nat.le_trans (h.clock hphase) (Nat.le_of_lt hlt)⟩
  | insert e =>
    obtain ⟨h', root', path, a, new, rfl, -, -, htree, -⟩ := h.insert hok hstep
    exact ⟨root', htree⟩
  | measure minTs =>
    simp only [ScanWalk.step, Option.ite_none_right_eq_some, Option.some.injEq] at hstep
    obtain ⟨-, rfl⟩ := hstep
    exact ⟨root, h.holds, h.keyed, h.fenced, h.clock⟩
  | drain =>
    obtain ⟨minTs, -, rfl⟩ := Option.map_eq_some_iff.mp hstep
    exact ⟨root, h.holds.drain minTs, h.keyed, h.fenced, h.clock⟩
  | load =>
    simp only [ScanWalk.step, Option.ite_none_right_eq_some, Option.some.injEq] at hstep
    obtain ⟨-, rfl⟩ := hstep
    exact ⟨root, h.holds, h.keyed, h.fenced, fun _ => Nat.le_refl _⟩
  | acquire =>
    simp only [ScanWalk.step, Option.ite_none_right_eq_some, Option.some.injEq] at hstep
    obtain ⟨hphase, rfl⟩ := hstep
    exact ⟨root, h.holds, h.keyed, h.fenced, fun _ => h.clock (by rw [hphase]; decide)⟩
  | begin =>
    simp only [ScanWalk.step, Option.ite_none_right_eq_some, Option.some.injEq] at hstep
    obtain ⟨hphase, rfl⟩ := hstep
    exact ⟨root, h.holds, h.keyed, h.fenced, fun _ => h.clock (by rw [hphase]; decide)⟩
  | visit =>
    simp only [ScanWalk.step, Option.ite_none_right_eq_some] at hstep
    obtain ⟨hphase, hstep⟩ := hstep
    obtain ⟨a, -, rfl⟩ := Option.map_eq_some_iff.mp hstep
    exact ⟨root, h.holds, h.keyed, h.fenced, h.clock⟩
  | release =>
    simp only [ScanWalk.step, Option.ite_none_right_eq_some, Option.some.injEq] at hstep
    obtain ⟨-, rfl⟩ := hstep
    exact ⟨root, h.holds, h.keyed, h.fenced, fun hphase => absurd rfl hphase⟩

theorem Copying.begin (h : Tree s root) (hstep : ScanWalk.step lower upper s .begin = some t) :
    Tree t root ∧ Copying lower upper s.heap.exportAll [] t root [] (root.chain []) := by
  simp only [ScanWalk.step, Option.ite_none_right_eq_some, Option.some.injEq] at hstep
  obtain ⟨hphase, rfl⟩ := hstep
  have hhead : some s.heap.firstLeaf = (root.chain []).head?.map Page.addr := by
    obtain ⟨d, hshape⟩ := h.holds.shape
    obtain ⟨p, ps, hchain, -⟩ := hshape.chain_head []
    have hlinked := h.holds.linked
    rw [hchain] at hlinked ⊢
    exact hlinked.1
  refine ⟨⟨h.holds, h.keyed, h.fenced, fun _ => h.clock (by rw [hphase]; decide)⟩, rfl, ?_, h.keyed, rfl, ?_, ?_⟩
  · show Heap.Trail s.heap (root.chain []) s.readTs (some s.heap.firstLeaf) (root.chain [])
    rw [hhead]
    exact .linked (List.nil_append _).symm
  · refine ⟨[], List.Sublist.refl _, ?_⟩
    rw [h.holds.exportAll_eq, List.append_nil, List.nil_append]
  · exact fun _ _ => Or.inr ⟨[], rfl, hhead⟩

theorem Copying.insert {e : KeyValuePair} (hc : Copying lower upper start ins s root done ps) (h : Tree s root)
    (hok : Orderly s (.insert e)) (hstep : ScanWalk.step lower upper s (.insert e) = some t) :
    ∃ root' ps', Tree t root' ∧ Copying lower upper start (ins ++ [e]) t root' done ps' := by
  obtain ⟨h', root', path, a, new, rfl, hmeasured, hins, htree, hf, hchain, hall⟩ := h.insert hok hstep
  have hphase : s.phase ≠ .idle := by
    rw [hc.phase]
    decide
  have hframe := Heap.insert_frame h.holds hf h.fenced hins
  obtain ⟨ps', htrail, hcases⟩ := hc.trail.insert h.holds hf hframe (h.clock hphase) hchain
  obtain ⟨added, hadded, hentries⟩ := hc.entries
  have hnone : ∀ minTs, ({ s with heap := h' } : State).measured = some minTs → minTs ≤ s.readTs ∨
      ∃ as, root'.chain [] = as ++ ps' ∧ s.leaf = ps'.head?.map Page.addr := by
    intro minTs hm
    have hsome : s.measured = some minTs := hm
    rw [hmeasured] at hsome
    cases hsome
  refine ⟨root', ps', htree, hc.phase, htrail, ?_, hc.copied, ?_, hnone⟩
  · rcases hcases with rfl | ⟨qs, rfl, rfl⟩
    · exact hc.keyed
    · have hkeyed := hc.keyed
      rw [← List.append_assoc] at hkeyed
      simpa only [List.append_assoc] using (hall (done ++ qs) hkeyed).1
  · rcases hcases with rfl | ⟨qs, rfl, rfl⟩
    · exact ⟨added, hadded.trans (List.sublist_append_left ins [e]), hentries⟩
    · have hkeyed := hc.keyed
      rw [← List.append_assoc] at hkeyed hentries
      refine ⟨added ++ [e], hadded.append (List.Sublist.refl _), ?_⟩
      have hnew := (hall (done ++ qs) hkeyed).2
      rw [List.append_assoc, List.append_assoc, ← List.append_assoc qs] at hnew
      exact (hnew.trans (hentries.cons e)).trans ((List.perm_append_singleton e _).symm.trans
        (List.append_assoc start added [e] ▸ List.Perm.refl _))

theorem Copying.visit (hc : Copying lower upper start ins s root done ps) (h : Tree s root)
    (hstep : ScanWalk.step lower upper s .visit = some t) :
    ∃ done' ps', Tree t root ∧ Copying lower upper start ins t root done' ps' := by
  simp only [ScanWalk.step, Option.ite_none_right_eq_some] at hstep
  obtain ⟨-, hstep⟩ := hstep
  obtain ⟨a, ha, rfl⟩ := Option.map_eq_some_iff.mp hstep
  have htrail := hc.trail
  rw [ha] at htrail
  obtain ⟨p, ps', rfl, rfl, hpage, hnext⟩ := htrail.visit h.holds
  have hdone : done ++ p :: ps' = (done ++ [p]) ++ ps' := by simp
  refine ⟨done ++ [p], ps', ⟨h.holds, h.keyed, h.fenced, h.clock⟩, hc.phase, hnext, ?_, ?_, ?_, ?_⟩
  · rw [← hdone]
    exact hc.keyed
  · simp only [hpage, hc.copied, List.map_append, List.filter_append, List.map_cons, List.map_nil]
    split
    · next hin => rw [List.filter_cons_of_pos hin, List.filter_nil]
    · next hout => rw [List.filter_cons_of_neg hout, List.filter_nil, List.append_nil]
  · rw [← hdone]
    exact hc.entries
  · intro minTs hm
    rcases hc.measured minTs hm with hle | ⟨as, hchain, -⟩
    · exact Or.inl hle
    · right
      refine ⟨as ++ [p], by rw [hchain, List.append_assoc]; rfl, ?_⟩
      exact h.holds.next_eq hchain

/-- Every step but `release` takes the scan on. -/
theorem Copying.step {a : Action} (hc : Copying lower upper start ins s root done ps) (h : Tree s root)
    (hok : Orderly s a) (hstep : ScanWalk.step lower upper s a = some t) (hkeep : a ≠ .release) :
    ∃ root' done' ps', Tree t root' ∧ Copying lower upper start (ins ++ inserted [a]) t root' done' ps' := by
  cases a with
  | advance ts =>
    simp only [ScanWalk.step, Option.ite_none_right_eq_some, Option.some.injEq] at hstep
    obtain ⟨hlt, rfl⟩ := hstep
    refine ⟨root, done, ps, ⟨h.holds, h.keyed, h.fenced, fun hphase => ?_⟩, ?_⟩
    · exact Nat.le_trans (h.clock hphase) (Nat.le_of_lt hlt)
    · rw [show inserted [.advance ts] = [] from rfl, List.append_nil]
      exact ⟨hc.phase, hc.trail, hc.keyed, hc.copied, hc.entries, hc.measured⟩
  | insert e =>
    obtain ⟨root', ps', htree, hcopying⟩ := hc.insert h hok hstep
    exact ⟨root', done, ps', htree, hcopying⟩
  | measure minTs =>
    simp only [ScanWalk.step, Option.ite_none_right_eq_some, Option.some.injEq] at hstep
    obtain ⟨hle, rfl⟩ := hstep
    refine ⟨root, done, ps, ⟨h.holds, h.keyed, h.fenced, h.clock⟩, ?_⟩
    rw [show inserted [.measure minTs] = [] from rfl, List.append_nil]
    refine ⟨hc.phase, hc.trail, hc.keyed, hc.copied, hc.entries, ?_⟩
    intro ts hts
    cases hts
    exact Or.inl (hle (by simp [State.active, hc.phase]))
  | drain =>
    obtain ⟨minTs, hmeasured, rfl⟩ := Option.map_eq_some_iff.mp hstep
    refine ⟨root, done, ps, ⟨h.holds.drain minTs, h.keyed, h.fenced, h.clock⟩, ?_⟩
    rw [show inserted [.drain] = [] from rfl, List.append_nil]
    refine ⟨hc.phase, ?_, hc.keyed, hc.copied, hc.entries, fun ts hts => by cases hts⟩
    rcases hc.measured minTs hmeasured with hle | ⟨as, hchain, hleaf⟩
    · exact hc.trail.drain hle
    · show Heap.Trail (s.heap.drainRetired minTs) (root.chain []) s.readTs s.leaf ps
      rw [hleaf]
      exact .linked hchain
  | load =>
    simp only [ScanWalk.step, hc.phase] at hstep
    cases hstep
  | acquire =>
    simp only [ScanWalk.step, hc.phase] at hstep
    cases hstep
  | begin =>
    simp only [ScanWalk.step, hc.phase] at hstep
    cases hstep
  | visit =>
    obtain ⟨done', ps', htree, hcopying⟩ := hc.visit h hstep
    rw [show inserted [.visit] = [] from rfl, List.append_nil]
    exact ⟨root, done', ps', htree, hcopying⟩
  | release => exact absurd rfl hkeep

theorem Copying.run {acts : List Action} (hc : Copying lower upper start ins s root done ps) (h : Tree s root)
    (hrun : Run (ScanWalk.step lower upper) Orderly s acts t) (hkeep : Action.release ∉ acts) :
    ∃ root' done' ps', Tree t root' ∧ Copying lower upper start (ins ++ inserted acts) t root' done' ps' := by
  induction hrun generalizing ins root done ps with
  | nil s =>
    rw [show inserted [] = [] from rfl, List.append_nil]
    exact ⟨root, done, ps, h, hc⟩
  | @cons s u t a acts hok hstep _ ih =>
    rw [List.mem_cons, not_or] at hkeep
    obtain ⟨root₁, done₁, ps₁, htree, hcopying⟩ := hc.step h hok hstep (Ne.symm hkeep.1)
    obtain ⟨root', done', ps', htree', hcopying'⟩ := ih hcopying htree hkeep.2
    have hacts : inserted (a :: acts) = inserted [a] ++ inserted acts := by
      rw [inserted, inserted, inserted, ← List.filterMap_append, List.singleton_append]
    rw [hacts, ← List.append_assoc]
    exact ⟨root', done', ps', htree', hcopying'⟩

theorem tree_of_run {acts : List Action} {clock : ℕ} (hrun : Run (ScanWalk.step lower upper) Orderly (init clock) acts s) :
    ∃ root, Tree s root :=
  Run.invariant (I := fun s => ∃ root, Tree s root) (fun _ _ _ hok hstep ⟨_, h⟩ => h.step hok hstep) hrun
    ⟨_, tree_init clock⟩

/-- A scan whose walk goes on while the writer inserts and drains has in the end, within its bounds, the versions that
the memtable had when the walk began, each as often as it was there, and some that came in during the walk; the copied
leaves are in key order. -/
theorem materialize_during_inserts (lower upper : RangeBound) (clock : ℕ) (before acts : List Action)
    (s₀ s₁ s : State) (hbefore : Run (ScanWalk.step lower upper) Orderly (init clock) before s₀)
    (hbegin : ScanWalk.step lower upper s₀ .begin = some s₁)
    (hwalk : Run (ScanWalk.step lower upper) Orderly s₁ acts s) (hkeep : Action.release ∉ acts) (hend : s.leaf = none) :
    s.copied.flatten.Pairwise KeyLe ∧
      ∃ added, added.Sublist (inserted acts) ∧
        (bounded lower upper s.copied.flatten).Perm (bounded lower upper (s₀.heap.exportAll ++ added)) := by
  obtain ⟨root₀, htree₀⟩ := tree_of_run hbefore
  obtain ⟨htree₁, hc₁⟩ := Copying.begin htree₀ hbegin
  obtain ⟨root, done, ps, htree, hc⟩ := hc₁.run htree₁ hwalk hkeep
  have hps : ps = [] := by
    have htrail := hc.trail
    rw [hend] at htrail
    exact htrail.of_none
  subst hps
  obtain ⟨added, hadded, hentries⟩ := hc.entries
  have hkeyed := hc.keyed
  rw [List.append_nil] at hkeyed hentries
  have hsorted := hkeyed.pairwise fun _ _ hab => hab
  rw [List.nil_append] at hadded
  have hpages : entriesOf done = (done.map fun p => p.leaf.slots).flatten := List.flatMap_def
  rw [hpages] at hsorted hentries
  obtain ⟨hwithin, hacross⟩ := List.pairwise_flatten.mp hsorted
  rw [hc.copied]
  constructor
  · exact List.pairwise_flatten.mpr
      ⟨fun page hpage => hwithin page (List.mem_of_mem_filter hpage), hacross.sublist List.filter_sublist⟩
  · refine ⟨added, hadded, ?_⟩
    rw [Engine.bounded_pages hwithin]
    exact hentries.filter _

/-! ## A run -/

def twoLeaves : List Action :=
  [.advance 1, .insert ⟨[2], List.replicate 2040 0, 1, false⟩, .advance 2,
    .insert ⟨[1], List.replicate 2040 0, 2, false⟩, .load, .acquire]

/-- A third key comes into the second leaf while the scan stands there, and the replaced leaf is read. -/
def walkOn : List Action :=
  [.visit, .advance 3, .insert ⟨[3], [], 3, false⟩, .measure 2, .drain, .visit]

theorem materialize_during_inserts_walkOn :
    ∃ s₀ s₁ s, Run (ScanWalk.step .unbounded .unbounded) Orderly (init 0) twoLeaves s₀ ∧
      ScanWalk.step .unbounded .unbounded s₀ .begin = some s₁ ∧
      Run (ScanWalk.step .unbounded .unbounded) Orderly s₁ walkOn s ∧ s.leaf = none ∧ s.copied.flatten.Pairwise KeyLe ∧
      ∃ added, added.Sublist (inserted walkOn) ∧
        (bounded .unbounded .unbounded s.copied.flatten).Perm
          (bounded .unbounded .unbounded (s₀.heap.exportAll ++ added)) := by
  obtain ⟨s₀, hbefore, hnext⟩ : ∃ s₀, Run (ScanWalk.step .unbounded .unbounded) Orderly (init 0) twoLeaves s₀ ∧
      ((ScanWalk.step .unbounded .unbounded s₀ .begin).any fun s₁ =>
        (checked (ScanWalk.step .unbounded .unbounded) Orderly s₁ walkOn).any fun s => decide (s.leaf = none)) = true :=
    Run.exists_of_checked (by decide +kernel)
  obtain ⟨s₁, hbegin, hrest⟩ := (Option.any_eq_true _ _).mp hnext
  obtain ⟨s, hwalk, hend⟩ := Run.exists_of_checked hrest
  exact ⟨s₀, s₁, s, hbefore, hbegin, hwalk, hend,
    materialize_during_inserts .unbounded .unbounded 0 _ _ s₀ s₁ s hbefore hbegin hwalk (by decide) hend⟩

end Kvdb.ScanWalk
