import Kvdb.Engine.NodeReclaim
import Kvdb.MemTable.Descent

/-! # Lookups while the memtables change

Readers walk down with `FindLeaf` and take no lock while the writer inserts, queues and drains. As long as every entry
goes where its key belongs, the leaf that a walk ends at was the leaf of its key at a time within the walk, and its page
is the one it had then (`findLeaf_within_walk`). -/
namespace Kvdb.Descents
set_option autoImplicit false

open Kvdb.Runs Kvdb.Nodes Kvdb.Retire Kvdb.NodeReclaim

/-- The threads and the tables, with the leaf pages of each table in memory. -/
structure Memory (n : ℕ) where
  state : State n
  page : ℕ → ℕ → Option LeafPage

variable {n : ℕ}

def init (recovered : Bool) (clock n : ℕ) : Memory n :=
  ⟨NodeReclaim.init recovered clock n, fun i x => ((NodeReclaim.init recovered clock n).tables i).root.pageAt x⟩

/-- The leaf pages after a step to `s`. -/
def pages (m : Memory n) (s : State n) : Action n → ℕ → ℕ → Option LeafPage
  | .insert _ => fun i =>
    if i = m.state.active then (m.state.tables i).written (s.tables i) (m.page i) else m.page i
  | _ => m.page

def step (m : Memory n) (a : Action n) : Option (Memory n) :=
  (NodeReclaim.step m.state a).map fun s => ⟨s, pages m s a⟩

/-- A new entry goes to its place. -/
def EntryInPlace (m : Memory n) : Action n → Prop
  | .insert e => (m.state.tables m.state.active).InPlace e
  | _ => True

instance decidableEntryInPlace (m : Memory n) : (a : Action n) → Decidable (EntryInPlace m a)
  | .insert e => inferInstanceAs (Decidable ((m.state.tables m.state.active).InPlace e))
  | .advance _ | .retire | .selfDrain | .measure _ | .drain | .rotate | .recycle _ | .destroy _ | .reader _ _ => isTrue trivial

/-- A memtable without a fence source is drained only when it is not exposed, and every entry goes to its place. -/
def Orderly (m : Memory n) (a : Action n) : Prop := Clear m.state a ∧ EntryInPlace m a

instance decidableOrderly (m : Memory n) (a : Action n) : Decidable (Orderly m a) :=
  inferInstanceAs (Decidable (Clear m.state a ∧ EntryInPlace m a))

/-! ## The walk of a reader -/

/-- Reader `k` has only followed pointers of table `i` since the state `past` of a run of `acts` from `start` to `m`. -/
def Since (start : Memory n) (acts : List (Action n)) (m : Memory n) (k : Fin n) (i : ℕ) (past : Memory n) : Prop :=
  ∃ before after, acts = before ++ after ∧ Run step Orderly start before past ∧ Run step Orderly past after m ∧
    (∀ b, Action.reader k b ∈ after → ∃ validated, b = .follow validated) ∧
    ∃ y, (past.state.readers k).node = some (i, y)

/-- The leaf has been the one of the reader's key in table `i` within the walk. -/
def Seen (start : Memory n) (acts : List (Action n)) (m : Memory n) (k : Fin n) (i a : ℕ) (leaf : LeafPage) : Prop :=
  ∃ past, Since start acts m k i past ∧ (past.state.tables i).root.leafFor (m.state.readers k).key = some (a, leaf)

variable {start m m' : Memory n} {acts : List (Action n)} {a : Action n} {k : Fin n} {i x : ℕ}

theorem since_now (hrun : Run step Orderly start acts m) {y : ℕ} (hnode : (m.state.readers k).node = some (i, y)) :
    Since start acts m k i m := by
  refine ⟨acts, [], (List.append_nil acts).symm, hrun, .nil m, ?_, y, hnode⟩
  intro b hb
  cases hb

theorem Since.step {past : Memory n} (h : Since start acts m k i past) (hok : Orderly m a)
    (hstep : Descents.step m a = some m') (hfollows : ∀ b, a = .reader k b → ∃ validated, b = .follow validated) :
    Since start (acts ++ [a]) m' k i past := by
  obtain ⟨before, after, rfl, hbefore, hafter, hall, hnode⟩ := h
  refine ⟨before, after ++ [a], List.append_assoc _ _ _, hbefore, hafter.append (.cons hok hstep (.nil m')), ?_, hnode⟩
  intro b hb
  rcases List.mem_append.mp hb with hb | hb
  · exact hall b hb
  · exact hfollows b (List.mem_singleton.mp hb).symm

theorem Seen.step {leaf : LeafPage} (h : Seen start acts m k i x leaf) (hok : Orderly m a)
    (hstep : Descents.step m a = some m') (hfollows : ∀ b, a = .reader k b → ∃ validated, b = .follow validated)
    (hkey : (m'.state.readers k).key = (m.state.readers k).key) : Seen start (acts ++ [a]) m' k i x leaf := by
  obtain ⟨past, hsince, hleaf⟩ := h
  exact ⟨past, hsince.step hok hstep hfollows, by rw [hkey]; exact hleaf⟩

/-! ## The invariant -/

structure Walking (start : Memory n) (acts : List (Action n)) (m : Memory n) : Prop where
  run : Run step Orderly start acts m
  sound : Sound m.state
  stands : ∀ i, (m.state.tables i).Stands (m.page i)
  leads : ∀ k i x, (m.state.readers k).node = some (i, x) →
    Table.Leads (m.state.tables i) (m.page i) (m.state.readers k).key (Seen start acts m k i) x

theorem stands_new (fenced : Bool) : (Table.new fenced).Stands fun x => (Table.new fenced).root.pageAt x where
  shape := ⟨1, rfl, by decide, fun c hc => by rw [List.mem_singleton.mp hc]; trivial⟩
  keyed := Heap.new_keyed _
  page := fun _ _ => rfl

theorem walking_init (recovered : Bool) (clock n : ℕ) :
    Walking (init recovered clock n) [] (init recovered clock n) where
  run := .nil _
  sound := sound_init recovered clock n
  stands := fun _ => stands_new _
  leads := fun _ _ _ hnode => by cases hnode

theorem step_eq_some (hstep : Descents.step m a = some m') :
    ∃ s, NodeReclaim.step m.state a = some s ∧ m' = ⟨s, pages m s a⟩ := by
  obtain ⟨s, hs, rfl⟩ := Option.map_eq_some_iff.mp hstep
  exact ⟨s, hs, rfl⟩

theorem drainRetired_tree (t : Table) (minTs : ℕ) :
    (t.drainRetired minTs).root = t.root ∧ (t.drainRetired minTs).old = t.old := by
  unfold Table.drainRetired
  split
  · exact ⟨rfl, rfl⟩
  · exact ⟨rfl, rfl⟩

theorem setTable_tree {s : State n} {j : ℕ} {t : Table} (hroot : t.root = (s.tables j).root)
    (hold : t.old = (s.tables j).old) (i : ℕ) :
    (setTable s j t i).root = (s.tables i).root ∧ (setTable s j t i).old = (s.tables i).old := by
  unfold setTable
  split
  · next heq =>
    subst heq
    exact ⟨hroot, hold⟩
  · exact ⟨rfl, rfl⟩

/-- Only an insertion changes a tree, and only a reader's step the readers. -/
theorem step_quiet {s t : State n} (hstep : NodeReclaim.step s a = some t) (hinsert : ∀ e, a ≠ .insert e)
    (hreader : ∀ k b, a ≠ .reader k b) :
    t.readers = s.readers ∧ ∀ i, (t.tables i).root = (s.tables i).root ∧ (t.tables i).old = (s.tables i).old := by
  cases a with
  | advance ts =>
    simp only [NodeReclaim.step, Option.ite_none_right_eq_some, Option.some.injEq] at hstep
    obtain ⟨-, rfl⟩ := hstep
    exact ⟨rfl, fun i => ⟨rfl, rfl⟩⟩
  | insert e => exact absurd rfl (hinsert e)
  | retire =>
    simp only [NodeReclaim.step] at hstep
    split at hstep
    · cases hstep
      exact ⟨rfl, setTable_tree rfl rfl⟩
    · cases hstep
      exact ⟨rfl, fun i => ⟨rfl, rfl⟩⟩
    · cases hstep
  | selfDrain =>
    simp only [NodeReclaim.step] at hstep
    split at hstep
    · next j _ =>
      cases hstep
      refine ⟨rfl, setTable_tree ?_ ?_⟩
      · split
        · rfl
        · exact (drainRetired_tree _ _).1
      · split
        · rfl
        · exact (drainRetired_tree _ _).2
    · cases hstep
  | measure minTs =>
    simp only [NodeReclaim.step] at hstep
    split at hstep
    · simp only [Option.ite_none_right_eq_some, Option.some.injEq] at hstep
      obtain ⟨-, rfl⟩ := hstep
      exact ⟨rfl, fun i => ⟨rfl, rfl⟩⟩
    · cases hstep
  | drain =>
    simp only [NodeReclaim.step] at hstep
    split at hstep
    · cases hstep
      exact ⟨rfl, setTable_tree (drainRetired_tree _ _).1 (drainRetired_tree _ _).2⟩
    · cases hstep
  | rotate =>
    cases hstep
    exact ⟨rfl, fun i => ⟨rfl, rfl⟩⟩
  | recycle i =>
    cases hstep
    exact ⟨rfl, fun i => ⟨rfl, rfl⟩⟩
  | destroy i =>
    simp only [NodeReclaim.step, Option.ite_none_right_eq_some, Option.some.injEq] at hstep
    obtain ⟨-, rfl⟩ := hstep
    exact ⟨rfl, fun i => ⟨rfl, rfl⟩⟩
  | reader k b => exact absurd rfl (hreader k b)

theorem Walking.quiet (h : Walking start acts m) (hok : Orderly m a) (hstep : Descents.step m a = some m')
    (hinsert : ∀ e, a ≠ .insert e) (hreader : ∀ k b, a ≠ .reader k b) : Walking start (acts ++ [a]) m' := by
  obtain ⟨s, hs, rfl⟩ := step_eq_some hstep
  obtain ⟨hreaders, htables⟩ := step_quiet hs hinsert hreader
  have hpages : pages m s a = m.page := by
    unfold pages
    split
    · next e => exact absurd rfl (hinsert e)
    · rfl
  refine ⟨h.run.append (.cons hok hstep (.nil _)), h.sound.step hok.1 hs, ?_, ?_⟩
  · intro i
    simp only [hpages]
    exact (h.stands i).congr (htables i).1
  · intro k i x hnode
    have hk : s.readers k = m.state.readers k := congrFun hreaders k
    show Table.Leads (s.tables i) (pages m s a i) (s.readers k).key _ x
    rw [congrFun hpages i, hk]
    refine ((h.leads k i x (by rwa [← hk])).congr (htables i).1 (htables i).2).mono ?_
    intro y leaf hseen
    exact hseen.step hok hstep (fun b hb => absurd hb (hreader k b)) (congrArg Reader.key hk)

/-- What a reader that stands at a node can reach is in use. -/
theorem Walking.reaches_used (h : Walking start acts m) {k : Fin n} {i x : ℕ}
    (hnode : (m.state.readers k).node = some (i, x)) {y : ℕ} (hy : (m.state.tables i).Reaches x y) :
    ¬ (m.state.tables i).Unused y := by
  have hr := h.sound.readers k
  have hsafe := hr.guards _ (hr.node _ hnode) y hy
  rintro (hpool | hge)
  · exact hsafe.pool hpool
  · exact absurd hsafe.below (Nat.not_lt.mpr hge)

theorem insert_eq_some {s : State n} {e : KeyValuePair} (hstep : NodeReclaim.step m.state (.insert e) = some s) :
    m.state.writer = .idle ∧ s.readers = m.state.readers ∧
      ∃ t retired, (m.state.tables m.state.active).insert m.state.clock e = some (t, retired) ∧
        s.tables m.state.active = t ∧ ∀ i, i ≠ m.state.active → s.tables i = m.state.tables i := by
  simp only [NodeReclaim.step] at hstep
  split at hstep
  · next hw =>
    obtain ⟨⟨t, retired⟩, hout, rfl⟩ := Option.map_eq_some_iff.mp hstep
    exact ⟨hw, rfl, t, retired, hout, if_pos rfl, fun i hi => if_neg hi⟩
  · cases hstep

theorem Walking.insert (h : Walking start acts m) {e : KeyValuePair} (hok : Orderly m (.insert e))
    (hstep : Descents.step m (.insert e) = some m') : Walking start (acts ++ [.insert e]) m' := by
  obtain ⟨s, hs, rfl⟩ := step_eq_some hstep
  obtain ⟨hw, hreaders, t, retired, hout, rfl, hother⟩ := insert_eq_some hs
  have ht := h.sound.tables m.state.active
  rw [hw] at ht
  have hplace : (m.state.tables m.state.active).InPlace e := hok.2
  have hfollows : ∀ (k : Fin n) (b : ReaderAction), (Action.insert e : Action n) = .reader k b →
      ∃ validated, b = .follow validated := fun k b hb => by cases hb
  refine ⟨h.run.append (.cons hok hstep (.nil _)), h.sound.step hok.1 hs, ?_, ?_⟩
  · intro i
    show (s.tables i).Stands (pages m s (.insert e) i)
    simp only [pages]
    split
    · next hi =>
      subst hi
      exact (h.stands _).insert hout hplace
    · next hi =>
      rw [hother i hi]
      exact h.stands i
  · intro k i x hnode
    have hk : s.readers k = m.state.readers k := congrFun hreaders k
    have hnode' : (m.state.readers k).node = some (i, x) := by rwa [← hk]
    have hseen : ∀ y leaf, Seen start acts m k i y leaf →
        Seen start (acts ++ [.insert e]) ⟨s, pages m s (.insert e)⟩ k i y leaf := fun y leaf hold =>
      hold.step hok hstep (hfollows k) (congrArg Reader.key hk)
    have hleads := h.leads k i x hnode'
    show Table.Leads (s.tables i) (pages m s (.insert e) i) (s.readers k).key _ x
    rw [hk]
    by_cases hi : i = m.state.active
    · have hpage : pages m s (.insert e) i = (m.state.tables i).written (s.tables i) (m.page i) := if_pos hi
      rw [hpage]
      subst hi
      refine (hleads.insert (h.stands _) ht hout hplace fun y hy => h.reaches_used hnode' hy).mono ?_
      intro y leaf hcases
      rcases hcases with hold | hnow
      · exact hseen y leaf hold
      · refine ⟨m, (since_now h.run hnode').step hok hstep (hfollows k), ?_⟩
        rw [← hk] at hnow
        exact hnow
    · have hpage : pages m s (.insert e) i = m.page i := if_neg hi
      rw [hpage, hother i hi]
      exact hleads.mono hseen

theorem root_route (t : Table) (key : Bytes) : t.root.addr ∈ t.root.route key := by
  obtain ⟨cs, hcs⟩ := t.root.route_eq_cons key
  rw [hcs]
  exact List.mem_cons_self

/-- A step of the reader itself: it follows a pointer, or it enters a table, or it is not walking. -/
theorem Walking.reader_leads (h : Walking start acts m) {k : Fin n} {b : ReaderAction} {r : Reader}
    (hstep : (m.state.readers k).step m.state b = some r) {i x : ℕ} (hnode : r.node = some (i, x)) :
    r.key = (m.state.readers k).key ∧
      (x ∈ (m.state.tables i).root.route r.key ∨
        ((∃ validated, b = .follow validated) ∧
          Table.Leads (m.state.tables i) (m.page i) r.key (Seen start acts m k i) x)) := by
  have hr := h.sound.readers k
  cases b with
  | start key =>
    simp only [Reader.step, Option.ite_none_right_eq_some, Option.some.injEq] at hstep
    obtain ⟨hfree, rfl⟩ := hstep
    exact absurd (hr.registered _ (hr.node _ hnode)) hfree
  | acquire =>
    simp only [Reader.step, Option.ite_none_right_eq_some, Option.some.injEq] at hstep
    obtain ⟨hbegun, rfl⟩ := hstep
    have hreg := hr.registered _ (hr.node _ hnode)
    rw [hbegun] at hreg
    cases hreg
  | snapshot =>
    simp only [Reader.step, Option.ite_none_right_eq_some, Option.some.injEq] at hstep
    obtain ⟨⟨hreg, hempty⟩, rfl⟩ := hstep
    have hmem := hr.snap _ (hr.node _ hnode)
    rw [hempty] at hmem
    cases hmem
  | enter j =>
    simp only [Reader.step, Option.ite_none_right_eq_some, Option.some.injEq] at hstep
    obtain ⟨-, rfl⟩ := hstep
    cases hnode
    exact ⟨rfl, Or.inl (root_route _ _)⟩
  | follow validated =>
    simp only [Reader.step] at hstep
    split at hstep
    · next j z hold =>
      obtain ⟨y, hy, rfl⟩ := Option.map_eq_some_iff.mp hstep
      refine ⟨rfl, Or.inr ⟨⟨validated, rfl⟩, ?_⟩⟩
      cases validated with
      | true =>
        cases hnode
        obtain ⟨p, hp, hchild⟩ := Option.bind_eq_some_iff.mp hy
        exact (h.leads k _ _ hold).follow (h.stands _) (h.sound.tables _).linked_nodup hp hchild
      | false => exact h.leads k i x hnode
    · cases hstep
  | release =>
    simp only [Reader.step, Option.ite_none_right_eq_some, Option.some.injEq] at hstep
    obtain ⟨-, rfl⟩ := hstep
    cases hnode

theorem reader_eq_some {s : State n} {k : Fin n} {b : ReaderAction}
    (hstep : NodeReclaim.step m.state (.reader k b) = some s) :
    s.tables = m.state.tables ∧ (m.state.readers k).step m.state b = some (s.readers k) ∧
      ∀ j, j ≠ k → s.readers j = m.state.readers j := by
  obtain ⟨r, hr, rfl⟩ := Option.map_eq_some_iff.mp hstep
  refine ⟨rfl, ?_, fun j hj => if_neg hj⟩
  simp only [if_true]
  exact hr

theorem Walking.reader (h : Walking start acts m) {k : Fin n} {b : ReaderAction} (hok : Orderly m (.reader k b))
    (hstep : Descents.step m (.reader k b) = some m') : Walking start (acts ++ [.reader k b]) m' := by
  obtain ⟨s, hs, rfl⟩ := step_eq_some hstep
  obtain ⟨htables, hself, hother⟩ := reader_eq_some hs
  have hrun := h.run.append (.cons hok hstep (.nil _))
  refine ⟨hrun, h.sound.step hok.1 hs, ?_, ?_⟩
  · intro i
    show (s.tables i).Stands (m.page i)
    rw [htables]
    exact h.stands i
  · intro j i x hnode
    show Table.Leads (s.tables i) (m.page i) (s.readers j).key _ x
    rw [htables]
    by_cases hj : j = k
    · subst hj
      obtain ⟨hkey, hroute | ⟨hfollow, hleads⟩⟩ := h.reader_leads hself hnode
      · exact .linked hroute
      · refine hleads.mono fun y leaf hseen => hseen.step hok hstep ?_ hkey
        intro b' hb'
        cases hb'
        exact hfollow
    · rw [hother j hj]
      refine (h.leads j i x (by rw [← hother j hj]; exact hnode)).mono fun y leaf hseen => hseen.step hok hstep ?_ ?_
      · intro b' hb'
        cases hb'
        exact absurd rfl hj
      · exact congrArg Reader.key (hother j hj)

theorem Walking.step (h : Walking start acts m) (hok : Orderly m a) (hstep : Descents.step m a = some m') :
    Walking start (acts ++ [a]) m' := by
  by_cases hinsert : ∃ e, a = .insert e
  · obtain ⟨e, rfl⟩ := hinsert
    exact h.insert hok hstep
  · by_cases hreader : ∃ k b, a = .reader k b
    · obtain ⟨k, b, rfl⟩ := hreader
      exact h.reader hok hstep
    · exact h.quiet hok hstep (fun e he => hinsert ⟨e, he⟩) fun k b hb => hreader ⟨k, b, hb⟩

theorem walking_of_run {recovered : Bool} {clock : ℕ} (hrun : Run step Orderly (init recovered clock n) acts m) :
    Walking (init recovered clock n) acts m :=
  Run.invariant_trace (fun _ _ _ _ hok hstep h => Walking.step h hok hstep) hrun (walking_init recovered clock n)

/-- While every entry goes to its place, and a memtable without a fence source is drained only when it is not exposed,
`FindLeaf` never meets a null pointer, and the leaf that it comes to was the leaf of its key in that memtable, with the
same page, at some time since it entered the memtable. -/
theorem findLeaf_within_walk (recovered : Bool) (clock n : ℕ) (acts : List (Action n)) (m : Memory n)
    (hrun : Run step Orderly (init recovered clock n) acts m) (k : Fin n) (i x : ℕ)
    (hnode : (m.state.readers k).node = some (i, x)) :
    (m.page i x = none → ∃ y, childAt (m.state.tables i) x (m.state.readers k).key = some y) ∧
      ∀ leaf, m.page i x = some leaf → ∃ past, Since (init recovered clock n) acts m k i past ∧
        (past.state.tables i).root.leafFor (m.state.readers k).key = some (x, leaf) := by
  have h := walking_of_run hrun
  have hleads := h.leads k i x hnode
  have hnodup := (h.sound.tables i).linked_nodup
  constructor
  · intro hinner
    obtain ⟨p, y, hp, hy⟩ := hleads.proceeds (h.stands i) hnodup hinner
    exact ⟨y, Option.bind_eq_some_iff.mpr ⟨p, hp, hy⟩⟩
  · intro leaf hleaf
    rcases hleads.arrived (h.stands i) hnodup hleaf with hnow | hseen
    · exact ⟨m, since_now hrun hnode, hnow⟩
    · exact hseen

/-! ## The pages of a lookup -/

theorem held_step {s t : State n} {y : ℕ × ℕ} (hstep : NodeReclaim.step s a = some t)
    (hkeep : a ≠ .reader k .release) (hy : y ∈ (s.readers k).held) : y ∈ (t.readers k).held := by
  by_cases hreader : ∃ j b, a = .reader j b
  · obtain ⟨j, b, rfl⟩ := hreader
    obtain ⟨r, hr, rfl⟩ := Option.map_eq_some_iff.mp hstep
    by_cases hj : k = j
    · subst hj
      simp only [if_true]
      cases b with
      | start key =>
        simp only [Reader.step, Option.ite_none_right_eq_some, Option.some.injEq] at hr
        obtain ⟨-, rfl⟩ := hr
        exact hy
      | acquire =>
        simp only [Reader.step, Option.ite_none_right_eq_some, Option.some.injEq] at hr
        obtain ⟨-, rfl⟩ := hr
        exact hy
      | snapshot =>
        simp only [Reader.step, Option.ite_none_right_eq_some, Option.some.injEq] at hr
        obtain ⟨-, rfl⟩ := hr
        exact hy
      | enter i =>
        simp only [Reader.step, Option.ite_none_right_eq_some, Option.some.injEq] at hr
        obtain ⟨-, rfl⟩ := hr
        exact List.mem_cons_of_mem _ hy
      | follow validated =>
        simp only [Reader.step] at hr
        split at hr
        · obtain ⟨z, -, rfl⟩ := Option.map_eq_some_iff.mp hr
          exact List.mem_cons_of_mem _ hy
        · cases hr
      | release => exact absurd rfl hkeep
    · simp only [if_neg hj]
      exact hy
  · by_cases hinsert : ∃ e, a = .insert e
    · obtain ⟨e, rfl⟩ := hinsert
      simp only [NodeReclaim.step] at hstep
      split at hstep
      · obtain ⟨out, -, rfl⟩ := Option.map_eq_some_iff.mp hstep
        exact hy
      · cases hstep
    · have hquiet := step_quiet hstep (fun e he => hinsert ⟨e, he⟩) fun j b hb => hreader ⟨j, b, hb⟩
      rw [hquiet.1]
      exact hy

theorem Walking.page_step (h : Walking start acts m) (hok : Orderly m a) (hstep : Descents.step m a = some m')
    (hheld : (i, x) ∈ (m.state.readers k).held) : m'.page i x = m.page i x := by
  obtain ⟨s, hs, rfl⟩ := step_eq_some hstep
  have hsafe := ((h.sound.readers k).guards _ hheld).safe
  have hused : ¬ (m.state.tables i).Unused x := by
    rintro (hpool | hge)
    · exact hsafe.pool hpool
    · exact absurd hsafe.below (Nat.not_lt.mpr hge)
  unfold pages
  split
  · next e =>
    obtain ⟨hw, -, t, retired, hout, rfl, -⟩ := insert_eq_some hs
    have ht := h.sound.tables m.state.active
    rw [hw] at ht
    by_cases hi : i = m.state.active
    · subst hi
      simp only [if_true]
      exact (h.stands _).written_eq ht hout hused
    · simp only [if_neg hi]
  · rfl

/-- A leaf page that a reader has obtained is not written until it releases its timestamp. -/
theorem held_pages_kept (recovered : Bool) (clock n : ℕ) (acts acts' : List (Action n)) (m m' : Memory n)
    (hrun : Run step Orderly (init recovered clock n) acts m) (hrun' : Run step Orderly m acts' m') (k : Fin n) (i x : ℕ)
    (hheld : (i, x) ∈ (m.state.readers k).held) (hkeep : .reader k .release ∉ acts') :
    m'.page i x = m.page i x := by
  have h := walking_of_run hrun
  clear hrun
  induction hrun' generalizing acts with
  | nil m => rfl
  | @cons m u m' a acts' hok hstep _ ih =>
    rw [List.mem_cons, not_or] at hkeep
    obtain ⟨hfirst, hrest⟩ := hkeep
    obtain ⟨s, hs, rfl⟩ := step_eq_some hstep
    rw [ih (acts ++ [a]) (held_step hs (Ne.symm hfirst) hheld) hrest (h.step hok hstep)]
    exact h.page_step hok hstep hheld

/-! ## Runs -/

def greater : KeyValuePair := ⟨[2], List.replicate 2040 0, 1, false⟩
def smaller : KeyValuePair := ⟨[1], List.replicate 2040 0, 2, false⟩

/-- A reader enters memtable 0, the writer replaces the leaf and then splits it, and the reader goes on from the old
root. -/
def pastSplit : List (Action 1) :=
  [.reader 0 (.start [2]), .reader 0 .acquire, .reader 0 .snapshot, .reader 0 (.enter 0), .advance 1, .insert greater,
    .retire, .retire, .selfDrain, .measure 0, .drain, .advance 2, .insert smaller, .reader 0 (.follow true)]

theorem findLeaf_within_walk_pastSplit :
    ∃ m leaf, Run step Orderly (init true 0 1) pastSplit m ∧ (m.state.readers 0).node = some (0, 2) ∧
      2 ∉ (m.state.tables 0).linked ∧ m.page 0 2 = some leaf ∧
      ∃ past, Since (init true 0 1) pastSplit m 0 0 past ∧
        (past.state.tables 0).root.leafFor (m.state.readers 0).key = some (2, leaf) := by
  obtain ⟨m, hrun, hnode, hgone, hpage⟩ : ∃ m, Run step Orderly (init true 0 1) pastSplit m ∧
      (m.state.readers 0).node = some (0, 2) ∧ 2 ∉ (m.state.tables 0).linked ∧ (m.page 0 2).isSome :=
    Run.exists_of_checked (by decide +kernel)
  obtain ⟨leaf, hleaf⟩ := Option.isSome_iff_exists.mp hpage
  exact ⟨m, leaf, hrun, hnode, hgone, hleaf, (findLeaf_within_walk true 0 1 _ m hrun 0 0 2 hnode).2 leaf hleaf⟩

def readLeaf : List (Action 1) :=
  [.reader 0 (.start [2]), .reader 0 .acquire, .reader 0 .snapshot, .reader 0 (.enter 0), .reader 0 (.follow true)]

def writeTwice : List (Action 1) :=
  [.advance 1, .insert greater, .retire, .retire, .selfDrain, .measure 0, .drain, .advance 2, .insert smaller]

theorem held_pages_kept_writeTwice :
    ∃ m m', Run step Orderly (init true 0 1) readLeaf m ∧ Run step Orderly m writeTwice m' ∧
      (0, 0) ∈ (m.state.readers 0).held ∧ 0 ∉ (m'.state.tables 0).linked ∧ m'.page 0 0 = m.page 0 0 := by
  obtain ⟨m, hrun, hheld, hnext⟩ : ∃ m, Run step Orderly (init true 0 1) readLeaf m ∧
      (0, 0) ∈ (m.state.readers 0).held ∧
        (checked step Orderly m writeTwice).any (fun m' => decide (0 ∉ (m'.state.tables 0).linked)) = true :=
    Run.exists_of_checked (by decide +kernel)
  obtain ⟨m', hrun', hgone⟩ := Run.exists_of_checked hnext
  refine ⟨m, m', hrun, hrun', hheld, hgone, ?_⟩
  exact held_pages_kept true 0 1 _ _ m m' hrun hrun' 0 0 0 hheld (by simp [writeTwice])

end Kvdb.Descents
