import Kvdb.Lib.Runs
import Kvdb.MemTable.Retire

/-! # Reclaiming the nodes of the memtables under readers

The writer inserts into the active memtable, queues the replaced nodes and drains the queue up to `MinActiveTS()`;
readers registered with the tracker walk down any memtable of their snapshot. A memtable with `global_ts_` as its
fence source keeps a queued node until every reader that may stand at it is gone. The memtable that the constructor
makes has no fence source, and `Insert` drains it without asking the tracker. -/
namespace Kvdb.NodeReclaim
set_option autoImplicit false

open Kvdb.Runs Kvdb.Nodes Kvdb.Retire

/-- Where the writer stands in `Insert`, `Delete`, `BatchInsert` or `BatchDelete`. -/
inductive Writer where
  | idle
  | retiring (table : ℕ) (todo : List Retired)
  | inserted (table : ℕ)
  | waiting
  | measured (table minTs : ℕ)

/-- The pages that the writer has replaced in a table and not queued yet. -/
def Writer.todo : Writer → ℕ → List Retired
  | .retiring table todo, i => if i = table then todo else []
  | _, _ => []

inductive Stage where
  | idle
  | begun
  | registered
  deriving DecidableEq

/-- A thread in `Lookup`: the memtables it has copied, the node that `FindLeaf` stands at, and the nodes that it has
obtained since `Acquire`, each with its memtable. -/
structure Reader where
  stage : Stage
  key : Bytes
  readTs : ℕ
  snap : List ℕ
  node : Option (ℕ × ℕ)
  held : List (ℕ × ℕ)

/-- `destroyed` are the memtables whose last reference is gone. -/
structure State (n : ℕ) where
  clock : ℕ
  tables : ℕ → Table
  active : ℕ
  frozen : List ℕ
  nextTableId : ℕ
  destroyed : List ℕ
  writer : Writer
  readers : Fin n → Reader

inductive ReaderAction where
  | start (key : Bytes)
  | acquire
  | snapshot
  | enter (table : ℕ)
  | follow (validated : Bool)
  | release

inductive Action (n : ℕ) where
  | advance (ts : ℕ)
  | insert (e : KeyValuePair)
  | retire
  | selfDrain
  | measure (minActiveTs : ℕ)
  | drain
  | rotate
  | recycle (table : ℕ)
  | destroy (table : ℕ)
  | reader (k : Fin n) (a : ReaderAction)

variable {n : ℕ}

/-- After construction: the first memtable has no fence source, unless recovery has replaced it. -/
def init (recovered : Bool) (clock n : ℕ) : State n :=
  ⟨clock, fun i => Table.new (recovered || decide (i ≠ 0)), 0, [], 1, [], .idle, fun _ => ⟨.idle, [], 0, [], none, []⟩⟩

/-- `FindLeaf` at a node: the child for the key. -/
def childAt (t : Table) (x : ℕ) (key : Bytes) : Option ℕ :=
  (t.pointers x).bind fun p => p.children[findChild p.keys key]?

/-- `follow` reads a child pointer; when the version of the node has changed meanwhile, the reader stays where it is. -/
def Reader.step (s : State n) (r : Reader) : ReaderAction → Option Reader
  | .start key =>
    if r.stage ≠ .registered then some { r with stage := .begun, key := key, readTs := s.clock } else none
  | .acquire => if r.stage = .begun then some { r with stage := .registered } else none
  | .snapshot =>
    if r.stage = .registered ∧ r.snap = [] then some { r with snap := s.active :: s.frozen } else none
  | .enter i =>
    if r.stage = .registered ∧ i ∈ r.snap then
      some { r with node := some (i, (s.tables i).root.addr), held := (i, (s.tables i).root.addr) :: r.held }
    else none
  | .follow validated =>
    match r.node with
    | some (i, x) =>
      (childAt (s.tables i) x r.key).map fun y =>
        { r with node := if validated then some (i, y) else r.node, held := (i, y) :: r.held }
    | none => none
  | .release =>
    if r.stage = .registered then some { r with stage := .idle, snap := [], node := none, held := [] } else none

/-- `UINT64_MAX`, the minimum that `Insert` drains its own tree with. -/
def maxTs : ℕ := 2 ^ 64 - 1

def setTable (s : State n) (i : ℕ) (t : Table) : ℕ → Table := fun j => if j = i then t else s.tables j

/-- The loop after `Insert` goes on while the queue of the active memtable is long. -/
def State.full (s : State n) : Bool := decide (retiredDrainThreshold ≤ (s.tables s.active).pending.length)

/-- `measure` takes any minimum that is not above the timestamp of a registered reader. -/
def step (s : State n) : Action n → Option (State n)
  | .advance ts => if s.clock < ts then some { s with clock := ts } else none
  | .insert e =>
    match s.writer with
    | .idle =>
      ((s.tables s.active).insert s.clock e).map fun out =>
        { s with tables := setTable s s.active out.1, writer := .retiring s.active out.2 }
    | _ => none
  | .retire =>
    match s.writer with
    | .retiring i (x :: todo) =>
      some { s with
        tables := setTable s i ((s.tables i).retire s.clock x)
        writer := .retiring i todo }
    | .retiring i [] => some { s with writer := .inserted i }
    | _ => none
  | .selfDrain =>
    match s.writer with
    | .inserted i =>
      some { s with
        tables := setTable s i (if (s.tables i).fenced then s.tables i else (s.tables i).drainRetired maxTs)
        writer := .waiting }
    | _ => none
  | .measure minActiveTs =>
    match s.writer with
    | .waiting =>
      if ∀ k, (s.readers k).stage = .registered → minActiveTs ≤ (s.readers k).readTs then
        some { s with writer := .measured s.active minActiveTs }
      else none
    | _ => none
  | .drain =>
    match s.writer with
    | .measured i minTs =>
      let s' := { s with tables := setTable s i ((s.tables i).drainRetired minTs) }
      some { s' with writer := if s'.full then .waiting else .idle }
    | _ => none
  | .rotate =>
    some { s with frozen := s.frozen ++ [s.active], active := s.nextTableId, nextTableId := s.nextTableId + 1 }
  | .recycle i => some { s with frozen := s.frozen.erase i }
  | .destroy i =>
    if i < s.nextTableId ∧ i ≠ s.active ∧ i ∉ s.frozen ∧ ∀ k, i ∉ (s.readers k).snap then
      some { s with destroyed := i :: s.destroyed }
    else none
  | .reader k a =>
    ((s.readers k).step s a).map fun r => { s with readers := fun j => if j = k then r else s.readers j }

/-- Every node of the table that a reader has obtained is still in the tree. -/
def Unexposed (s : State n) (i : ℕ) : Prop :=
  (s.tables i).fenced = false → retiredDrainThreshold ≤ (s.tables i).pending.length →
    ∀ k, ∀ h ∈ (s.readers k).held, h.1 = i → h.2 ∈ (s.tables i).linked

instance decidableUnexposed (s : State n) (i : ℕ) : Decidable (Unexposed s i) :=
  inferInstanceAs (Decidable (_ → _ → _))

/-- A memtable without a fence source is drained only when it is not exposed. -/
def Clear (s : State n) : Action n → Prop
  | .selfDrain | .drain =>
    match s.writer with
    | .inserted i => Unexposed s i
    | .measured i _ => Unexposed s i
    | _ => True
  | _ => True

instance decidableClear (s : State n) : (a : Action n) → Decidable (Clear s a)
  | .selfDrain | .drain =>
    match hw : s.writer with
    | .inserted i => decidable_of_iff (Unexposed s i) (by simp only [Clear, hw])
    | .measured i _ => decidable_of_iff (Unexposed s i) (by simp only [Clear, hw])
    | .idle | .retiring _ _ | .waiting => isTrue (by simp only [Clear, hw])
  | .advance _ | .insert _ | .retire | .measure _ | .rotate | .recycle _ | .destroy _ | .reader _ _ => isTrue trivial

/-! ## The invariant -/

structure ReaderSound (s : State n) (r : Reader) : Prop where
  clock : r.stage ≠ .idle → r.readTs ≤ s.clock
  registered : ∀ h ∈ r.held, r.stage = .registered
  snap : ∀ h ∈ r.held, h.1 ∈ r.snap
  guards : ∀ h ∈ r.held, (s.tables h.1).Guards r.readTs h.2
  node : ∀ h, r.node = some h → h ∈ r.held

/-- The minimum that the writer has taken is not above the reader's timestamp, or the reader came later and reaches
nothing that is queued. -/
def Beyond (s : State n) (r : Reader) (i minTs : ℕ) : Prop :=
  minTs ≤ r.readTs ∨ ∀ h ∈ r.held, h.1 = i → (s.tables i).Spares minTs h.2

structure Sound (s : State n) : Prop where
  tables : ∀ i, (s.tables i).Sound s.clock (s.writer.todo i)
  readers : ∀ k, ReaderSound s (s.readers k)
  measured : ∀ i minTs, s.writer = .measured i minTs → ∀ k, Beyond s (s.readers k) i minTs
  current : s.active < s.nextTableId ∧ ∀ i ∈ s.frozen, i < s.nextTableId
  destroyed : ∀ i ∈ s.destroyed, i < s.nextTableId ∧ i ≠ s.active ∧ i ∉ s.frozen ∧ ∀ k, i ∉ (s.readers k).snap

theorem readerSound_idle (s : State n) (key : Bytes) (readTs : ℕ) (snap : List ℕ) :
    ReaderSound s ⟨.idle, key, readTs, snap, none, []⟩ where
  clock := fun hidle => absurd rfl hidle
  registered := fun _ hh => by cases hh
  snap := fun _ hh => by cases hh
  guards := fun _ hh => by cases hh
  node := fun _ hh => by cases hh

theorem sound_init (recovered : Bool) (clock n : ℕ) : Sound (init recovered clock n) where
  tables := fun _ => Table.sound_new _ _
  readers := fun _ => readerSound_idle _ _ _ _
  measured := fun _ _ hw => by cases hw
  current := ⟨Nat.zero_lt_one, fun _ hi => by cases hi⟩
  destroyed := fun _ hi => by cases hi

theorem Sound.readTs_le {s : State n} (h : Sound s) {k : Fin n} {y : ℕ × ℕ} (hy : y ∈ (s.readers k).held) :
    (s.readers k).readTs ≤ s.clock := by
  apply (h.readers k).clock
  rw [(h.readers k).registered y hy]
  exact Stage.noConfusion

/-- Replacing one memtable and the writer's place keeps the invariant when the readers of that memtable stay
guarded. -/
theorem Sound.replace {s : State n} (h : Sound s) {i : ℕ} {t : Table} {w : Writer}
    (hother : ∀ j, j ≠ i → w.todo j = s.writer.todo j) (ht : t.Sound s.clock (w.todo i))
    (hguards : ∀ k, ∀ y ∈ (s.readers k).held, y.1 = i → (s.tables i).Guards (s.readers k).readTs y.2 →
      t.Guards (s.readers k).readTs y.2)
    (hw : ∀ j minTs, w ≠ .measured j minTs) : Sound { s with tables := setTable s i t, writer := w } where
  tables := by
    intro j
    by_cases hj : j = i
    · subst hj
      simpa only [setTable, if_true] using ht
    · simp only [setTable, if_neg hj, hother j hj]
      exact h.tables j
  readers := by
    intro k
    have hr := h.readers k
    refine ⟨hr.clock, hr.registered, hr.snap, ?_, hr.node⟩
    intro y hy
    have hbefore := hr.guards y hy
    by_cases hj : y.1 = i
    · rw [hj] at hbefore
      simpa only [setTable, if_pos hj] using hguards k y hy hj hbefore
    · simpa only [setTable, if_neg hj] using hbefore
  measured := fun j minTs hm => absurd hm (hw j minTs)
  current := h.current
  destroyed := h.destroyed

/-! ## The writer -/

theorem Sound.advance {s : State n} (h : Sound s) {ts : ℕ} (hlt : s.clock < ts) : Sound { s with clock := ts } where
  tables := fun i => (h.tables i).mono (Nat.le_of_lt hlt)
  readers := fun k =>
    { h.readers k with clock := fun hr => Nat.le_trans ((h.readers k).clock hr) (Nat.le_of_lt hlt) }
  measured := h.measured
  current := h.current
  destroyed := h.destroyed

theorem Sound.insert {s : State n} (h : Sound s) (hw : s.writer = .idle) {e : KeyValuePair}
    {out : Table × List Retired} (hout : (s.tables s.active).insert s.clock e = some out) :
    Sound { s with tables := setTable s s.active out.1, writer := .retiring s.active out.2 } := by
  obtain ⟨t, retired⟩ := out
  have ht := h.tables s.active
  rw [hw] at ht
  apply h.replace
  · intro j hj
    simp only [Writer.todo, if_neg hj, hw]
  · simp only [Writer.todo, if_true]
    exact ht.insert hout
  · intro k y hy _ hbefore
    exact hbefore.insert ht hout (h.readTs_le hy)
  · exact fun _ _ hm => by cases hm

theorem Sound.retire {s : State n} (h : Sound s) {i : ℕ} {x : Retired} {todo : List Retired}
    (hw : s.writer = .retiring i (x :: todo)) :
    Sound { s with tables := setTable s i ((s.tables i).retire s.clock x), writer := .retiring i todo } := by
  have ht := h.tables i
  simp only [hw, Writer.todo, if_true] at ht
  apply h.replace
  · intro j hj
    simp only [Writer.todo, if_neg hj, hw]
  · simp only [Writer.todo, if_true]
    exact ht.retire
  · exact fun _ _ _ _ hbefore => hbefore.retire x
  · exact fun _ _ hm => by cases hm

/-- The writer goes on without touching a memtable. -/
theorem Sound.proceed {s : State n} (h : Sound s) {w : Writer} (htodo : ∀ i, w.todo i = s.writer.todo i)
    (hw : ∀ j minTs, w ≠ .measured j minTs) : Sound { s with writer := w } where
  tables := by
    intro i
    simp only [htodo i]
    exact h.tables i
  readers := fun k => { h.readers k with }
  measured := fun j minTs hm => absurd hm (hw j minTs)
  current := h.current
  destroyed := h.destroyed

/-- A drain that spares what the readers of the memtable reach. -/
theorem Sound.drainTable {s : State n} (h : Sound s) {i minTs : ℕ} {w : Writer} (hidle : ∀ j, s.writer.todo j = [])
    (hw : w = .idle ∨ w = .waiting)
    (hspares : retiredDrainThreshold ≤ (s.tables i).pending.length →
      ∀ k, ∀ y ∈ (s.readers k).held, y.1 = i → (s.tables i).Spares minTs y.2) :
    Sound { s with tables := setTable s i ((s.tables i).drainRetired minTs), writer := w } := by
  have ht := h.tables i
  rw [hidle i] at ht
  have htodo : ∀ j, w.todo j = [] := by
    rcases hw with rfl | rfl
    · exact fun _ => rfl
    · exact fun _ => rfl
  apply h.replace
  · intro j _
    rw [htodo j, hidle j]
  · rw [htodo i]
    unfold Table.drainRetired
    split
    · exact ht
    · exact ht.drain minTs
  · intro k y hy hi hbefore
    unfold Table.drainRetired
    split
    · exact hbefore
    · next hlong => exact hbefore.drain (hspares (Nat.le_of_not_lt hlong) k y hy hi)
  · rcases hw with rfl | rfl
    · exact fun _ _ hm => by cases hm
    · exact fun _ _ hm => by cases hm

/-- What a reader reaches is spared: by the fence in a memtable with a fence source, else because the reader has only
nodes of the tree. -/
theorem Sound.spares {s : State n} (h : Sound s) {i minTs : ℕ} (hclear : Unexposed s i)
    (hfence : (s.tables i).fenced = true → ∀ k, Beyond s (s.readers k) i minTs)
    (hlong : retiredDrainThreshold ≤ (s.tables i).pending.length) {k : Fin n} {y : ℕ × ℕ}
    (hy : y ∈ (s.readers k).held) (hi : y.1 = i) : (s.tables i).Spares minTs y.2 := by
  have hguards := (h.readers k).guards y hy
  rw [hi] at hguards
  by_cases hfenced : (s.tables i).fenced = true
  · rcases hfence hfenced k with hle | hspared
    · exact hguards.spares (h.tables i) hfenced hle
    · exact hspared y hy hi
  · have hlinked := hclear (Bool.eq_false_of_not_eq_true hfenced) hlong k y hy hi
    exact (h.tables i).spares_linked hlinked

theorem Sound.selfDrain {s : State n} (h : Sound s) {i : ℕ} (hw : s.writer = .inserted i) (hclear : Unexposed s i) :
    Sound { s with
      tables := setTable s i (if (s.tables i).fenced then s.tables i else (s.tables i).drainRetired maxTs)
      writer := .waiting } := by
  have hidle : ∀ j, s.writer.todo j = [] := by
    intro j
    rw [hw]
    rfl
  split
  · apply h.replace
    · intro j _
      rw [hidle j]
      rfl
    · have ht := h.tables i
      rw [hidle i] at ht
      exact ht
    · exact fun _ _ _ _ hbefore => hbefore
    · exact fun _ _ hm => by cases hm
  · next hfenced =>
    apply h.drainTable hidle (Or.inr rfl)
    intro hlong k y hy hi
    exact h.spares hclear (fun hf => absurd hf hfenced) hlong hy hi

theorem Sound.measure {s : State n} (h : Sound s) (hw : s.writer = .waiting) {minTs : ℕ}
    (hmin : ∀ k, (s.readers k).stage = .registered → minTs ≤ (s.readers k).readTs) :
    Sound { s with writer := .measured s.active minTs } where
  tables := by
    intro i
    have ht := h.tables i
    rw [hw] at ht
    exact ht
  readers := fun k => { h.readers k with }
  measured := by
    intro i ts hm k
    cases hm
    by_cases hreg : (s.readers k).stage = .registered
    · exact Or.inl (hmin k hreg)
    · right
      intro y hy
      exact absurd ((h.readers k).registered y hy) hreg
  current := h.current
  destroyed := h.destroyed

theorem Sound.drain {s : State n} (h : Sound s) {i minTs : ℕ} (hw : s.writer = .measured i minTs)
    (hclear : Unexposed s i) {w : Writer} (hw' : w = .idle ∨ w = .waiting) :
    Sound { s with tables := setTable s i ((s.tables i).drainRetired minTs), writer := w } := by
  apply h.drainTable _ hw'
  · intro hlong k y hy hi
    exact h.spares hclear (fun _ => h.measured i minTs hw) hlong hy hi
  · intro j
    rw [hw]
    rfl

theorem Sound.rotate {s : State n} (h : Sound s) : Sound { s with
    frozen := s.frozen ++ [s.active]
    active := s.nextTableId
    nextTableId := s.nextTableId + 1 } where
  tables := h.tables
  readers := fun k => { h.readers k with }
  measured := h.measured
  current := by
    refine ⟨Nat.lt_succ_self _, ?_⟩
    intro i hi
    rcases List.mem_append.mp hi with hold | hnew
    · exact Nat.lt_succ_of_lt (h.current.2 i hold)
    · rw [List.mem_singleton] at hnew
      subst hnew
      exact Nat.lt_succ_of_lt h.current.1
  destroyed := by
    intro i hi
    obtain ⟨hlt, hactive, hfrozen, hsnap⟩ := h.destroyed i hi
    refine ⟨Nat.lt_succ_of_lt hlt, Nat.ne_of_lt hlt, ?_, hsnap⟩
    intro hmem
    rcases List.mem_append.mp hmem with hold | hnew
    · exact hfrozen hold
    · exact hactive (List.mem_singleton.mp hnew)

theorem Sound.recycle {s : State n} (h : Sound s) (i : ℕ) : Sound { s with frozen := s.frozen.erase i } where
  tables := h.tables
  readers := fun k => { h.readers k with }
  measured := h.measured
  current := ⟨h.current.1, fun j hj => h.current.2 j (List.mem_of_mem_erase hj)⟩
  destroyed := by
    intro j hj
    obtain ⟨hlt, hactive, hfrozen, hsnap⟩ := h.destroyed j hj
    exact ⟨hlt, hactive, fun hmem => hfrozen (List.mem_of_mem_erase hmem), hsnap⟩

theorem Sound.destroy {s : State n} (h : Sound s) {i : ℕ}
    (hgone : i < s.nextTableId ∧ i ≠ s.active ∧ i ∉ s.frozen ∧ ∀ k, i ∉ (s.readers k).snap) :
    Sound { s with destroyed := i :: s.destroyed } where
  tables := h.tables
  readers := fun k => { h.readers k with }
  measured := h.measured
  current := h.current
  destroyed := by
    intro j hj
    cases hj with
    | head => exact hgone
    | tail _ hmem => exact h.destroyed j hmem

/-! ## The readers -/

/-- A reader's step keeps the invariant when the reader stays sound, and what it obtains anew is spared. -/
theorem Sound.setReader {s : State n} (h : Sound s) {k : Fin n} {r : Reader} (hr : ReaderSound s r)
    (hbeyond : ∀ i minTs, s.writer = .measured i minTs → Beyond s r i minTs)
    (hsnap : ∀ i ∈ s.destroyed, i ∉ r.snap) :
    Sound { s with readers := fun j => if j = k then r else s.readers j } where
  tables := h.tables
  readers := by
    intro j
    by_cases hj : j = k
    · simp only [if_pos hj]
      exact { hr with }
    · simp only [if_neg hj]
      exact { h.readers j with }
  measured := by
    intro i minTs hm j
    by_cases hj : j = k
    · simp only [if_pos hj]
      exact hbeyond i minTs hm
    · simp only [if_neg hj]
      exact h.measured i minTs hm j
  current := h.current
  destroyed := by
    intro i hi
    obtain ⟨hlt, hactive, hfrozen, hold⟩ := h.destroyed i hi
    refine ⟨hlt, hactive, hfrozen, ?_⟩
    intro j
    by_cases hj : j = k
    · simp only [if_pos hj]
      exact hsnap i hi
    · simp only [if_neg hj]
      exact hold j

theorem points_of_childAt {t : Table} {x y : ℕ} {key : Bytes} (h : childAt t x key = some y) : t.Points x y := by
  obtain ⟨p, hp, hy⟩ := Option.bind_eq_some_iff.mp h
  exact ⟨p, hp, List.mem_of_getElem? hy⟩

/-- A reader that obtains one more node of its snapshot. -/
theorem Sound.obtain {s : State n} (h : Sound s) {k : Fin n} {i x : ℕ} {node : Option (ℕ × ℕ)}
    (hreg : (s.readers k).stage = .registered) (hi : i ∈ (s.readers k).snap)
    (hguards : (s.tables i).Guards (s.readers k).readTs x)
    (hspares : ∀ minTs, s.writer = .measured i minTs → minTs ≤ (s.readers k).readTs ∨ (s.tables i).Spares minTs x)
    (hnode : ∀ y, node = some y → y ∈ (i, x) :: (s.readers k).held) :
    Sound { s with readers := fun j => if j = k then
      { s.readers k with node := node, held := (i, x) :: (s.readers k).held } else s.readers j } := by
  have hr := h.readers k
  apply h.setReader
  · refine ⟨hr.clock, fun _ _ => hreg, ?_, ?_, hnode⟩
    · intro y hy
      cases hy with
      | head => exact hi
      | tail _ hmem => exact hr.snap y hmem
    · intro y hy
      cases hy with
      | head => exact hguards
      | tail _ hmem => exact hr.guards y hmem
  · intro j minTs hm
    rcases h.measured j minTs hm k with hle | hspared
    · exact Or.inl hle
    · by_cases hj : j = i
      · subst hj
        rcases hspares minTs hm with hle | hnew
        · exact Or.inl hle
        · right
          intro y hy hyj
          cases hy with
          | head => exact hnew
          | tail _ hmem => exact hspared y hmem hyj
      · right
        intro y hy hyj
        cases hy with
        | head => exact absurd hyj.symm hj
        | tail _ hmem => exact hspared y hmem hyj
  · exact fun j hj => (h.destroyed j hj).2.2.2 k

theorem Sound.follow {s : State n} (h : Sound s) {k : Fin n} {i x y : ℕ} {validated : Bool}
    (hnode : (s.readers k).node = some (i, x)) (hy : childAt (s.tables i) x (s.readers k).key = some y) :
    Sound { s with readers := fun j => if j = k then
      { s.readers k with
        node := if validated then some (i, y) else (s.readers k).node
        held := (i, y) :: (s.readers k).held } else s.readers j } := by
  have hr := h.readers k
  have hheld := hr.node _ hnode
  have hpoints := points_of_childAt hy
  apply h.obtain (hr.registered _ hheld) (hr.snap _ hheld)
  · exact (hr.guards _ hheld).follow hpoints
  · intro minTs hm
    rcases h.measured i minTs hm k with hle | hspared
    · exact Or.inl hle
    · exact Or.inr fun p hp hlt hreach => hspared _ hheld rfl p hp hlt (Relation.ReflTransGen.head hpoints hreach)
  · intro z hz
    split at hz
    · cases hz
      exact List.mem_cons_self
    · exact List.mem_cons_of_mem _ (hr.node z hz)

theorem Sound.reader {s : State n} (h : Sound s) {k : Fin n} {a : ReaderAction} {r : Reader}
    (hstep : (s.readers k).step s a = some r) :
    Sound { s with readers := fun j => if j = k then r else s.readers j } := by
  have hr := h.readers k
  have hsnap : ∀ i ∈ s.destroyed, i ∉ (s.readers k).snap := fun i hi => (h.destroyed i hi).2.2.2 k
  cases a with
  | start key =>
    simp only [Reader.step, Option.ite_none_right_eq_some, Option.some.injEq] at hstep
    obtain ⟨hfree, rfl⟩ := hstep
    have hnone : ∀ y, y ∉ (s.readers k).held := fun y hy => hfree (hr.registered y hy)
    apply h.setReader
    · exact ⟨fun _ => Nat.le_refl _, fun y hy => absurd hy (hnone y), hr.snap, fun y hy => absurd hy (hnone y), hr.node⟩
    · exact fun _ _ _ => Or.inr fun y hy => absurd hy (hnone y)
    · exact hsnap
  | acquire =>
    simp only [Reader.step, Option.ite_none_right_eq_some, Option.some.injEq] at hstep
    obtain ⟨hbegun, rfl⟩ := hstep
    apply h.setReader
    · refine ⟨fun _ => hr.clock ?_, fun _ _ => rfl, hr.snap, hr.guards, hr.node⟩
      rw [hbegun]
      exact Stage.noConfusion
    · exact fun i minTs hm => h.measured i minTs hm k
    · exact hsnap
  | snapshot =>
    simp only [Reader.step, Option.ite_none_right_eq_some, Option.some.injEq] at hstep
    obtain ⟨⟨hreg, hempty⟩, rfl⟩ := hstep
    have hnone : ∀ y, y ∉ (s.readers k).held := by
      intro y hy
      have hmem := hr.snap y hy
      rw [hempty] at hmem
      cases hmem
    apply h.setReader
    · exact ⟨hr.clock, hr.registered, fun y hy => absurd hy (hnone y), hr.guards, hr.node⟩
    · exact fun i minTs hm => h.measured i minTs hm k
    · intro i hi hmem
      obtain ⟨-, hactive, hfrozen, -⟩ := h.destroyed i hi
      cases hmem with
      | head => exact hactive rfl
      | tail _ hin => exact hfrozen hin
  | enter i =>
    simp only [Reader.step, Option.ite_none_right_eq_some, Option.some.injEq] at hstep
    obtain ⟨⟨hreg, hi⟩, rfl⟩ := hstep
    have hroot := (s.tables i).root_linked
    apply h.obtain hreg hi
    · exact (h.tables i).guards_linked hroot
    · exact fun _ _ => Or.inr ((h.tables i).spares_linked hroot)
    · intro z hz
      cases hz
      exact List.mem_cons_self
  | follow validated =>
    simp only [Reader.step] at hstep
    split at hstep
    · next i x hnode =>
      obtain ⟨y, hy, rfl⟩ := Option.map_eq_some_iff.mp hstep
      exact h.follow hnode hy
    · cases hstep
  | release =>
    simp only [Reader.step, Option.ite_none_right_eq_some, Option.some.injEq] at hstep
    obtain ⟨-, rfl⟩ := hstep
    apply h.setReader
    · exact readerSound_idle _ _ _ _
    · exact fun _ _ _ => Or.inr fun _ hh => by cases hh
    · exact fun _ _ hmem => by cases hmem

theorem Sound.step {s t : State n} {a : Action n} (h : Sound s) (hclear : Clear s a)
    (hstep : NodeReclaim.step s a = some t) : Sound t := by
  cases a with
  | advance ts =>
    simp only [NodeReclaim.step, Option.ite_none_right_eq_some, Option.some.injEq] at hstep
    obtain ⟨hlt, rfl⟩ := hstep
    exact h.advance hlt
  | insert e =>
    simp only [NodeReclaim.step] at hstep
    split at hstep
    · next hw =>
      obtain ⟨out, hout, rfl⟩ := Option.map_eq_some_iff.mp hstep
      exact h.insert hw hout
    · cases hstep
  | retire =>
    simp only [NodeReclaim.step] at hstep
    split at hstep
    · next hw =>
      cases hstep
      exact h.retire hw
    · next i hw =>
      cases hstep
      apply h.proceed
      · intro j
        simp only [hw, Writer.todo, ite_self]
      · exact fun _ _ hm => by cases hm
    · cases hstep
  | selfDrain =>
    simp only [NodeReclaim.step] at hstep
    split at hstep
    · next i hw =>
      cases hstep
      simp only [Clear, hw] at hclear
      exact h.selfDrain hw hclear
    · cases hstep
  | measure minTs =>
    simp only [NodeReclaim.step] at hstep
    split at hstep
    · next hw =>
      simp only [Option.ite_none_right_eq_some, Option.some.injEq] at hstep
      obtain ⟨hmin, rfl⟩ := hstep
      exact h.measure hw hmin
    · cases hstep
  | drain =>
    simp only [NodeReclaim.step] at hstep
    split at hstep
    · next i minTs hw =>
      cases hstep
      simp only [Clear, hw] at hclear
      apply h.drain hw hclear
      split
      · exact Or.inr rfl
      · exact Or.inl rfl
    · cases hstep
  | rotate =>
    cases hstep
    exact h.rotate
  | recycle i =>
    cases hstep
    exact h.recycle i
  | destroy i =>
    simp only [NodeReclaim.step, Option.ite_none_right_eq_some, Option.some.injEq] at hstep
    obtain ⟨hgone, rfl⟩ := hstep
    exact h.destroy hgone
  | reader k a =>
    obtain ⟨r, hr, rfl⟩ := Option.map_eq_some_iff.mp hstep
    exact h.reader hr

/-- While a memtable without a fence source is drained only when no reader has a node that has left its tree, no node
that a reader has obtained since `Acquire` is in the pool or freed. -/
theorem held_nodes_kept (recovered : Bool) (clock n : ℕ) (acts : List (Action n)) (s : State n)
    (hrun : Run step Clear (init recovered clock n) acts s) (k : Fin n) (i x : ℕ) (hheld : (i, x) ∈ (s.readers k).held) :
    x ∉ (s.tables i).alloc.pool ∧ x ∉ (s.tables i).freed ∧ i ∉ s.destroyed := by
  have hsound : Sound s :=
    Run.invariant (fun _ _ _ hclear hstep h => Sound.step h hclear hstep) hrun (sound_init recovered clock n)
  have hsafe := ((hsound.readers k).guards _ hheld).safe
  refine ⟨hsafe.pool, hsafe.freed, ?_⟩
  intro hgone
  exact (hsound.destroyed i hgone).2.2.2 k ((hsound.readers k).snap _ hheld)

/-! ## The first memtable -/

/-- A reader takes the timestamp `clock`, enters memtable 0 and comes to the leaf. -/
def firstRead : List (Action 1) :=
  [.reader 0 (.start [97]), .reader 0 .acquire, .reader 0 .snapshot, .reader 0 (.enter 0), .reader 0 (.follow true)]

/-- `Insert` of one key. -/
def overwrite (ts : ℕ) : List (Action 1) :=
  [.advance ts, .insert ⟨[97], [49], ts, false⟩, .retire, .retire, .selfDrain, .measure 0, .drain]

/-- Sixty writes of one key replace the leaf sixty times. -/
def overwrites : List (Action 1) := firstRead ++ (List.range' 1 60).flatMap overwrite

theorem held_nodes_kept_overwrites :
    ∃ s, Run step Clear (init true 0 1) overwrites s ∧ (0, 0) ∈ (s.readers 0).held ∧
      retiredDrainThreshold ≤ (s.tables 0).pending.length ∧
      0 ∉ (s.tables 0).alloc.pool ∧ 0 ∉ (s.tables 0).freed ∧ 0 ∉ s.destroyed := by
  obtain ⟨s, hrun, hheld, hpending⟩ : ∃ s, Run step Clear (init true 0 1) overwrites s ∧ (0, 0) ∈ (s.readers 0).held ∧
      retiredDrainThreshold ≤ (s.tables 0).pending.length := Run.exists_of_checked (by decide +kernel)
  exact ⟨s, hrun, hheld, hpending, held_nodes_kept true 0 1 _ _ hrun 0 0 0 hheld⟩

/-- In the memtable that the constructor makes, the sixtieth write puts the reader's leaf back into the pool. -/
theorem held_leaf_pooled :
    ∃ s, Run step anyStep (init false 0 1) overwrites s ∧ (s.readers 0).stage = .registered ∧
      (0, 0) ∈ (s.readers 0).held ∧ 0 ∈ (s.tables 0).alloc.pool :=
  Run.exists_of_checked (by decide +kernel)

end Kvdb.NodeReclaim
