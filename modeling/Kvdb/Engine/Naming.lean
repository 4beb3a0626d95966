import Kvdb.Engine.Steps
import Kvdb.Lib.Runs

/-! # The names of SSTable files

A flush takes one number from `sstable_seq_`, a compaction reserves 64 and writes its outputs from
the first of them on, and a restart sets the counter to the number of recovered tables. The flush
worker and the compaction worker run at the same time, so each is cut into the steps between which
the other may run; a restart may come at any point and drops what was under way. -/
namespace Kvdb.Naming
set_option autoImplicit false

open Kvdb.Runs

/-- Where the flush worker stands in `DoFlush`. -/
inductive FlushStage where
  | idle
  | taken (m : MemTable) (seq : ℕ)
  | written (m : MemTable) (seq : ℕ)

/-- Where a thread stands in `CompactLevel`: its outputs to be written, or its MANIFEST records. -/
inductive CompactStage where
  | idle
  | writing (inputs : List Metadata) (result : Compaction.Result) (pending : List (ℕ × SSTableFile))
  | removing (inputs : List Metadata) (result : Compaction.Result) (left : ℕ)
  | adding (inputs : List Metadata) (result : Compaction.Result) (left : List Metadata)

structure State where
  engine : Engine
  flush : FlushStage
  compact : CompactStage

inductive Action where
  | flushTake (m : MemTable)
  | flushWrite
  | flushPublish
  | compactTake (fromLevel topLevel : ℕ)
  | compactWrite
  | compactPublish
  | recordRemove
  | recordAdd
  | restart (cfg : EngineConfig)

def init (cfg : EngineConfig) : State := ⟨Engine.create cfg, .idle, .idle⟩

/-- One step of a worker, or a restart on the directory that is left. -/
def step (s : State) : Action → Option State
  | .flushTake m =>
    match s.flush with
    | .idle => if m.entryCount = 0 then none else
        some { s with engine := s.engine.reserveSeq 1, flush := .taken m s.engine.sstableSeq }
    | _ => none
  | .flushWrite =>
    match s.flush with
    | .taken m seq => some { s with engine := s.engine.flushWrite m seq, flush := .written m seq }
    | _ => none
  | .flushPublish =>
    match s.flush with
    | .written m seq => some { s with engine := s.engine.flushPublish m seq, flush := .idle }
    | _ => none
  | .compactTake fromLevel topLevel =>
    match s.compact with
    | .idle =>
      if s.engine.nothingToCompact fromLevel topLevel then none else
        some { s with
          engine := s.engine.reserveSeq Engine.reservedOutputs
          compact := .writing (s.engine.compactionInputs fromLevel topLevel)
            (s.engine.runCompact fromLevel topLevel) (s.engine.runCompact fromLevel topLevel).files }
    | _ => none
  | .compactWrite =>
    match s.compact with
    | .writing inputs result ((path, file) :: pending) =>
      some { s with engine := s.engine.writeFile path file, compact := .writing inputs result pending }
    | _ => none
  | .compactPublish =>
    match s.compact with
    | .writing inputs result [] =>
      some { s with
        engine := s.engine.publishCompaction inputs result.outputs
        compact := .removing inputs result inputs.length }
    | _ => none
  | .recordRemove =>
    match s.compact with
    | .removing inputs result (left + 1) =>
      some { s with
        engine := { s.engine with manifest := Manifest.removeSSTable s.engine.manifest s.engine.sstableSeq }
        compact := .removing inputs result left }
    | .removing inputs result 0 => some { s with compact := .adding inputs result result.outputs }
    | _ => none
  | .recordAdd =>
    match s.compact with
    | .adding inputs result (out :: left) =>
      some { s with
        engine := { s.engine.reserveSeq 1 with
          manifest := Manifest.addSSTable s.engine.manifest s.engine.sstableSeq out }
        compact := .adding inputs result left }
    | .adding inputs result [] =>
      some { s with engine := s.engine.deferGarbage inputs result.garbage, compact := .idle }
    | _ => none
  | .restart cfg => some ⟨Engine.construct cfg s.engine.directory, .idle, .idle⟩

/-! ## The property -/

/-- The tables that the MANIFEST of the engine gives back. -/
def recovered (s : State) : List Metadata := Manifest.recover s.engine.manifest

/-- The file numbers that a step takes or writes for a new SSTable. A restart takes those of the
flushes made by `RecoverFromWAL`, which follow the number of recovered tables. -/
def names (s : State) : Action → List ℕ
  | .flushTake _ => [s.engine.sstableSeq]
  | .flushWrite => match s.flush with
    | .taken _ seq => [seq]
    | _ => []
  | .compactWrite => match s.compact with
    | .writing _ _ ((path, _) :: _) => [path]
    | _ => []
  | .restart cfg => List.range' (recovered s).length
      ((Engine.construct cfg s.engine.directory).sstableSeq - (recovered s).length)
  | _ => []

/-- The file numbers of the catalogue at that moment. -/
def live (s : State) : Action → List ℕ
  | .restart _ => (recovered s).map Metadata.filepath
  | _ => s.engine.sstableMetadata.map Metadata.filepath

/-- The step overwrites no live file. -/
def NoOverwrite (s : State) (a : Action) : Prop := ∀ n ∈ names s a, n ∉ live s a

/-- The condition on a step: a restart finds no file numbered at or above the number of tables it
recovers, and a compaction has no more outputs than the numbers it reserves. -/
def Allowed (s : State) : Action → Prop
  | .restart _ => ∀ m ∈ recovered s, m.filepath < (recovered s).length
  | .compactTake fromLevel topLevel =>
    (s.engine.compactionJob fromLevel topLevel).batches.length ≤ Engine.reservedOutputs
  | _ => True

instance decidableAllowed (s : State) (a : Action) : Decidable (Allowed s a) := by
  cases a <;> unfold Allowed <;> infer_instance

instance decidableNoOverwrite (s : State) (a : Action) : Decidable (NoOverwrite s a) :=
  inferInstanceAs (Decidable (∀ n ∈ names s a, n ∉ live s a))

/-! ## The invariant -/

def FlushStage.numbers : FlushStage → List ℕ
  | .idle => []
  | .taken _ seq => [seq]
  | .written _ seq => [seq]

def CompactStage.numbers : CompactStage → List ℕ
  | .writing _ result _ => result.outputs.map Metadata.filepath
  | _ => []

/-- The numbers taken by the workers for tables that are not in the catalogue yet. -/
def inFlight (s : State) : List ℕ := s.flush.numbers ++ s.compact.numbers

/-- The files still to be written are among the outputs. -/
def CompactStage.Sound : CompactStage → Prop
  | .writing _ result pending => ∀ p ∈ pending, p.1 ∈ result.outputs.map Metadata.filepath
  | _ => True

/-- Every number in use is below the counter, and no number has two uses. -/
structure Fresh (s : State) : Prop where
  catalogue : ∀ m ∈ s.engine.sstableMetadata, m.filepath < s.engine.sstableSeq
  below : ∀ n ∈ inFlight s, n < s.engine.sstableSeq
  notLive : ∀ n ∈ inFlight s, ∀ m ∈ s.engine.sstableMetadata, m.filepath ≠ n
  nodup : (inFlight s).Nodup
  sound : s.compact.Sound

theorem mem_inFlight {s : State} {n : ℕ} :
    n ∈ inFlight s ↔ n ∈ s.flush.numbers ∨ n ∈ s.compact.numbers := List.mem_append

/-- The tables of a constructed engine: those of the MANIFEST, then the flushes of the recovery. -/
theorem construct_paths (cfg : EngineConfig) (d : Directory) :
    (Manifest.recover d.manifest).length ≤ (Engine.construct cfg d).sstableSeq ∧
    (Engine.construct cfg d).sstableMetadata.map Metadata.filepath =
      (Manifest.recover d.manifest).map Metadata.filepath ++
        List.range' (Manifest.recover d.manifest).length
          ((Engine.construct cfg d).sstableSeq - (Manifest.recover d.manifest).length) := by
  refine Engine.construct_rule (P := fun e => (Manifest.recover d.manifest).length ≤ e.sstableSeq ∧
    e.sstableMetadata.map Metadata.filepath = (Manifest.recover d.manifest).map Metadata.filepath ++
      List.range' (Manifest.recover d.manifest).length
        (e.sstableSeq - (Manifest.recover d.manifest).length)) cfg d ?_ ?_ ?_ ?_
  · refine ⟨Nat.le_refl _, ?_⟩
    simp only [Engine.openDirectory, Nat.sub_self, List.range'_zero, List.append_nil, List.map_map]
    exact List.map_congr_left fun m _ => congrArg Prod.fst (Engine.pathLevel_fillMetadata d.files m)
  · rintro e m ⟨hle, hpaths⟩
    rcases e.doFlush_cases m with ⟨-, heq⟩ | ⟨-, md, cache, hmd, heq⟩
    · rw [heq]
      exact ⟨hle, hpaths⟩
    · rw [heq]
      refine ⟨Nat.le_succ_of_le hle, ?_⟩
      simp only [Engine.afterFlush, List.map_append, hpaths, List.map_cons, hmd.filepath, List.map_nil]
      rw [Nat.succ_sub hle, List.range'_concat, List.append_assoc]
      simp only [Nat.one_mul, Nat.add_sub_cancel' hle]
  · rintro e ts ⟨hle, hpaths⟩
    refine ⟨hle, ?_⟩
    simp only [Engine.markAborted, List.map_map]
    exact hpaths
  · rintro e e' - hcat hseq ⟨hle, hpaths⟩
    rw [hseq, hcat]
    exact ⟨hle, hpaths⟩

theorem construct_below (cfg : EngineConfig) (d : Directory)
    (h : ∀ m ∈ Manifest.recover d.manifest, m.filepath < (Manifest.recover d.manifest).length) :
    ∀ m ∈ (Engine.construct cfg d).sstableMetadata, m.filepath < (Engine.construct cfg d).sstableSeq := by
  intro m hm
  obtain ⟨hle, hpaths⟩ := construct_paths cfg d
  have hmem := List.mem_map_of_mem (f := Metadata.filepath) hm
  rw [hpaths, List.mem_append, List.mem_map, List.mem_range'] at hmem
  rcases hmem with ⟨m', hm', heq⟩ | ⟨i, hi, heq⟩
  · have := h m' hm'
    omega
  · omega

/-! ## One step -/

/-- A step that keeps the catalogue, takes no number and gives up none to the catalogue. -/
theorem Fresh.keep {s t : State} (h : Fresh s)
    (hcat : t.engine.sstableMetadata = s.engine.sstableMetadata)
    (hseq : s.engine.sstableSeq ≤ t.engine.sstableSeq) (hsub : (inFlight t).Sublist (inFlight s))
    (hsound : t.compact.Sound) : Fresh t := by
  refine ⟨?_, ?_, ?_, hsub.nodup h.nodup, hsound⟩
  · intro m hm
    rw [hcat] at hm
    exact Nat.lt_of_lt_of_le (h.catalogue m hm) hseq
  · intro n hn
    exact Nat.lt_of_lt_of_le (h.below n (hsub.subset hn)) hseq
  · intro n hn m hm
    rw [hcat] at hm
    exact h.notLive n (hsub.subset hn) m hm

theorem Fresh.flushTake {s t : State} (h : Fresh s) (m : MemTable) (hs : step s (.flushTake m) = some t) :
    Fresh t := by
  cases hf : s.flush with
  | idle =>
    simp only [step, hf] at hs
    split at hs
    · cases hs
    · cases hs
      have hnum : inFlight s = s.compact.numbers := by simp [inFlight, hf, FlushStage.numbers]
      refine ⟨?_, ?_, ?_, ?_, h.sound⟩
      · intro m' hm'
        exact Nat.lt_succ_of_lt (h.catalogue m' hm')
      · intro n hn
        rcases mem_inFlight.mp hn with hn | hn
        · rw [List.mem_singleton.mp hn]
          exact Nat.lt_succ_self _
        · exact Nat.lt_succ_of_lt (h.below n (hnum ▸ hn))
      · intro n hn m' hm'
        rcases mem_inFlight.mp hn with hn | hn
        · rw [List.mem_singleton.mp hn]
          exact Nat.ne_of_lt (h.catalogue m' hm')
        · exact h.notLive n (hnum ▸ hn) m' hm'
      · refine List.nodup_cons.mpr ⟨?_, hnum ▸ h.nodup⟩
        intro hn
        exact Nat.lt_irrefl _ (h.below _ (hnum ▸ hn))
  | taken m' seq => simp [step, hf] at hs
  | written m' seq => simp [step, hf] at hs

theorem Fresh.flushWrite {s t : State} (h : Fresh s) (hs : step s .flushWrite = some t) : Fresh t := by
  cases hf : s.flush with
  | idle => simp [step, hf] at hs
  | written m' seq => simp [step, hf] at hs
  | taken m seq =>
    simp only [step, hf, Option.some.injEq] at hs
    subst hs
    refine h.keep rfl (Nat.le_refl _) ?_ h.sound
    simp [inFlight, hf, FlushStage.numbers]

theorem Fresh.flushPublish {s t : State} (h : Fresh s) (hs : step s .flushPublish = some t) : Fresh t := by
  cases hf : s.flush with
  | idle => simp [step, hf] at hs
  | taken m' seq => simp [step, hf] at hs
  | written m seq =>
    simp only [step, hf, Option.some.injEq] at hs
    subst hs
    have hnum : inFlight s = seq :: s.compact.numbers := by simp [inFlight, hf, FlushStage.numbers]
    obtain ⟨mds, hcat, hmds⟩ := s.engine.flushPublish_catalogue m seq
    have hbelow : seq < s.engine.sstableSeq := h.below seq (by rw [hnum]; exact List.mem_cons_self)
    have hnodup : seq ∉ s.compact.numbers ∧ s.compact.numbers.Nodup :=
      List.nodup_cons.mp (hnum ▸ h.nodup)
    have hrest : ∀ n ∈ s.compact.numbers, n ∈ inFlight s := fun n hn => by
      rw [hnum]
      exact List.mem_cons_of_mem seq hn
    refine ⟨?_, ?_, ?_, hnodup.2, h.sound⟩
    · intro m' hm'
      simp only [hcat, List.mem_append, Engine.flushPublish_sstableSeq] at hm' ⊢
      rcases hm' with hm' | hm'
      · exact h.catalogue m' hm'
      · rw [hmds m' hm']
        exact hbelow
    · intro n hn
      simp only [Engine.flushPublish_sstableSeq]
      exact h.below n (hrest n hn)
    · intro n hn m' hm'
      simp only [hcat, List.mem_append] at hm'
      rcases hm' with hm' | hm'
      · exact h.notLive n (hrest n hn) m' hm'
      · rw [hmds m' hm']
        rintro rfl
        exact hnodup.1 hn

theorem Fresh.compactTake {s t : State} (h : Fresh s) (fromLevel topLevel : ℕ)
    (hfit : (s.engine.compactionJob fromLevel topLevel).batches.length ≤ Engine.reservedOutputs)
    (hs : step s (.compactTake fromLevel topLevel) = some t) : Fresh t := by
  cases hc : s.compact with
  | writing i r p => simp [step, hc] at hs
  | removing i r l => simp [step, hc] at hs
  | adding i r l => simp [step, hc] at hs
  | idle =>
    simp only [step, hc] at hs
    split at hs
    · cases hs
    · cases hs
      have hnum : inFlight s = s.flush.numbers := by simp [inFlight, hc, CompactStage.numbers]
      have hout := Compaction.compact_numbers (s.engine.compactionJob fromLevel topLevel)
      have hlen : (s.engine.runCompact fromLevel topLevel).outputs.length ≤ Engine.reservedOutputs :=
        Nat.le_trans (Compaction.compact_outputs_length_le _) hfit
      have hrange : ∀ n, n ∈ (s.engine.runCompact fromLevel topLevel).outputs.map Metadata.filepath →
          s.engine.sstableSeq ≤ n ∧ n < s.engine.sstableSeq + Engine.reservedOutputs := by
        intro n hn
        obtain ⟨m', hm', rfl⟩ := List.mem_map.mp hn
        have hb := Compaction.compact_filepath _ m' hm'
        have hstart : (s.engine.compactionJob fromLevel topLevel).seqStart = s.engine.sstableSeq := rfl
        unfold Engine.runCompact at hlen
        omega
      refine ⟨?_, ?_, ?_, ?_, ?_⟩
      · intro m' hm'
        exact Nat.lt_add_right _ (h.catalogue m' hm')
      · intro n hn
        rcases mem_inFlight.mp hn with hn | hn
        · exact Nat.lt_add_right _ (h.below n (hnum ▸ hn))
        · exact (hrange n hn).2
      · intro n hn m' hm'
        rcases mem_inFlight.mp hn with hn | hn
        · exact h.notLive n (hnum ▸ hn) m' hm'
        · have := h.catalogue m' hm'
          have := (hrange n hn).1
          omega
      · refine List.nodup_append.mpr ⟨hnum ▸ h.nodup, hout.2, ?_⟩
        intro a ha b hb
        have := h.below a (hnum ▸ ha)
        have := (hrange b hb).1
        omega
      · exact hout.1

theorem Fresh.compactWrite {s t : State} (h : Fresh s) (hs : step s .compactWrite = some t) : Fresh t := by
  cases hc : s.compact with
  | idle => simp [step, hc] at hs
  | removing i r l => simp [step, hc] at hs
  | adding i r l => simp [step, hc] at hs
  | writing inputs result pending =>
    cases pending with
    | nil => simp [step, hc] at hs
    | cons p pending =>
      simp only [step, hc, Option.some.injEq] at hs
      subst hs
      have hsound := h.sound
      rw [hc] at hsound
      refine h.keep rfl (Nat.le_refl _) ?_ fun q hq => hsound q (List.mem_cons_of_mem p hq)
      simp [inFlight, hc, CompactStage.numbers]

theorem Fresh.compactPublish {s t : State} (h : Fresh s) (hs : step s .compactPublish = some t) :
    Fresh t := by
  cases hc : s.compact with
  | idle => simp [step, hc] at hs
  | removing i r l => simp [step, hc] at hs
  | adding i r l => simp [step, hc] at hs
  | writing inputs result pending =>
    cases pending with
    | cons p pending => simp [step, hc] at hs
    | nil =>
      simp only [step, hc, Option.some.injEq] at hs
      subst hs
      have hnum : inFlight s = s.flush.numbers ++ result.outputs.map Metadata.filepath := by
        simp [inFlight, hc, CompactStage.numbers]
      have hnodup := List.nodup_append.mp (hnum ▸ h.nodup)
      have hflush : ∀ n ∈ s.flush.numbers, n ∈ inFlight s := fun n hn => by
        rw [hnum]
        exact List.mem_append_left _ hn
      refine ⟨?_, ?_, ?_, ?_, trivial⟩
      · intro m' hm'
        rcases List.mem_append.mp hm' with hm' | hm'
        · exact h.catalogue m' (List.mem_filter.mp hm').1
        · refine h.below _ ?_
          rw [hnum]
          exact List.mem_append_right _ (List.mem_map_of_mem hm')
      · intro n hn
        simp only [inFlight, CompactStage.numbers, List.append_nil] at hn
        exact h.below n (hflush n hn)
      · intro n hn m' hm'
        simp only [inFlight, CompactStage.numbers, List.append_nil] at hn
        rcases List.mem_append.mp hm' with hm' | hm'
        · exact h.notLive n (hflush n hn) m' (List.mem_filter.mp hm').1
        · exact (hnodup.2.2 n hn _ (List.mem_map_of_mem hm')).symm
      · simpa [inFlight, CompactStage.numbers] using hnodup.1

theorem Fresh.recordRemove {s t : State} (h : Fresh s) (hs : step s .recordRemove = some t) : Fresh t := by
  cases hc : s.compact with
  | idle => simp [step, hc] at hs
  | writing i r p => simp [step, hc] at hs
  | adding i r l => simp [step, hc] at hs
  | removing inputs result left =>
    cases left with
    | zero =>
      simp only [step, hc, Option.some.injEq] at hs
      subst hs
      refine h.keep rfl (Nat.le_refl _) ?_ trivial
      simp [inFlight, hc, CompactStage.numbers]
    | succ left =>
      simp only [step, hc, Option.some.injEq] at hs
      subst hs
      refine h.keep rfl (Nat.le_refl _) ?_ trivial
      simp [inFlight, hc, CompactStage.numbers]

theorem Fresh.recordAdd {s t : State} (h : Fresh s) (hs : step s .recordAdd = some t) : Fresh t := by
  cases hc : s.compact with
  | idle => simp [step, hc] at hs
  | writing i r p => simp [step, hc] at hs
  | removing i r l => simp [step, hc] at hs
  | adding inputs result left =>
    cases left with
    | nil =>
      simp only [step, hc, Option.some.injEq] at hs
      subst hs
      refine h.keep rfl (Nat.le_refl _) ?_ trivial
      simp [inFlight, hc, CompactStage.numbers]
    | cons out left =>
      simp only [step, hc, Option.some.injEq] at hs
      subst hs
      refine h.keep rfl (Nat.le_succ _) ?_ trivial
      simp [inFlight, hc, CompactStage.numbers]

theorem Fresh.restart {s t : State} (cfg : EngineConfig)
    (hrec : ∀ m ∈ recovered s, m.filepath < (recovered s).length)
    (hs : step s (.restart cfg) = some t) : Fresh t := by
  cases hs
  exact ⟨construct_below cfg s.engine.directory hrec, by simp [inFlight, FlushStage.numbers,
    CompactStage.numbers], by simp [inFlight, FlushStage.numbers, CompactStage.numbers],
    List.nodup_nil, trivial⟩

theorem Fresh.step {s t : State} {a : Action} (h : Fresh s) (hok : Allowed s a)
    (hs : step s a = some t) : Fresh t := by
  cases a with
  | flushTake m => exact h.flushTake m hs
  | flushWrite => exact h.flushWrite hs
  | flushPublish => exact h.flushPublish hs
  | compactTake fromLevel topLevel => exact h.compactTake fromLevel topLevel hok hs
  | compactWrite => exact h.compactWrite hs
  | compactPublish => exact h.compactPublish hs
  | recordRemove => exact h.recordRemove hs
  | recordAdd => exact h.recordAdd hs
  | restart cfg => exact Fresh.restart cfg hok hs

/-! ## Every run -/

theorem init_fresh (cfg : EngineConfig) : Fresh (init cfg) :=
  ⟨construct_below cfg Directory.empty (by intro m hm; cases hm), by simp [inFlight, init,
    FlushStage.numbers, CompactStage.numbers], by simp [inFlight, init, FlushStage.numbers,
    CompactStage.numbers], List.nodup_nil, trivial⟩

theorem Fresh.noOverwrite {s : State} (h : Fresh s) (a : Action) (hok : Allowed s a) :
    NoOverwrite s a := by
  intro n hn hlive
  cases a with
  | flushTake m =>
    obtain ⟨m', hm', rfl⟩ := List.mem_map.mp hlive
    have hlt := h.catalogue m' hm'
    have heq := List.mem_singleton.mp hn
    omega
  | flushWrite =>
    obtain ⟨m', hm', rfl⟩ := List.mem_map.mp hlive
    cases hf : s.flush with
    | idle => simp [names, hf] at hn
    | written m seq => simp [names, hf] at hn
    | taken m seq =>
      simp only [names, hf, List.mem_singleton] at hn
      exact h.notLive seq (mem_inFlight.mpr (.inl (by simp [hf, FlushStage.numbers]))) m' hm' hn
  | compactWrite =>
    obtain ⟨m', hm', rfl⟩ := List.mem_map.mp hlive
    cases hc : s.compact with
    | idle => simp [names, hc] at hn
    | removing i r l => simp [names, hc] at hn
    | adding i r l => simp [names, hc] at hn
    | writing inputs result pending =>
      cases pending with
      | nil => simp [names, hc] at hn
      | cons p pending =>
        simp only [names, hc, List.mem_singleton] at hn
        have hsound := h.sound
        rw [hc] at hsound
        have hmem := hsound p List.mem_cons_self
        rw [← hn] at hmem
        exact h.notLive _ (mem_inFlight.mpr (.inr (by rw [hc]; exact hmem))) m' hm' rfl
  | restart cfg =>
    obtain ⟨m', hm', rfl⟩ := List.mem_map.mp hlive
    have hlt := hok m' hm'
    have hge := (List.mem_range'.mp hn)
    omega
  | flushPublish => cases hn
  | compactTake fromLevel topLevel => cases hn
  | compactPublish => cases hn
  | recordRemove => cases hn
  | recordAdd => cases hn

/-- In every run in which each restart finds its tables numbered below their count and each
compaction has no more outputs than it reserves numbers for, no flush, compaction or recovery takes
or writes the name of a live SSTable. -/
theorem names_never_live (cfg : EngineConfig) (acts : List Action) (s : State) (a : Action)
    (hrun : Run step Allowed (init cfg) acts s) (hok : Allowed s a) : NoOverwrite s a :=
  (hrun.invariant (fun _ _ _ hok hs h => Fresh.step h hok hs) (init_fresh cfg)).noOverwrite a hok

/-- A flush of a one-entry memtable. -/
def flushOne (id : ℕ) : List Action :=
  [.flushTake (Engine.oneEntry id (id + 1)), .flushWrite, .flushPublish]

/-- A compaction of the tables of level 0 with one output. -/
def compactOne (inputs : ℕ) : List Action :=
  ([.compactTake 0 0, .compactWrite, .compactPublish] : List Action) ++ List.replicate (inputs + 1) Action.recordRemove ++
    ([.recordAdd, .recordAdd] : List Action)

/-- Two flushes, a compaction of both and a restart, then the next flush. -/
theorem names_never_live_after_restart :
    ∃ s, Run step Allowed (init Engine.smallConfig)
        (flushOne 0 ++ flushOne 1 ++ compactOne 2 ++ [.restart Engine.smallConfig]) s ∧
      NoOverwrite s (.flushTake (Engine.oneEntry 0 3)) := by
  have hsome : (checked step Allowed (init Engine.smallConfig)
      (flushOne 0 ++ flushOne 1 ++ compactOne 2 ++ [.restart Engine.smallConfig])).isSome = true := by
    decide
  have hrun := Run.of_isSome (init Engine.smallConfig) _ hsome
  exact ⟨_, hrun, names_never_live Engine.smallConfig _ _ (.flushTake (Engine.oneEntry 0 3)) hrun trivial⟩

/-- Two flushes, a compaction and a third flush, which takes number 67, then a restart with three
tables: the 65th flush after it takes 67 again. -/
def overwritingRun : List Action :=
  flushOne 0 ++ flushOne 1 ++ compactOne 2 ++ flushOne 2 ++ ([.restart Engine.smallConfig] : List Action) ++
    (List.range 64).flatMap flushOne

theorem overwritingRun_enabled :
    (checked step anyStep (init Engine.smallConfig) overwritingRun).isSome = true := by
  decide +kernel

/-- The state before that flush. -/
def overwritingState : State :=
  (checked step anyStep (init Engine.smallConfig) overwritingRun).get overwritingRun_enabled

theorem overwritingRun_names_live :
    ¬ ∀ cfg acts s a t, Run step anyStep (init cfg) acts s → step s a = some t → NoOverwrite s a := by
  intro h
  have hrun : Run step anyStep (init Engine.smallConfig) overwritingRun overwritingState :=
    Run.of_isSome (init Engine.smallConfig) overwritingRun overwritingRun_enabled
  have hnext : (step overwritingState (.flushTake (Engine.oneEntry 64 65))).isSome = true := by
    decide +kernel
  have hno := h Engine.smallConfig overwritingRun _ (.flushTake (Engine.oneEntry 64 65)) _ hrun
    (Option.some_get hnext).symm
  revert hno
  decide +kernel

end Kvdb.Naming
