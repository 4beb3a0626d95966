import Kvdb.Engine.Steps

/-! # The MANIFEST and the catalogue

What `Manifest::Recover` would return is compared with `sstable_metadata_` after any sequence of
`DoFlush` and `CompactLevel`. Flushes keep the two in step. A compaction writes its removals under
the current value of `sstable_seq_`, which no input was added with and which the first output is
about to take, so from then on an input stays in the MANIFEST for good. -/
namespace Kvdb.Engine
set_option autoImplicit false

open Manifest (pathLevel)

inductive CatalogueOp where
  | flush (m : MemTable)
  | compact (fromLevel topLevel : ℕ)

namespace CatalogueOp

def apply (e : Engine) : CatalogueOp → Engine
  | .flush m => e.doFlush m
  | .compact fromLevel topLevel => e.compactLevel fromLevel topLevel

/-- The operation is not a compaction that has inputs. -/
def idle (e : Engine) : CatalogueOp → Bool
  | .flush _ => true
  | .compact fromLevel topLevel => e.nothingToCompact fromLevel topLevel

end CatalogueOp

def runOps : Engine → List CatalogueOp → Engine
  | e, [] => e
  | e, op :: ops => runOps (op.apply e) ops

/-- No compaction of the sequence finds an input. -/
def NoInputs : Engine → List CatalogueOp → Prop
  | _, [] => True
  | e, op :: ops => op.idle e = true ∧ NoInputs (op.apply e) ops

/-- A recovered list would be the catalogue: the same file paths and levels. -/
def ManifestAgrees (e : Engine) : Prop :=
  ((Manifest.recover e.manifest).map pathLevel).Perm (e.sstableMetadata.map pathLevel)

/-! ## While nothing is removed -/

/-- The MANIFEST holds no removal and adds the tables of the catalogue. -/
structure InStep (e : Engine) : Prop where
  removed : Manifest.removed e.manifest = []
  added : (Manifest.added e.manifest).map pathLevel = e.sstableMetadata.map pathLevel

theorem InStep.agrees {e : Engine} (h : InStep e) : ManifestAgrees e := by
  rw [ManifestAgrees, Manifest.pathLevel_recover, Manifest.surviving_of_removed_nil _ h.removed, h.added]

theorem InStep.doFlush {e : Engine} (h : InStep e) (m : MemTable) : InStep (e.doFlush m) := by
  rcases e.doFlush_cases m with ⟨-, heq⟩ | ⟨-, md, cache, hmd, heq⟩
  · rw [heq]
    exact h
  · rw [heq]
    refine ⟨?_, ?_⟩
    · simp [afterFlush, h.removed]
    · simp [afterFlush, h.added, pathLevel]

theorem InStep.apply {e : Engine} (h : InStep e) (op : CatalogueOp) (hidle : op.idle e = true) :
    InStep (op.apply e) := by
  cases op with
  | flush m => exact h.doFlush m
  | compact fromLevel topLevel =>
    rw [CatalogueOp.apply, compactLevel_of_nothing e fromLevel topLevel hidle]
    exact h

/-- The catalogue and the MANIFEST decide whether the two are in step. -/
theorem InStep.congr {e e' : Engine} (h : InStep e) (hmanifest : e'.manifest = e.manifest)
    (hcat : e'.sstableMetadata.map pathLevel = e.sstableMetadata.map pathLevel) : InStep e' :=
  ⟨by rw [hmanifest, h.removed], by rw [hmanifest, h.added, hcat]⟩

/-! ## The constructor -/

theorem openDirectory_inStep (cfg : EngineConfig) (d : Directory) : InStep (openDirectory cfg d) := by
  refine ⟨Manifest.removed_compact d.manifest, ?_⟩
  simp only [openDirectory]
  rw [Manifest.pathLevel_added_compact, List.map_map, ← Manifest.pathLevel_recover]
  exact List.map_congr_left fun m _ => (pathLevel_fillMetadata d.files m).symm

theorem InStep.markAborted {e : Engine} (h : InStep e) (ts : ℕ) : InStep (e.markAborted ts) := by
  refine h.congr rfl ?_
  simp only [Engine.markAborted, List.map_map]
  rfl

/-- A constructed engine starts in step with its MANIFEST, whatever the directory holds. -/
theorem construct_inStep (cfg : EngineConfig) (d : Directory) : InStep (construct cfg d) := by
  refine construct_rule cfg d (openDirectory_inStep cfg d) (fun e m h => h.doFlush m)
    (fun e ts h => h.markAborted ts) ?_
  intro e e' hmanifest hcat _ h
  exact h.congr hmanifest (by rw [hcat])

/-! ## After a compaction -/

/-- Every number in use is below `sstable_seq_`. -/
structure Numbered (e : Engine) : Prop where
  catalogue : ∀ m ∈ e.sstableMetadata, m.filepath < e.sstableSeq
  added : ∀ m ∈ Manifest.added e.manifest, m.manifestSeq < e.sstableSeq

theorem Numbered.doFlush {e : Engine} (h : Numbered e) (m : MemTable) : Numbered (e.doFlush m) := by
  rcases e.doFlush_cases m with ⟨-, heq⟩ | ⟨-, md, cache, hmd, heq⟩
  · rw [heq]
    exact h
  · rw [heq]
    refine ⟨?_, ?_⟩
    · intro m' hm'
      simp only [afterFlush, List.mem_append, List.mem_singleton] at hm' ⊢
      rcases hm' with hm' | rfl
      · have := h.catalogue m' hm'
        omega
      · rw [hmd.filepath]
        omega
    · intro m' hm'
      simp only [afterFlush, Manifest.added_addSSTable, List.mem_append, List.mem_singleton] at hm' ⊢
      rcases hm' with hm' | rfl
      · have := h.added m' hm'
        omega
      · simp

/-- The MANIFEST keeps a table that the catalogue no longer has, and no later number is its own. -/
structure Stale (e : Engine) (t : Metadata) : Prop where
  added : t ∈ Manifest.added e.manifest
  seqLt : t.manifestSeq < e.sstableSeq
  pathLt : t.filepath < e.sstableSeq
  notRemoved : t.manifestSeq ∉ Manifest.removed e.manifest
  notCatalogued : ∀ m ∈ e.sstableMetadata, m.filepath ≠ t.filepath

theorem Stale.not_agrees {e : Engine} {t : Metadata} (h : Stale e t) : ¬ ManifestAgrees e := by
  intro hagree
  have hsurv : t ∈ Manifest.surviving e.manifest := by
    simp [Manifest.surviving, h.added, h.notRemoved]
  have hrec : pathLevel t ∈ (Manifest.recover e.manifest).map pathLevel := by
    rw [Manifest.pathLevel_recover]
    exact List.mem_map_of_mem hsurv
  obtain ⟨m, hm, heq⟩ := List.mem_map.mp (hagree.subset hrec)
  exact h.notCatalogued m hm (congrArg Prod.fst heq)

theorem Stale.doFlush {e : Engine} {t : Metadata} (h : Stale e t) (m : MemTable) :
    Stale (e.doFlush m) t := by
  rcases e.doFlush_cases m with ⟨-, heq⟩ | ⟨-, md, cache, hmd, heq⟩
  · rw [heq]
    exact h
  · have hseq := h.seqLt
    have hpath := h.pathLt
    rw [heq]
    refine ⟨?_, ?_, ?_, ?_, ?_⟩
    · simp [afterFlush, h.added]
    · simp only [afterFlush]
      omega
    · simp only [afterFlush]
      omega
    · simp [afterFlush, h.notRemoved]
    · intro m' hm'
      simp only [afterFlush, List.mem_append, List.mem_singleton] at hm'
      rcases hm' with hm' | rfl
      · exact h.notCatalogued m' hm'
      · rw [hmd.filepath]
        omega

theorem removed_compactionRecords (file : List ManifestRecord) (seq removals : ℕ)
    (outputs : List Metadata) : Manifest.removed (compactionRecords file seq removals outputs) =
      Manifest.removed file ++ List.replicate removals seq := by
  rw [compactionRecords, Manifest.removed_append, Manifest.removed_append, Manifest.removed_removals,
    Manifest.removed_addRecords (fun p : Metadata × ℕ => (p.2, p.1)), List.append_nil]

theorem added_subset_compactionRecords (file : List ManifestRecord) (seq removals : ℕ)
    (outputs : List Metadata) (t : Metadata) (h : t ∈ Manifest.added file) :
    t ∈ Manifest.added (compactionRecords file seq removals outputs) := by
  rw [compactionRecords, Manifest.added_append, Manifest.added_append]
  simp [h]

/-- What a compaction with inputs leaves behind for a number below `sstable_seq_` that it does not
catalogue. -/
theorem stale_compactLevel {e : Engine} {t : Metadata} (fromLevel topLevel : ℕ)
    (hwork : e.nothingToCompact fromLevel topLevel = false)
    (hadded : t ∈ Manifest.added e.manifest) (hseq : t.manifestSeq < e.sstableSeq)
    (hpath : t.filepath < e.sstableSeq) (hrem : t.manifestSeq ∉ Manifest.removed e.manifest)
    (hcat : ∀ m ∈ e.sstableMetadata, m.filepath = t.filepath →
      ∃ i ∈ e.compactionInputs fromLevel topLevel, m.filepath = i.filepath) :
    Stale (e.compactLevel fromLevel topLevel) t := by
  refine ⟨?_, ?_, ?_, ?_, ?_⟩
  · rw [compactLevel_manifest e fromLevel topLevel hwork]
    exact added_subset_compactionRecords _ _ _ _ t hadded
  · rw [compactLevel_sstableSeq e fromLevel topLevel hwork]
    omega
  · rw [compactLevel_sstableSeq e fromLevel topLevel hwork]
    omega
  · rw [compactLevel_manifest e fromLevel topLevel hwork, removed_compactionRecords]
    simp only [List.mem_append, List.mem_replicate, not_or, not_and]
    exact ⟨hrem, fun _ => by omega⟩
  · intro m hm
    rw [compactLevel_catalogue e fromLevel topLevel hwork, List.mem_append] at hm
    rcases hm with hm | hm
    · intro heq
      obtain ⟨hm, hkeep⟩ := List.mem_filter.mp hm
      obtain ⟨i, hi, hpi⟩ := hcat m hm heq
      simp only [Bool.not_eq_true', List.any_eq_false, decide_eq_true_eq] at hkeep
      exact hkeep i hi hpi
    · have hge := (Compaction.compact_filepath (e.compactionJob fromLevel topLevel) m hm).1
      have hstart : (e.compactionJob fromLevel topLevel).seqStart = e.sstableSeq := rfl
      omega

theorem Stale.apply {e : Engine} {t : Metadata} (h : Stale e t) (op : CatalogueOp) :
    Stale (op.apply e) t := by
  cases op with
  | flush m => exact h.doFlush m
  | compact fromLevel topLevel =>
    by_cases hwork : e.nothingToCompact fromLevel topLevel = true
    · rw [CatalogueOp.apply, compactLevel_of_nothing e fromLevel topLevel hwork]
      exact h
    · exact stale_compactLevel fromLevel topLevel (Bool.not_eq_true _ ▸ hwork) h.added h.seqLt h.pathLt
        h.notRemoved fun m hm heq => absurd heq (h.notCatalogued m hm)

/-- The first compaction that has inputs leaves one of them in the MANIFEST. -/
theorem exists_stale {e : Engine} (hstep : InStep e) (hnum : Numbered e) (fromLevel topLevel : ℕ)
    (hwork : e.nothingToCompact fromLevel topLevel = false) :
    ∃ t, Stale (e.compactLevel fromLevel topLevel) t := by
  obtain ⟨-, i, hi⟩ := e.exists_input fromLevel topLevel hwork
  have hicat := ((e.mem_compactionInputs fromLevel topLevel i).mp hi).1
  have hmem : pathLevel i ∈ (Manifest.added e.manifest).map pathLevel := by
    rw [hstep.added]
    exact List.mem_map_of_mem hicat
  obtain ⟨t, ht, hpl⟩ := List.mem_map.mp hmem
  have hpath : t.filepath = i.filepath := congrArg Prod.fst hpl
  refine ⟨t, stale_compactLevel fromLevel topLevel hwork ht (hnum.added t ht) ?_ ?_ ?_⟩
  · rw [hpath]
    exact hnum.catalogue i hicat
  · simp [hstep.removed]
  · intro m _ heq
    exact ⟨i, hi, heq.trans hpath⟩

theorem Stale.runOps {e : Engine} {t : Metadata} (h : Stale e t) (ops : List CatalogueOp) :
    Stale (runOps e ops) t := by
  induction ops generalizing e with
  | nil => exact h
  | cons op ops ih => exact ih (h.apply op)

theorem InStep.runOps {e : Engine} (h : InStep e) (ops : List CatalogueOp) (hidle : NoInputs e ops) :
    InStep (runOps e ops) := by
  induction ops generalizing e with
  | nil => exact h
  | cons op ops ih => exact ih (h.apply op hidle.1) hidle.2

theorem Numbered.apply {e : Engine} (h : Numbered e) (op : CatalogueOp) (hidle : op.idle e = true) :
    Numbered (op.apply e) := by
  cases op with
  | flush m => exact h.doFlush m
  | compact fromLevel topLevel =>
    rw [CatalogueOp.apply, compactLevel_of_nothing e fromLevel topLevel hidle]
    exact h

theorem noInputs_of_agrees {e : Engine} (hstep : InStep e) (hnum : Numbered e) (ops : List CatalogueOp)
    (hagree : ManifestAgrees (runOps e ops)) : NoInputs e ops := by
  induction ops generalizing e with
  | nil => trivial
  | cons op ops ih =>
    by_cases hidle : op.idle e = true
    · exact ⟨hidle, ih (hstep.apply op hidle) (hnum.apply op hidle) hagree⟩
    · cases op with
      | flush m => exact absurd rfl hidle
      | compact fromLevel topLevel =>
        obtain ⟨t, ht⟩ := exists_stale hstep hnum fromLevel topLevel (Bool.not_eq_true _ ▸ hidle)
        exact absurd hagree (ht.runOps ops).not_agrees

theorem create_numbered (cfg : EngineConfig) : Numbered (create cfg) := by
  refine ⟨?_, ?_⟩
  · intro m hm
    cases hm
  · intro m hm
    cases hm

/-- On every directory the MANIFEST stays in step with the catalogue as long as no compaction finds
an input, and on an engine that starts from an empty directory the two agree only then. -/
theorem manifestAgrees_iff_noInputs (cfg : EngineConfig) (ops : List CatalogueOp) :
    (∀ d, NoInputs (construct cfg d) ops → ManifestAgrees (runOps (construct cfg d) ops)) ∧
      (ManifestAgrees (runOps (create cfg) ops) ↔ NoInputs (create cfg) ops) := by
  have hkeep : ∀ d, NoInputs (construct cfg d) ops → ManifestAgrees (runOps (construct cfg d) ops) :=
    fun d hidle => ((construct_inStep cfg d).runOps ops hidle).agrees
  refine ⟨hkeep, ?_, hkeep Directory.empty⟩
  exact noInputs_of_agrees (construct_inStep cfg Directory.empty) (create_numbered cfg) ops

theorem manifestAgrees_two_flushes :
    ManifestAgrees (runOps (construct smallConfig Directory.empty)
      [.flush (oneEntry 0 1), .flush (oneEntry 1 2)]) ∧
    ManifestAgrees (runOps (create smallConfig) [.flush (oneEntry 0 1), .flush (oneEntry 1 2)]) := by
  have h := manifestAgrees_iff_noInputs smallConfig [.flush (oneEntry 0 1), .flush (oneEntry 1 2)]
  exact ⟨h.1 Directory.empty ⟨rfl, rfl, trivial⟩, h.2.mpr ⟨rfl, rfl, trivial⟩⟩

/-- After two flushes and one compaction of level 0 the MANIFEST still has both inputs and has lost
the output. -/
theorem compaction_leaves_inputs_in_manifest :
    ¬ ∀ cfg ops, ManifestAgrees (runOps (create cfg) ops) := by
  intro h
  have hrun := h smallConfig [.flush (oneEntry 0 1), .flush (oneEntry 1 2), .compact 0 0]
  have hlen := List.Perm.length_eq hrun
  revert hlen
  decide

end Kvdb.Engine
