import Kvdb.Engine.Calls
import Kvdb.SSTable.Agreement
import Mathlib.Data.List.Nodup

/-! # The catalogue, its files and its cache keys

Invariants of every run, whatever is written and compacted. `Filed`: the tables have different files,
numbered below `sstable_seq_`, which exist and are not waiting to be deleted. `Keyed Q`: among the
cache keys in `Q` no two tables share one, and what is cached under a table's key comes from its file.
A key that is not 0 is given out once, so `Keyed (· ≠ 0)` needs no condition; with the key 0, which
every output of a compaction gets, a compaction has to meet `KeyFree`. -/
namespace Kvdb.Engine
set_option autoImplicit false

open SSTableCache

structure Filed (e : Engine) : Prop where
  nodup : (e.sstableMetadata.map Metadata.filepath).Nodup
  below : ∀ md ∈ e.sstableMetadata, md.filepath < e.sstableSeq
  files : ∀ md ∈ e.sstableMetadata, ∃ f, e.files md.filepath = some f
  garbage : ∀ p ∈ e.pendingGc, p.filepath < e.sstableSeq ∧
    ∀ md ∈ e.sstableMetadata, md.filepath ≠ p.filepath

structure Keyed (Q : ℕ → Prop) (e : Engine) : Prop where
  distinct : e.sstableMetadata.Pairwise fun a b => a.manifestSeq = b.manifestSeq → ¬ Q a.manifestSeq
  below : ∀ md ∈ e.sstableMetadata, md.manifestSeq < e.sstableSeq
  cached : ∀ c ∈ e.sstCache, ∀ seq, c.Caches seq → seq < e.sstableSeq
  live : Q 0 → ∀ c ∈ e.sstCache, c.Caches 0 → ∃ md ∈ e.sstableMetadata, md.manifestSeq = 0
  agrees : ∀ c ∈ e.sstCache, ∀ md ∈ e.sstableMetadata, Q md.manifestSeq →
    ∀ f, e.files md.filepath = some f → c.Agrees md.manifestSeq f

/-- The members that these invariants are about. -/
def tables (e : Engine) : List Metadata × (ℕ → Option SSTableFile) × ℕ × Option SSTableCache × List PendingFileGC :=
  (e.sstableMetadata, e.files, e.sstableSeq, e.sstCache, e.pendingGc)

variable {Q : ℕ → Prop} {e e' : Engine}

theorem Filed.congr (h : Filed e) (ht : e'.tables = e.tables) : Filed e' := by
  simp only [tables, Prod.mk.injEq] at ht
  obtain ⟨hcat, hfiles, hseq, -, hgc⟩ := ht
  exact ⟨hcat ▸ h.nodup, by rw [hcat, hseq]; exact h.below, by rw [hcat, hfiles]; exact h.files,
    by rw [hcat, hseq, hgc]; exact h.garbage⟩

theorem Keyed.congr (h : Keyed Q e) (ht : e'.tables = e.tables) : Keyed Q e' := by
  simp only [tables, Prod.mk.injEq] at ht
  obtain ⟨hcat, hfiles, hseq, hcache, -⟩ := ht
  exact ⟨hcat ▸ h.distinct, by rw [hcat, hseq]; exact h.below, by rw [hcache, hseq]; exact h.cached,
    by rw [hcache, hcat]; exact h.live, by rw [hcache, hcat, hfiles]; exact h.agrees⟩

theorem Keyed.mono {Q' : ℕ → Prop} (h : Keyed Q e) (hQ : ∀ n, Q' n → Q n) : Keyed Q' e where
  distinct := h.distinct.imp fun hab heq hq => hab heq (hQ _ hq)
  below := h.below
  cached := h.cached
  live hq := h.live (hQ 0 hq)
  agrees c hc md hmd hq := h.agrees c hc md hmd (hQ _ hq)

/-- The catalogue records change in what is neither the path nor the cache key. -/
theorem Filed.relabel (h : Filed e) {g : Metadata → Metadata} (hpath : ∀ md, (g md).filepath = md.filepath)
    (hcat : e'.sstableMetadata = e.sstableMetadata.map g) (hfiles : e'.files = e.files)
    (hseq : e'.sstableSeq = e.sstableSeq) (hgc : e'.pendingGc = e.pendingGc) : Filed e' := by
  have hmem : ∀ md' ∈ e'.sstableMetadata, ∃ md ∈ e.sstableMetadata, md'.filepath = md.filepath := by
    intro md' hmd'
    rw [hcat] at hmd'
    obtain ⟨md, hmd, rfl⟩ := List.mem_map.mp hmd'
    exact ⟨md, hmd, hpath md⟩
  refine ⟨?_, ?_, ?_, ?_⟩
  · have hpaths : e'.sstableMetadata.map Metadata.filepath = e.sstableMetadata.map Metadata.filepath := by
      rw [hcat, List.map_map]
      exact List.map_congr_left fun md _ => hpath md
    rw [hpaths]
    exact h.nodup
  · intro md' hmd'
    obtain ⟨md, hmd, heq⟩ := hmem md' hmd'
    rw [heq, hseq]
    exact h.below md hmd
  · intro md' hmd'
    obtain ⟨md, hmd, heq⟩ := hmem md' hmd'
    rw [heq, hfiles]
    exact h.files md hmd
  · intro p hp
    rw [hgc] at hp
    obtain ⟨hlt, hne⟩ := h.garbage p hp
    refine ⟨by rw [hseq]; exact hlt, ?_⟩
    intro md' hmd'
    obtain ⟨md, hmd, heq⟩ := hmem md' hmd'
    rw [heq]
    exact hne md hmd

theorem Keyed.relabel (h : Keyed Q e) {g : Metadata → Metadata} (hpath : ∀ md, (g md).filepath = md.filepath)
    (hkey : ∀ md, (g md).manifestSeq = md.manifestSeq) (hcat : e'.sstableMetadata = e.sstableMetadata.map g)
    (hfiles : e'.files = e.files) (hseq : e'.sstableSeq = e.sstableSeq) (hcache : e'.sstCache = e.sstCache) :
    Keyed Q e' := by
  have hmem : ∀ md' ∈ e'.sstableMetadata, ∃ md ∈ e.sstableMetadata, md' = g md := by
    intro md' hmd'
    rw [hcat] at hmd'
    obtain ⟨md, hmd, rfl⟩ := List.mem_map.mp hmd'
    exact ⟨md, hmd, rfl⟩
  refine ⟨?_, ?_, ?_, ?_, ?_⟩
  · rw [hcat, List.pairwise_map]
    refine h.distinct.imp ?_
    intro a b hab
    rw [hkey, hkey]
    exact hab
  · intro md' hmd'
    obtain ⟨md, hmd, rfl⟩ := hmem md' hmd'
    rw [hkey, hseq]
    exact h.below md hmd
  · rw [hcache, hseq]
    exact h.cached
  · intro hQ c hc hcaches
    rw [hcache] at hc
    obtain ⟨md, hmd, hzero⟩ := h.live hQ c hc hcaches
    refine ⟨g md, ?_, (hkey md).trans hzero⟩
    rw [hcat]
    exact List.mem_map_of_mem hmd
  · intro c hc md' hmd' hQ f hfile
    rw [hcache] at hc
    obtain ⟨md, hmd, rfl⟩ := hmem md' hmd'
    rw [hkey] at hQ ⊢
    rw [hpath, hfiles] at hfile
    exact h.agrees c hc md hmd hQ f hfile

theorem tables_written (e : Engine) (key value : Bytes) (isTombstone : Bool) (kv : KVCache) :
    tables { e.written key value isTombstone with kvCache := kv } = e.tables := by
  unfold written applyWrite freezeIfFull
  split <;> rfl

/-! ## Flushes -/

theorem Filed.doFlush (h : Filed e) (m : MemTable) : Filed (e.doFlush m) := by
  rcases e.doFlush_cases m with ⟨-, heq⟩ | ⟨-, md, cache, hmd, heq⟩
  · rw [heq]
    exact h
  · rw [heq]
    have hnew : ∀ md' ∈ e.sstableMetadata, md'.filepath ≠ md.filepath := by
      intro md' hmd'
      rw [hmd.filepath]
      exact Nat.ne_of_lt (h.below md' hmd')
    refine ⟨?_, ?_, ?_, ?_⟩
    · show ((e.sstableMetadata ++ [md]).map Metadata.filepath).Nodup
      rw [List.map_append, List.map_singleton, List.nodup_append]
      refine ⟨h.nodup, List.pairwise_singleton _ _, ?_⟩
      intro a ha b hb
      obtain ⟨md', hmd', rfl⟩ := List.mem_map.mp ha
      rw [List.mem_singleton.mp hb]
      exact hnew md' hmd'
    · intro md' hmd'
      rcases List.mem_append.mp hmd' with hmd' | hmd'
      · exact Nat.lt_succ_of_lt (h.below md' hmd')
      · rw [List.mem_singleton.mp hmd', hmd.filepath]
        exact Nat.lt_succ_self _
    · intro md' hmd'
      show ∃ f, (if md'.filepath = e.sstableSeq then some (e.flushFile m) else e.files md'.filepath) = some f
      rcases List.mem_append.mp hmd' with hmd' | hmd'
      · rw [if_neg (Nat.ne_of_lt (h.below md' hmd'))]
        exact h.files md' hmd'
      · rw [List.mem_singleton.mp hmd', if_pos hmd.filepath]
        exact ⟨_, rfl⟩
    · intro p hp
      obtain ⟨hlt, hne⟩ := h.garbage p hp
      refine ⟨Nat.lt_succ_of_lt hlt, ?_⟩
      intro md' hmd'
      rcases List.mem_append.mp hmd' with hmd' | hmd'
      · exact hne md' hmd'
      · rw [List.mem_singleton.mp hmd', hmd.filepath]
        exact (Nat.ne_of_lt hlt).symm

/-- The cache after a flush: the new key holds what the new file has, nothing else changes. -/
theorem flushed_cache {m : MemTable} {md : Metadata} {cache : Option SSTableCache}
    (hmd : Flushed e m md cache) (hfresh : ∀ c ∈ e.sstCache, ¬ c.Caches e.sstableSeq) :
    ∀ c' ∈ cache, ∃ c ∈ e.sstCache, c'.Agrees e.sstableSeq (e.flushFile m) ∧ SameBut e.sstableSeq c c' := by
  obtain ⟨md', hread, -⟩ := hmd.read
  intro c' hc'
  cases hcache : e.sstCache with
  | none =>
    rw [hcache] at hread
    cases hread
    cases hc'
  | some c =>
    have hput : (c.putBlocks e.sstableSeq 0 (e.flushFile m).blocks).Agrees e.sstableSeq (e.flushFile m) :=
      (agrees_of_not_caches (hfresh c hcache)).putBlocks 0 _ rfl
    have hsame := putBlocks_sameBut c e.sstableSeq 0 (e.flushFile m).blocks
    rw [hcache, Option.map_some, readMetadata, Option.bind_some] at hread
    refine ⟨c, rfl, ?_⟩
    split at hread
    · cases hread
      cases hc'
      exact ⟨hput, hsame⟩
    · cases hread
      cases hc'
      exact ⟨hput.putHeavy, hsame.trans (putHeavy_sameBut _ _ _)⟩

theorem Keyed.doFlush (h : Keyed Q e) (hf : Filed e) (m : MemTable) : Keyed Q (e.doFlush m) := by
  rcases e.doFlush_cases m with ⟨-, heq⟩ | ⟨-, md, cache, hmd, heq⟩
  · rw [heq]
    exact h
  · rw [heq]
    have hfresh : ∀ c ∈ e.sstCache, ¬ c.Caches e.sstableSeq :=
      fun c hc hcaches => Nat.lt_irrefl _ (h.cached c hc _ hcaches)
    have hcache := flushed_cache hmd hfresh
    refine ⟨?_, ?_, ?_, ?_, ?_⟩
    · show (e.sstableMetadata ++ [md]).Pairwise _
      rw [List.pairwise_append]
      refine ⟨h.distinct, List.pairwise_singleton _ _, ?_⟩
      intro a ha b hb hab
      rw [List.mem_singleton.mp hb, hmd.manifestSeq] at hab
      exact absurd hab (Nat.ne_of_lt (h.below a ha))
    · intro md' hmd'
      rcases List.mem_append.mp hmd' with hmd' | hmd'
      · exact Nat.lt_succ_of_lt (h.below md' hmd')
      · rw [List.mem_singleton.mp hmd', hmd.manifestSeq]
        exact Nat.lt_succ_self _
    · intro c' hc' seq hcaches
      obtain ⟨c, hc, -, hsame⟩ := hcache c' hc'
      by_cases hseq : seq = e.sstableSeq
      · rw [hseq]
        exact Nat.lt_succ_self _
      · exact Nat.lt_succ_of_lt (h.cached c hc seq (hsame.caches hseq hcaches))
    · intro hQ c' hc' hcaches
      obtain ⟨c, hc, -, hsame⟩ := hcache c' hc'
      by_cases hzero : 0 = e.sstableSeq
      · exact ⟨md, List.mem_append_right _ List.mem_cons_self, hmd.manifestSeq.trans hzero.symm⟩
      · obtain ⟨md', hmd', hseq⟩ := h.live hQ c hc (hsame.caches hzero hcaches)
        exact ⟨md', List.mem_append_left _ hmd', hseq⟩
    · intro c' hc' md' hmd' hQ f hfile
      have hfile' : (if md'.filepath = e.sstableSeq then some (e.flushFile m) else e.files md'.filepath) =
          some f := hfile
      obtain ⟨c, hc, hagree, hsame⟩ := hcache c' hc'
      rcases List.mem_append.mp hmd' with hmd' | hmd'
      · rw [if_neg (Nat.ne_of_lt (hf.below md' hmd'))] at hfile'
        exact hsame.agrees (Nat.ne_of_lt (h.below md' hmd')) (h.agrees c hc md' hmd' hQ f hfile')
      · rw [List.mem_singleton] at hmd'
        subst hmd'
        rw [if_pos hmd.filepath] at hfile'
        cases hfile'
        rw [hmd.manifestSeq]
        exact hagree

/-! ## Compactions -/

/-- The tables that a compaction leaves in the catalogue. -/
def survivors (e : Engine) (fromLevel topLevel : ℕ) : List Metadata :=
  e.sstableMetadata.filter fun m =>
    !(e.compactionInputs fromLevel topLevel).any fun i => decide (m.filepath = i.filepath)

theorem mem_survivors {fromLevel topLevel : ℕ} {md : Metadata} :
    md ∈ e.survivors fromLevel topLevel ↔
      md ∈ e.sstableMetadata ∧ ∀ i ∈ e.compactionInputs fromLevel topLevel, md.filepath ≠ i.filepath := by
  simp only [survivors, List.mem_filter, Bool.not_eq_true', List.any_eq_false, decide_eq_true_eq]

theorem Filed.eq_of_filepath (h : Filed e) {a b : Metadata} (ha : a ∈ e.sstableMetadata)
    (hb : b ∈ e.sstableMetadata) (hab : a.filepath = b.filepath) : a = b :=
  List.inj_on_of_nodup_map h.nodup ha hb hab

/-- A table stays exactly if its level is none of the compacted ones. -/
theorem Filed.mem_survivors (h : Filed e) {fromLevel topLevel : ℕ} {md : Metadata} :
    md ∈ e.survivors fromLevel topLevel ↔
      md ∈ e.sstableMetadata ∧ ¬ (fromLevel ≤ md.level ∧ md.level ≤ topLevel) := by
  rw [Engine.mem_survivors]
  constructor
  · rintro ⟨hmd, hne⟩
    refine ⟨hmd, ?_⟩
    intro hlevel
    exact hne md ((mem_compactionInputs e fromLevel topLevel md).mpr ⟨hmd, hlevel⟩) rfl
  · rintro ⟨hmd, hlevel⟩
    refine ⟨hmd, ?_⟩
    intro i hi hpath
    obtain ⟨hicat, hilevel⟩ := (mem_compactionInputs e fromLevel topLevel i).mp hi
    rw [h.eq_of_filepath hmd hicat hpath] at hlevel
    exact hlevel hilevel

section Compacted

variable {fromLevel topLevel : ℕ}

theorem compactLevel_survivors (hwork : e.nothingToCompact fromLevel topLevel = false) :
    (e.compactLevel fromLevel topLevel).sstableMetadata =
      e.survivors fromLevel topLevel ++ (e.runCompact fromLevel topLevel).outputs :=
  compactLevel_catalogue e fromLevel topLevel hwork

theorem output_ge {md : Metadata} (hmd : md ∈ (e.runCompact fromLevel topLevel).outputs) :
    e.sstableSeq ≤ md.filepath ∧
      md.filepath < e.sstableSeq + (e.runCompact fromLevel topLevel).outputs.length :=
  Compaction.compact_filepath (e.compactionJob fromLevel topLevel) md hmd

/-- Each output has its file, which the compaction writes. -/
theorem output_file (hwork : e.nothingToCompact fromLevel topLevel = false) {md : Metadata}
    (hmd : md ∈ (e.runCompact fromLevel topLevel).outputs) :
    ∃ f, (md.filepath, f) ∈ (e.compactionJob fromLevel topLevel).outFiles ∧
      md = Compaction.outputMetadata (topLevel + 1) (e.compactionJob fromLevel topLevel).isLast
        (Compaction.mergedAborted (e.compactionInputs fromLevel topLevel)) (md.filepath, f) ∧
      (e.compactLevel fromLevel topLevel).files md.filepath = some f := by
  have hnumbers := (Compaction.compact_numbers (e.compactionJob fromLevel topLevel)).2
  rw [compactLevel_eq e fromLevel topLevel hwork]
  unfold runCompact Compaction.compact at hmd ⊢
  unfold Compaction.compact at hnumbers
  split at hmd
  · cases hmd
  · next hsources =>
    rw [if_neg hsources] at hnumbers ⊢
    obtain ⟨p, hp, heq⟩ := List.mem_map.mp hmd
    subst heq
    refine ⟨p.2, hp, rfl, ?_⟩
    refine writeOutputs_files_of_mem _ _ ?_ hp
    rw [Compaction.Job.outputs, List.map_map] at hnumbers
    exact hnumbers

/-- The files of the tables that stay are not written to. -/
theorem compactLevel_files_of_lt (hwork : e.nothingToCompact fromLevel topLevel = false) {n : ℕ}
    (hn : n < e.sstableSeq) : (e.compactLevel fromLevel topLevel).files n = e.files n := by
  rw [compactLevel_eq e fromLevel topLevel hwork]
  refine writeOutputs_files_of_notMem _ _ n ?_
  intro hin
  obtain ⟨p, hp, rfl⟩ := List.mem_map.mp hin
  have hout := (Compaction.compact_numbers (e.compactionJob fromLevel topLevel)).1 p hp
  obtain ⟨md, hmd, hpath⟩ := List.mem_map.mp hout
  have hge := output_ge hmd
  omega

/-- What a compaction queues for deletion are input files. -/
theorem garbage_subset {n : ℕ} (hn : n ∈ (e.runCompact fromLevel topLevel).garbage) :
    ∃ i ∈ e.compactionInputs fromLevel topLevel, i.filepath = n := by
  unfold runCompact Compaction.compact at hn
  split at hn
  · cases hn
  · exact List.mem_map.mp hn

theorem Filed.compactLevel (h : Filed e) (fromLevel topLevel : ℕ) :
    Filed (e.compactLevel fromLevel topLevel) := by
  cases hwork : e.nothingToCompact fromLevel topLevel with
  | true =>
    rw [compactLevel_of_nothing e fromLevel topLevel hwork]
    exact h
  | false =>
    have hcat := compactLevel_survivors hwork
    have hseq := compactLevel_sstableSeq e fromLevel topLevel hwork
    have hsurv : ∀ md ∈ e.survivors fromLevel topLevel, md ∈ e.sstableMetadata :=
      fun md hmd => (Engine.mem_survivors.mp hmd).1
    refine ⟨?_, ?_, ?_, ?_⟩
    · rw [hcat, List.map_append, List.nodup_append]
      refine ⟨?_, (Compaction.compact_numbers (e.compactionJob fromLevel topLevel)).2, ?_⟩
      · exact h.nodup.sublist (List.filter_sublist.map _)
      · intro a ha b hb
        obtain ⟨md, hmd, rfl⟩ := List.mem_map.mp ha
        obtain ⟨out, hout, rfl⟩ := List.mem_map.mp hb
        have hlt := h.below md (hsurv md hmd)
        have hge := output_ge hout
        omega
    · intro md hmd
      rw [hcat, List.mem_append] at hmd
      rw [hseq]
      rcases hmd with hmd | hmd
      · have hlt := h.below md (hsurv md hmd)
        omega
      · have hge := output_ge hmd
        omega
    · intro md hmd
      rw [hcat, List.mem_append] at hmd
      rcases hmd with hmd | hmd
      · rw [compactLevel_files_of_lt hwork (h.below md (hsurv md hmd))]
        exact h.files md (hsurv md hmd)
      · obtain ⟨f, -, -, hfile⟩ := output_file hwork hmd
        exact ⟨f, hfile⟩
    · intro p hp
      rw [hseq, hcat]
      have hgc : p ∈ e.pendingGc ++ (e.runCompact fromLevel topLevel).garbage.map fun f =>
          (⟨f, gcSeq (e.compactionInputs fromLevel topLevel) f, e.globalTs⟩ : PendingFileGC) := by
        rw [compactLevel_eq e fromLevel topLevel hwork] at hp
        exact hp
      have hold : p.filepath < e.sstableSeq ∧
          ∀ md ∈ e.survivors fromLevel topLevel, md.filepath ≠ p.filepath := by
        rcases List.mem_append.mp hgc with hp | hp
        · obtain ⟨hlt, hne⟩ := h.garbage p hp
          exact ⟨hlt, fun md hmd => hne md (hsurv md hmd)⟩
        · obtain ⟨n, hn, rfl⟩ := List.mem_map.mp hp
          obtain ⟨i, hi, hpath⟩ := garbage_subset hn
          subst hpath
          have hicat := ((mem_compactionInputs e fromLevel topLevel i).mp hi).1
          exact ⟨h.below i hicat, fun md hmd => (Engine.mem_survivors.mp hmd).2 i hi⟩
      refine ⟨by omega, ?_⟩
      intro md hmd
      rcases List.mem_append.mp hmd with hmd | hmd
      · exact hold.2 md hmd
      · have hge := output_ge hmd
        omega

/-- What keeps the cache key 0 to one table: a compaction makes at most one output, no table that
stays has the key, and inputs without any entry, which are not dropped from the cache, do not have
it either. -/
structure KeyFree (e : Engine) (fromLevel topLevel : ℕ) : Prop where
  oneOutput : (e.compactionJob fromLevel topLevel).batches.length ≤ 1
  survivors : (e.compactionJob fromLevel topLevel).batches ≠ [] →
    ∀ md ∈ e.survivors fromLevel topLevel, md.manifestSeq ≠ 0
  inputs : (e.compactionJob fromLevel topLevel).sources = [] →
    ∀ md ∈ e.compactionInputs fromLevel topLevel, md.manifestSeq ≠ 0

instance decidableKeyFree (e : Engine) (fromLevel topLevel : ℕ) : Decidable (KeyFree e fromLevel topLevel) :=
  decidable_of_iff
    ((e.compactionJob fromLevel topLevel).batches.length ≤ 1 ∧
      ((e.compactionJob fromLevel topLevel).batches ≠ [] →
        ∀ md ∈ e.survivors fromLevel topLevel, md.manifestSeq ≠ 0) ∧
      ((e.compactionJob fromLevel topLevel).sources = [] →
        ∀ md ∈ e.compactionInputs fromLevel topLevel, md.manifestSeq ≠ 0))
    ⟨fun h => ⟨h.1, h.2.1, h.2.2⟩, fun h => ⟨h.oneOutput, h.survivors, h.inputs⟩⟩

theorem gcSeq_of_mem {inputs : List Metadata} (hnodup : (inputs.map Metadata.filepath).Nodup)
    {i : Metadata} (hi : i ∈ inputs) : gcSeq inputs i.filepath = i.manifestSeq := by
  have hsome : (inputs.find? fun m => decide (m.filepath = i.filepath)).isSome = true := by
    rw [List.find?_isSome]
    exact ⟨i, hi, decide_eq_true rfl⟩
  obtain ⟨j, hj⟩ := Option.isSome_iff_exists.mp hsome
  have hpath : j.filepath = i.filepath := by
    have hfound := List.find?_some hj
    exact of_decide_eq_true hfound
  have hij : j = i := List.inj_on_of_nodup_map hnodup (List.mem_of_find?_eq_some hj) hi hpath
  rw [gcSeq, hj, hij]
  rfl

theorem outputs_length_le (e : Engine) (fromLevel topLevel : ℕ) :
    (e.runCompact fromLevel topLevel).outputs.length ≤ (e.compactionJob fromLevel topLevel).batches.length :=
  Compaction.compact_outputs_length_le _

theorem output_manifestSeq {md : Metadata} (hmd : md ∈ (e.runCompact fromLevel topLevel).outputs) :
    md.manifestSeq = 0 ∧ md.level = topLevel + 1 := by
  unfold runCompact Compaction.compact at hmd
  split at hmd
  · cases hmd
  · obtain ⟨p, -, rfl⟩ := List.mem_map.mp hmd
    exact ⟨rfl, rfl⟩

theorem Filed.inputs_nodup (h : Filed e) (fromLevel topLevel : ℕ) :
    ((e.compactionInputs fromLevel topLevel).map Metadata.filepath).Nodup :=
  h.nodup.sublist (List.filter_sublist.map _)

/-- With `KeyFree`, what is still cached under 0 belongs to a table that stays. -/
theorem Keyed.survivor_of_caches (h : Keyed Q e) (hf : Filed e) (hQ : Q 0)
    (hfree : KeyFree e fromLevel topLevel) {c : SSTableCache} (hc : c ∈ e.sstCache)
    (hcaches : ((e.runCompact fromLevel topLevel).garbage.foldl
      (fun c f => c.invalidate (gcSeq (e.compactionInputs fromLevel topLevel) f)) c).Caches 0) :
    ∃ md ∈ e.survivors fromLevel topLevel, md.manifestSeq = 0 := by
  obtain ⟨hold, hne⟩ := (foldl_invalidate (gcSeq (e.compactionInputs fromLevel topLevel)) _ c).2 0 hcaches
  obtain ⟨md, hmd, hzero⟩ := h.live hQ c hc hold
  by_cases hin : fromLevel ≤ md.level ∧ md.level ≤ topLevel
  · have hinput := (mem_compactionInputs e fromLevel topLevel md).mpr ⟨hmd, hin⟩
    by_cases hsources : (e.compactionJob fromLevel topLevel).sources = []
    · exact absurd hzero (hfree.inputs hsources md hinput)
    · have hgarbage : md.filepath ∈ (e.runCompact fromLevel topLevel).garbage := by
        rw [runCompact, Compaction.compact, if_neg (by simpa using hsources)]
        exact List.mem_map_of_mem hinput
      have hgc := gcSeq_of_mem (hf.inputs_nodup fromLevel topLevel) hinput
      exact absurd (hgc.trans hzero).symm (hne _ hgarbage)
  · exact ⟨md, hf.mem_survivors.mpr ⟨hmd, hin⟩, hzero⟩

theorem Keyed.compactLevel (h : Keyed Q e) (hf : Filed e) (fromLevel topLevel : ℕ)
    (hfree : e.nothingToCompact fromLevel topLevel = false → Q 0 → KeyFree e fromLevel topLevel) :
    Keyed Q (e.compactLevel fromLevel topLevel) := by
  cases hwork : e.nothingToCompact fromLevel topLevel with
  | true =>
    rw [compactLevel_of_nothing e fromLevel topLevel hwork]
    exact h
  | false =>
    have hcat := compactLevel_survivors hwork
    have hseq := compactLevel_sstableSeq e fromLevel topLevel hwork
    have hsurv : ∀ md ∈ e.survivors fromLevel topLevel, md ∈ e.sstableMetadata :=
      fun md hmd => (Engine.mem_survivors.mp hmd).1
    have hnotEmpty : ∀ md ∈ (e.runCompact fromLevel topLevel).outputs,
        (e.compactionJob fromLevel topLevel).batches ≠ [] := by
      intro md hmd hnil
      have hle := e.outputs_length_le fromLevel topLevel
      rw [hnil, List.length_nil] at hle
      rw [List.length_eq_zero_iff.mp (Nat.le_zero.mp hle)] at hmd
      cases hmd
    have hcache : ∀ c' ∈ (e.compactLevel fromLevel topLevel).sstCache, ∃ c ∈ e.sstCache,
        c' = (e.runCompact fromLevel topLevel).garbage.foldl
          (fun c f => c.invalidate (gcSeq (e.compactionInputs fromLevel topLevel) f)) c := by
      intro c' hc'
      rw [compactLevel_eq e fromLevel topLevel hwork] at hc'
      obtain ⟨c, hc, heq⟩ := Option.map_eq_some_iff.mp hc'
      exact ⟨c, hc, heq.symm⟩
    refine ⟨?_, ?_, ?_, ?_, ?_⟩
    · rw [hcat, List.pairwise_append]
      refine ⟨h.distinct.sublist List.filter_sublist, ?_, ?_⟩
      · by_cases hQ : Q 0
        · have hone := Nat.le_trans (e.outputs_length_le fromLevel topLevel) (hfree hwork hQ).oneOutput
          match hout : (e.runCompact fromLevel topLevel).outputs, hone with
          | [], _ => exact List.Pairwise.nil
          | [md], _ => exact List.pairwise_singleton _ _
        · refine List.pairwise_of_forall_mem_list ?_
          intro a ha b hb _
          rw [(output_manifestSeq ha).1]
          exact hQ
      · intro a ha b hb hab hQa
        have hzero : a.manifestSeq = 0 := hab.trans (output_manifestSeq hb).1
        rw [hzero] at hQa
        exact (hfree hwork hQa).survivors (hnotEmpty b hb) a ha hzero
    · intro md hmd
      rw [hcat, List.mem_append] at hmd
      rw [hseq]
      rcases hmd with hmd | hmd
      · have hlt := h.below md (hsurv md hmd)
        omega
      · rw [(output_manifestSeq hmd).1, reservedOutputs]
        omega
    · intro c' hc' seq hcaches
      obtain ⟨c, hc, rfl⟩ := hcache c' hc'
      have hlt := h.cached c hc seq
        ((foldl_invalidate (gcSeq (e.compactionInputs fromLevel topLevel)) _ c).2 seq hcaches).1
      rw [hseq]
      omega
    · intro hQ c' hc' hcaches
      obtain ⟨c, hc, rfl⟩ := hcache c' hc'
      obtain ⟨md, hmd, hzero⟩ := h.survivor_of_caches hf hQ (hfree hwork hQ) hc hcaches
      exact ⟨md, by rw [hcat]; exact List.mem_append_left _ hmd, hzero⟩
    · intro c' hc' md hmd hQ f hfile
      obtain ⟨c, hc, rfl⟩ := hcache c' hc'
      rw [hcat, List.mem_append] at hmd
      rcases hmd with hmd | hmd
      · rw [compactLevel_files_of_lt hwork (hf.below md (hsurv md hmd))] at hfile
        exact (foldl_invalidate _ _ c).1 _ f (h.agrees c hc md (hsurv md hmd) hQ f hfile)
      · have hzero := (output_manifestSeq hmd).1
        rw [hzero] at hQ ⊢
        refine agrees_of_not_caches ?_
        intro hcaches
        obtain ⟨md', hmd', hzero'⟩ := h.survivor_of_caches hf hQ (hfree hwork hQ) hc hcaches
        exact (hfree hwork hQ).survivors (hnotEmpty md hmd) md' hmd' hzero'

end Compacted

/-! ## Lookups, evictions and garbage -/

/-- A cache that may replace the one of the engine: it agrees where that one does, and holds nothing
under keys that no table has. -/
structure CacheFor (Q : ℕ → Prop) (e : Engine) (cache : Option SSTableCache) : Prop where
  cached : ∀ c ∈ cache, ∀ seq, c.Caches seq → seq < e.sstableSeq
  live : Q 0 → ∀ c ∈ cache, c.Caches 0 → ∃ md ∈ e.sstableMetadata, md.manifestSeq = 0
  agrees : ∀ c ∈ cache, ∀ md ∈ e.sstableMetadata, Q md.manifestSeq →
    ∀ f, e.files md.filepath = some f → c.Agrees md.manifestSeq f

theorem Keyed.cacheFor (h : Keyed Q e) : CacheFor Q e e.sstCache := ⟨h.cached, h.live, h.agrees⟩

theorem Keyed.withCache (h : Keyed Q e) {cache : Option SSTableCache} (hc : CacheFor Q e cache) {kv : KVCache} :
    Keyed Q { e with kvCache := kv, sstCache := cache } :=
  ⟨h.distinct, h.below, hc.cached, hc.live, hc.agrees⟩

theorem Filed.withCache (h : Filed e) {cache : Option SSTableCache} {kv : KVCache} :
    Filed { e with kvCache := kv, sstCache := cache } := ⟨h.nodup, h.below, h.files, h.garbage⟩

/-- Two tables with a key in `Q` are the same table. -/
theorem Keyed.eq_of_manifestSeq (h : Keyed Q e) {a b : Metadata} (ha : a ∈ e.sstableMetadata)
    (hb : b ∈ e.sstableMetadata) (hab : a.manifestSeq = b.manifestSeq) (hQ : Q a.manifestSeq) : a = b := by
  by_contra hne
  have hsymm : e.sstableMetadata.Pairwise fun a b => a.manifestSeq = b.manifestSeq → ¬ Q a.manifestSeq :=
    h.distinct
  rcases List.pairwise_iff_getElem.mp hsymm with hget
  obtain ⟨i, hi, rfl⟩ := List.getElem_of_mem ha
  obtain ⟨j, hj, rfl⟩ := List.getElem_of_mem hb
  rcases Nat.lt_trichotomy i j with hij | hij | hij
  · exact hget i j hi hj hij hab hQ
  · subst hij
    exact hne rfl
  · exact hget j i hj hi hij hab.symm (hab ▸ hQ)

theorem CacheFor.lookupKey (h : Keyed Q e) {cache : Option SSTableCache} (hc : CacheFor Q e cache)
    {md : Metadata} (hmd : md ∈ e.sstableMetadata) {f : SSTableFile} (hfile : e.files md.filepath = some f)
    {key : Bytes} {readTs : ℕ} {r : Option KeyValuePair × Option SSTableCache}
    (hr : Kvdb.lookupKey (some f) key readTs cache md.manifestSeq = some r) : CacheFor Q e r.2 := by
  cases cache with
  | none =>
    rw [lookupKey_none] at hr
    cases hr
    rw [lookupIn_none_cache]
    exact hc
  | some c =>
    obtain ⟨c', heq, hsame⟩ := lookupKey_sameBut hr
    rw [heq]
    refine ⟨?_, ?_, ?_⟩
    · intro c2 hc2 seq hcaches
      cases hc2
      by_cases hseq : seq = md.manifestSeq
      · rw [hseq]
        exact h.below md hmd
      · exact hc.cached c rfl seq (hsame.caches hseq hcaches)
    · intro hQ c2 hc2 hcaches
      cases hc2
      by_cases hseq : 0 = md.manifestSeq
      · exact ⟨md, hmd, hseq.symm⟩
      · exact hc.live hQ c rfl (hsame.caches hseq hcaches)
    · intro c2 hc2 md' hmd' hQ f' hfile'
      cases hc2
      by_cases hseq : md'.manifestSeq = md.manifestSeq
      · have hsamemd := h.eq_of_manifestSeq hmd' hmd hseq hQ
        subst hsamemd
        rw [hfile] at hfile'
        cases hfile'
        obtain ⟨c3, heq3, hagree, -⟩ := lookupKey_agrees key readTs
          (hc.agrees c rfl md' hmd' hQ f hfile)
        rw [hr] at heq3
        cases heq3
        cases heq
        exact hagree
      · exact hsame.agrees hseq (hc.agrees c rfl md' hmd' hQ f' hfile')

theorem CacheFor.probeTables (h : Keyed Q e) (hf : Filed e) (scanned : List ℕ) (key : Bytes) (readTs : ℕ)
    (mds : List Metadata) (hmds : ∀ md ∈ mds, md ∈ e.sstableMetadata) {cache : Option SSTableCache}
    (hc : CacheFor Q e cache) : CacheFor Q e (Engine.probeTables e.files scanned key readTs mds cache).2 := by
  induction mds generalizing cache with
  | nil => exact hc
  | cons md mds ih =>
    have hrest := fun md' hmd' => hmds md' (List.mem_cons_of_mem md hmd')
    obtain ⟨f, hfile⟩ := hf.files md (hmds md List.mem_cons_self)
    unfold Engine.probeTables
    split
    · exact ih hrest hc
    · split
      · exact ih hrest hc
      · next v cache' hr =>
        rw [hfile] at hr
        exact CacheFor.lookupKey h hc (hmds md List.mem_cons_self) hfile hr
      · next cache' hr =>
        rw [hfile] at hr
        exact ih hrest (CacheFor.lookupKey h hc (hmds md List.mem_cons_self) hfile hr)

theorem mem_lookupOrder {mds : List Metadata} {md : Metadata} : md ∈ lookupOrder mds ↔ md ∈ mds := by
  simp only [lookupOrder, List.mem_append, List.mem_filter, List.mem_reverse, decide_eq_true_eq,
    Bool.not_eq_true', decide_eq_false_iff_not]
  constructor
  · rintro (⟨hmd, -⟩ | ⟨hmd, -⟩) <;> exact hmd
  · intro hmd
    by_cases hlevel : md.level = 0
    · exact .inl ⟨hmd, hlevel⟩
    · exact .inr ⟨hmd, hlevel⟩

/-- A lookup changes the two caches only. -/
theorem lookupAt_eq (e : Engine) (key : Bytes) (readTs : ℕ) :
    ∃ kv cache, (e.lookupAt key readTs).2 = { e with kvCache := kv, sstCache := cache } ∧
      (cache = e.sstCache ∨ cache = (e.probeSSTables key readTs).2) := by
  unfold lookupAt
  split
  · exact ⟨_, _, rfl, .inl rfl⟩
  · unfold lookupUncached
    split
    · next v cache hv =>
      have hcache : cache = e.sstCache ∨ cache = (e.probeSSTables key readTs).2 := by
        split at hv
        · exact .inl (Prod.mk.inj hv).2.symm
        · exact .inr (Prod.mk.inj hv).2.symm
      split
      · exact ⟨_, _, rfl, hcache⟩
      · exact ⟨_, _, rfl, hcache⟩
    · next cache hv =>
      refine ⟨_, _, rfl, ?_⟩
      split at hv
      · exact .inl (Prod.mk.inj hv).2.symm
      · exact .inr (Prod.mk.inj hv).2.symm

theorem Keyed.lookupAt (h : Keyed Q e) (hf : Filed e) (key : Bytes) (readTs : ℕ) :
    Keyed Q (e.lookupAt key readTs).2 := by
  obtain ⟨kv, cache, heq, hcache⟩ := e.lookupAt_eq key readTs
  rw [heq]
  refine h.withCache ?_
  rcases hcache with rfl | rfl
  · exact h.cacheFor
  · exact CacheFor.probeTables h hf _ key readTs _ (fun md hmd => mem_lookupOrder.mp hmd) h.cacheFor

theorem Filed.lookupAt (h : Filed e) (key : Bytes) (readTs : ℕ) : Filed (e.lookupAt key readTs).2 := by
  obtain ⟨kv, cache, heq, -⟩ := e.lookupAt_eq key readTs
  rw [heq]
  exact h.withCache

theorem Keyed.evict (h : Keyed Q e) (keepHeavy : ℕ → Bool) (keepBlock : ℕ → ℕ → Bool) :
    Keyed Q { e with sstCache := e.sstCache.map fun c => c.evict keepHeavy keepBlock } := by
  have hmap : ∀ c' ∈ e.sstCache.map (fun c => c.evict keepHeavy keepBlock), ∃ c ∈ e.sstCache,
      c' = c.evict keepHeavy keepBlock := by
    intro c' hc'
    obtain ⟨c, hc, heq⟩ := Option.map_eq_some_iff.mp hc'
    exact ⟨c, hc, heq.symm⟩
  refine ⟨h.distinct, h.below, ?_, ?_, ?_⟩
  · intro c' hc' seq hcaches
    obtain ⟨c, hc, rfl⟩ := hmap c' hc'
    exact h.cached c hc seq hcaches.of_evict
  · intro hQ c' hc' hcaches
    obtain ⟨c, hc, rfl⟩ := hmap c' hc'
    exact h.live hQ c hc hcaches.of_evict
  · intro c' hc' md hmd hQ f hfile
    obtain ⟨c, hc, rfl⟩ := hmap c' hc'
    exact (h.agrees c hc md hmd hQ f hfile).evict keepHeavy keepBlock

/-- No catalogued file is deleted. -/
theorem Filed.drain_files (h : Filed e) (ts : ℕ) {md : Metadata} (hmd : md ∈ e.sstableMetadata) :
    (e.drainFileGC ts).files md.filepath = e.files md.filepath := by
  refine if_neg ?_
  rw [List.any_eq_true]
  rintro ⟨p, hp, hpath⟩
  exact (h.garbage p (List.mem_of_mem_filter hp)).2 md hmd (of_decide_eq_true hpath).symm

theorem Filed.drainFileGC (h : Filed e) (ts : ℕ) : Filed (e.drainFileGC ts) := by
  refine ⟨h.nodup, h.below, ?_, ?_⟩
  · intro md hmd
    rw [h.drain_files ts hmd]
    exact h.files md hmd
  · intro p hp
    exact h.garbage p (List.mem_of_mem_filter hp)

theorem Keyed.drainFileGC (h : Keyed Q e) (hf : Filed e) (ts : ℕ) : Keyed Q (e.drainFileGC ts) := by
  have hmap : ∀ c' ∈ (e.drainFileGC ts).sstCache, ∃ c ∈ e.sstCache,
      c' = (e.pendingGc.filter fun p => decide (p.fenceTs ≤ ts)).foldl
        (fun c p => c.invalidate p.manifestSeq) c := by
    intro c' hc'
    obtain ⟨c, hc, heq⟩ := Option.map_eq_some_iff.mp hc'
    exact ⟨c, hc, heq.symm⟩
  refine ⟨h.distinct, h.below, ?_, ?_, ?_⟩
  · intro c' hc' seq hcaches
    obtain ⟨c, hc, rfl⟩ := hmap c' hc'
    exact h.cached c hc seq ((foldl_invalidate PendingFileGC.manifestSeq _ c).2 seq hcaches).1
  · intro hQ c' hc' hcaches
    obtain ⟨c, hc, rfl⟩ := hmap c' hc'
    exact h.live hQ c hc ((foldl_invalidate PendingFileGC.manifestSeq _ c).2 0 hcaches).1
  · intro c' hc' md hmd hQ f hfile
    obtain ⟨c, hc, rfl⟩ := hmap c' hc'
    rw [hf.drain_files ts hmd] at hfile
    exact (foldl_invalidate PendingFileGC.manifestSeq _ c).1 _ f (h.agrees c hc md hmd hQ f hfile)

/-! ## Runs -/

/-- One round of the flush worker, as far as the tables go. -/
theorem tables_flushWorker (e : Engine) : e.flushWorker.tables = e.tables ∨
    ∃ m ∈ e.frozenMemtables, ∃ rest, e.flushWorker.tables =
      ({ e with frozenMemtables := rest }.doFlush m).tables := by
  unfold flushWorker
  split
  · exact .inl rfl
  · next m rest hfrozen =>
    simp only []
    split
    · exact .inr ⟨m, by rw [hfrozen]; exact List.mem_cons_self, rest, rfl⟩
    · exact .inl rfl

theorem Filed.flushWorker (h : Filed e) : Filed e.flushWorker := by
  rcases e.tables_flushWorker with heq | ⟨m, -, rest, heq⟩
  · exact h.congr heq
  · have hrest : Filed { e with frozenMemtables := rest } := h.congr rfl
    exact (hrest.doFlush m).congr heq

theorem Filed.step (h : Filed e) {call : Calls.Call} (hs : Calls.step e call = some e') : Filed e' := by
  refine Calls.step_rule hs h ?_ ?_ ?_ ?_ ?_ ?_ ?_
  · intro w kv _ _
    exact h.congr (tables_written e _ _ _ kv)
  · exact fun _ => h.congr rfl
  · exact h.flushWorker
  · exact fun bottom top _ => h.compactLevel bottom top
  · exact fun e1 ts h1 => h1.drainFileGC ts
  · exact fun key readTs => h.lookupAt key readTs
  · exact fun _ _ => h.withCache

/-- What depends on the catalogue and its files only is kept by a call, if its flush and its compaction
keep it. -/
theorem catalogue_rule {P : Engine → Prop} {call : Calls.Call} (hs : Calls.step e call = some e') (h : P e)
    (hf : Filed e)
    (hcongr : ∀ e e' : Engine, e'.sstableMetadata = e.sstableMetadata →
      (∀ md ∈ e.sstableMetadata, e'.files md.filepath = e.files md.filepath) → P e → P e')
    (hflush : ∀ m ∈ e.frozenMemtables, ∀ rest, P ({ e with frozenMemtables := rest }.doFlush m))
    (hcompact : ∀ bottom top, Calls.compacted e call = some (bottom, top) → P (e.compactLevel bottom top)) :
    P e' := by
  have htables : ∀ e e' : Engine, e'.tables = e.tables → P e → P e' := by
    intro e e' ht
    simp only [tables, Prod.mk.injEq] at ht
    exact hcongr e e' ht.1 fun _ _ => congrFun ht.2.1 _
  have hboth : P e' ∧ Filed e' := by
    refine Calls.step_rule (P := fun e => P e ∧ Filed e) hs ⟨h, hf⟩ ?_ ?_ ?_ ?_ ?_ ?_ ?_
    · intro w kv _ _
      have ht := tables_written e w.key w.value w.isTombstone kv
      exact ⟨htables _ _ ht h, hf.congr ht⟩
    · exact fun _ => ⟨htables e e.rotate rfl h, hf.congr rfl⟩
    · refine ⟨?_, hf.flushWorker⟩
      rcases e.tables_flushWorker with heq | ⟨m, hm, rest, heq⟩
      · exact htables _ _ heq h
      · exact htables _ _ heq (hflush m hm rest)
    · exact fun bottom top hrange => ⟨hcompact bottom top hrange, hf.compactLevel bottom top⟩
    · exact fun e1 ts h1 => ⟨hcongr e1 _ rfl (fun _ hmd => h1.2.drain_files ts hmd) h1.1, h1.2.drainFileGC ts⟩
    · intro key readTs
      refine ⟨?_, hf.lookupAt key readTs⟩
      obtain ⟨kv, cache, heq, -⟩ := e.lookupAt_eq key readTs
      rw [heq]
      exact hcongr e _ rfl (fun _ _ => rfl) h
    · exact fun _ _ => ⟨hcongr e _ rfl (fun _ _ => rfl) h, hf.withCache⟩
  exact hboth.1

theorem Keyed.step (h : Keyed Q e) (hf : Filed e) {call : Calls.Call}
    (hfree : ∀ bottom top, Calls.compacted e call = some (bottom, top) →
      e.nothingToCompact bottom top = false → Q 0 → KeyFree e bottom top)
    (hs : Calls.step e call = some e') : Keyed Q e' := by
  have hboth : Keyed Q e' ∧ Filed e' := by
    refine Calls.step_rule (P := fun e => Keyed Q e ∧ Filed e) hs ⟨h, hf⟩ ?_ ?_ ?_ ?_ ?_ ?_ ?_
    · intro w kv _ _
      exact ⟨h.congr (tables_written e _ _ _ kv), hf.congr (tables_written e _ _ _ kv)⟩
    · exact fun _ => ⟨h.congr rfl, hf.congr rfl⟩
    · rcases e.tables_flushWorker with heq | ⟨m, -, rest, heq⟩
      · exact ⟨h.congr heq, hf.congr heq⟩
      · have hrest : Keyed Q { e with frozenMemtables := rest } := h.congr rfl
        have hfrest : Filed { e with frozenMemtables := rest } := hf.congr rfl
        exact ⟨(hrest.doFlush hfrest m).congr heq, (hfrest.doFlush m).congr heq⟩
    · intro bottom top hrange
      exact ⟨h.compactLevel hf bottom top (hfree bottom top hrange), hf.compactLevel bottom top⟩
    · exact fun e1 ts h1 => ⟨h1.1.drainFileGC h1.2 ts, h1.2.drainFileGC ts⟩
    · exact fun key readTs => ⟨h.lookupAt hf key readTs, hf.lookupAt key readTs⟩
    · exact fun keepHeavy keepBlock => ⟨h.evict keepHeavy keepBlock, hf.withCache⟩
  exact hboth.1

theorem create_filed (cfg : EngineConfig) : Filed (create cfg) where
  nodup := List.nodup_nil
  below _ hmd := by cases hmd
  files _ hmd := by cases hmd
  garbage _ hp := by cases hp

theorem create_keyed (Q : ℕ → Prop) (cfg : EngineConfig) : Keyed Q (create cfg) := by
  have hempty : ∀ c ∈ (create cfg).sstCache, ∀ seq, ¬ c.Caches seq := by
    intro c hc seq hcaches
    cases hc
    rcases hcaches with hh | ⟨i, hb⟩
    · exact hh rfl
    · exact hb rfl
  refine ⟨List.Pairwise.nil, ?_, ?_, ?_, ?_⟩
  · intro md hmd
    cases hmd
  · intro c hc seq hcaches
    exact absurd hcaches (hempty c hc seq)
  · intro _ c hc hcaches
    exact absurd hcaches (hempty c hc 0)
  · intro c _ md hmd
    cases hmd

end Kvdb.Engine
