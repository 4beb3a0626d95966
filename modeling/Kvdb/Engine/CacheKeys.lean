import Kvdb.Engine.Tables

/-! # The keys of the SSTable cache

Blocks and metadata are cached under the `manifest_seq` of a table. A flush takes it from
`sstable_seq_`, a compaction leaves it at 0 in its outputs, and the first flush has 0 too. The tables
have different keys as long as every compaction makes one output and finds the key 0 free. -/
namespace Kvdb.CacheKeys
set_option autoImplicit false

open Kvdb.Runs Kvdb.Engine Kvdb.Calls

/-- No two tables share a key, and a lookup through the shared cache answers as one without cache. -/
structure Sound (e : Engine) : Prop where
  distinct : e.sstableMetadata.Pairwise fun a b => a.manifestSeq ≠ b.manifestSeq
  sameAnswer : ∀ md ∈ e.sstableMetadata, ∀ key readTs,
    (lookupKey (e.files md.filepath) key readTs e.sstCache md.manifestSeq).map Prod.fst =
      (lookupKey (e.files md.filepath) key readTs none md.manifestSeq).map Prod.fst

/-- The condition on a call: a compaction finds the key 0 free for its output. -/
def Allowed (e : Engine) (call : Call) : Prop :=
  ∀ r ∈ compacted e call, e.nothingToCompact r.1 r.2 = false → KeyFree e r.1 r.2

instance decidableAllowed (e : Engine) (call : Call) : Decidable (Allowed e call) :=
  inferInstanceAs (Decidable (∀ r ∈ compacted e call, e.nothingToCompact r.1 r.2 = false → KeyFree e r.1 r.2))

theorem sound_of_keyed {e : Engine} (h : Keyed (fun _ => True) e) (hf : Filed e) : Sound e := by
  refine ⟨h.distinct.imp fun hab heq => hab heq trivial, ?_⟩
  intro md hmd key readTs
  obtain ⟨f, hfile⟩ := hf.files md hmd
  rw [hfile, lookupKey_none]
  cases hcache : e.sstCache with
  | none => rw [lookupKey_none]
  | some c =>
    obtain ⟨c', heq, -⟩ := lookupKey_agrees key readTs
      (h.agrees c hcache md hmd trivial f hfile)
    rw [heq]
    rfl

/-- In every run in which the compactions find the key 0 free, the tables have different keys and the
cache does not change an answer. -/
theorem cache_keys_sound (cfg : EngineConfig) (calls : List Call) (e : Engine)
    (h : Run step Allowed (create cfg) calls e) : Sound e := by
  have hinv : Keyed (fun _ => True) e ∧ Filed e := by
    refine h.invariant (I := fun e => Keyed (fun _ => True) e ∧ Filed e) ?_
      ⟨create_keyed _ cfg, create_filed cfg⟩
    rintro e call e' hok hs ⟨hkeyed, hfiled⟩
    refine ⟨hkeyed.step hfiled ?_ hs, hfiled.step hs⟩
    intro bottom top hrange hwork _
    exact hok (bottom, top) hrange hwork
  exact sound_of_keyed hinv.1 hinv.2

/-- Two flushes are compacted into one table and a third one follows. -/
def soundRun : List Call :=
  flushed [1] [2] ++ flushed [1] [3] ++ ([.manualCompact 2 0 false] : List Call) ++ flushed [4] [5]

theorem cache_keys_sound_after_compaction :
    ∃ e, Run step Allowed (create smallConfig) soundRun e ∧ e.sstableMetadata.length = 2 ∧ Sound e := by
  obtain ⟨e, hrun, htables⟩ : ∃ e, Run step Allowed (create smallConfig) soundRun e ∧ e.sstableMetadata.length = 2 :=
    Run.exists_of_checked (by decide)
  exact ⟨e, hrun, htables, cache_keys_sound smallConfig soundRun e hrun⟩

/-- Two compactions of level 0, each of two flushes. -/
def collidingRun : List Call :=
  flushed [1] [2] ++ flushed [1] [3] ++ ([.manualCompact 2 0 false] : List Call) ++
    flushed [4] [5] ++ flushed [4] [6] ++ ([.manualCompact 2 0 false] : List Call)

theorem collidingRun_enabled : (checked step anyStep (create smallConfig) collidingRun).isSome = true := by
  decide

def collided : Engine := (checked step anyStep (create smallConfig) collidingRun).get collidingRun_enabled

/-- The two outputs share the key 0, and once `LookupKey` has read the first one, it misses through the
cache what the second one holds. -/
theorem compaction_outputs_share_key :
    Run step anyStep (create smallConfig) collidingRun collided ∧ ¬ Sound collided ∧
      ∃ a ∈ collided.sstableMetadata, ∃ b ∈ collided.sstableMetadata,
        ((lookupKey (collided.files a.filepath) [1] 4 collided.sstCache a.manifestSeq).bind fun r =>
          (lookupKey (collided.files b.filepath) [4] 4 r.2 b.manifestSeq).map Prod.fst) ≠
          (lookupKey (collided.files b.filepath) [4] 4 none b.manifestSeq).map Prod.fst := by
  refine ⟨Run.of_isSome _ _ collidingRun_enabled, ?_, by decide⟩
  intro h
  have hdistinct := h.distinct
  revert hdistinct
  decide

end Kvdb.CacheKeys
