import Kvdb.SSTable.Selection
import Kvdb.SSTable.SortedFile

/-! # Reading several versions of a key (`SSTable::LookupKey`)

`LookupKey` returns the first version that is visible and not aborted, in the order in which it reads the blocks: the
one that the key is looked for in, the one before it and the one behind it. `Compact` writes the newest version up to
`visible_ts` in front of the ones above it. -/
namespace Kvdb.SSTableFile
set_option autoImplicit false

open BPlusTree (live mem_live)

variable {f : SSTableFile} {key : Bytes} {readTs seq : ℕ}

/-- The entries in the order in which `LookupKey` reads them. -/
def reads (f : SSTableFile) (key : Bytes) : List KeyValuePair :=
  (lookupBlocks f.firstKeys key).flatMap (fileBlock (some f))

/-- The live versions of a key among some entries. -/
def liveOf (f : SSTableFile) (key : Bytes) (es : List KeyValuePair) : List KeyValuePair :=
  live f.abortedBatchTs (Kvdb.versionsOf key es)

/-- What is cached under a number is what the file holds. -/
structure Cached (f : SSTableFile) (seq : ℕ) (cache : Option SSTableCache) : Prop where
  heavy : ∀ c ∈ cache, ∀ h ∈ c.heavy seq, h = f.heavy
  blocks : ∀ c ∈ cache, ∀ i, ∀ b ∈ c.blocks seq i, b = fileBlock (some f) i

theorem cached_none (f : SSTableFile) (seq : ℕ) : f.Cached seq none :=
  ⟨fun _ hc => (by cases hc), fun _ hc => (by cases hc)⟩

theorem mem_liveOf {es : List KeyValuePair} {x : KeyValuePair} :
    x ∈ f.liveOf key es ↔ x ∈ es ∧ x.key = key ∧ x.timestamp ∉ f.abortedBatchTs := by
  rw [liveOf, mem_live, Kvdb.mem_versionsOf, and_assoc]

/-! ## The search as one over the entries read -/

/-- The test that `scanBlock` makes. -/
def Hit (f : SSTableFile) (key : Bytes) (readTs : ℕ) (e : KeyValuePair) : Bool :=
  !decide (e.timestamp ∈ f.abortedBatchTs) && decide (e.key = key) && decide (e.timestamp ≤ readTs)

theorem scanBlock_heavy (f : SSTableFile) (key : Bytes) (readTs : ℕ) (b : List KeyValuePair) :
    scanBlock f.heavy.abortedBatchTs key readTs b = b.find? (f.Hit key readTs) := rfl

theorem Cached.putBlock {cache : Option SSTableCache} (h : f.Cached seq cache) (i : ℕ) :
    f.Cached seq (cache.map fun c => c.putBlock seq i (fileBlock (some f) i)) := by
  refine ⟨?_, ?_⟩
  · intro c hc
    obtain ⟨c0, hc0, rfl⟩ := Option.map_eq_some_iff.mp hc
    exact h.heavy c0 hc0
  · intro c hc i' b hb
    obtain ⟨c0, hc0, rfl⟩ := Option.map_eq_some_iff.mp hc
    simp only [SSTableCache.putBlock, true_and] at hb
    split at hb
    · next heq =>
      cases hb
      rw [heq]
    · exact h.blocks c0 hc0 i' b hb

theorem fileBlock_of_le {i : ℕ} (h : f.firstKeys.length ≤ i) : fileBlock (some f) i = [] := by
  rw [firstKeys, List.length_map] at h
  rw [fileBlock, Option.bind_some, List.getElem?_eq_none h]
  rfl

theorem Cached.searchBlock {cache : Option SSTableCache} (h : f.Cached seq cache) (key : Bytes) (readTs i : ℕ) :
    (searchBlock (some f) f.heavy key readTs seq cache i).1 = (fileBlock (some f) i).find? (f.Hit key readTs) ∧
      f.Cached seq (searchBlock (some f) f.heavy key readTs seq cache i).2 := by
  unfold Kvdb.searchBlock
  split
  · next hle =>
    rw [fileBlock_of_le hle]
    exact ⟨rfl, h⟩
  · split
    · next b hb =>
      obtain ⟨c, hc, hblock⟩ := Option.bind_eq_some_iff.mp hb
      rw [scanBlock_heavy, h.blocks c hc i b hblock]
      exact ⟨rfl, h⟩
    · exact ⟨rfl, h.putBlock i⟩

theorem Cached.searchBlocks {cache : Option SSTableCache} (h : f.Cached seq cache) (is : List ℕ) :
    (searchBlocks (some f) f.heavy key readTs seq is cache).1 =
      (is.flatMap (fileBlock (some f))).find? (f.Hit key readTs) := by
  induction is generalizing cache with
  | nil => rfl
  | cons i is ih =>
    obtain ⟨hfirst, hcache⟩ := h.searchBlock key readTs i
    rw [Kvdb.searchBlocks, List.flatMap_cons, List.find?_append, ← hfirst]
    cases hfound : (Kvdb.searchBlock (some f) f.heavy key readTs seq cache i).1 with
    | none =>
      rw [if_neg (by simp)]
      exact ih hcache
    | some x =>
      rw [if_pos (by simp), hfound]
      rfl

theorem reads_subset (f : SSTableFile) (key : Bytes) : f.reads key ⊆ f.entries := by
  intro x hx
  obtain ⟨i, -, hx⟩ := List.mem_flatMap.mp hx
  exact SSTableIterator.fileBlock_subset f i hx

theorem find?_hit (f : SSTableFile) (key : Bytes) (readTs : ℕ) (es : List KeyValuePair) :
    es.find? (f.Hit key readTs) = (f.liveOf key es).find? fun e => decide (e.timestamp ≤ readTs) := by
  rw [liveOf, live, Kvdb.versionsOf, List.find?_filter, List.find?_filter]
  congr 1
  funext x
  rw [Hit, Bool.and_comm (!decide _), Bool.and_assoc]
  simp only [Bool.decide_and, Bool.decide_eq_true]

/-- Where the filter rejects no key of the file. -/
theorem Cached.lookupIn {cache : Option SSTableCache} (h : f.Cached seq cache)
    (hbloom : ∀ x ∈ f.entries, f.bloom.rejects x.key = false) (key : Bytes) (readTs : ℕ) :
    (lookupIn (some f) f.heavy key readTs seq cache).1 =
      (f.liveOf key (f.reads key)).find? fun e => decide (e.timestamp ≤ readTs) := by
  rw [← find?_hit]
  unfold Kvdb.lookupIn
  split
  · next hnone =>
    have hnil : f.firstKeys.length = 0 := by
      have hkeys : f.firstKeys = [] := List.isEmpty_iff.mp hnone
      rw [hkeys]
      rfl
    have hread : f.reads key = [] := by
      rw [reads, List.flatMap_eq_nil_iff]
      exact fun i _ => fileBlock_of_le (by omega)
    rw [hread]
    rfl
  · split
    · next hreject =>
      rw [eq_comm, List.find?_eq_none]
      intro x hx hhit
      have hkey : x.key = key := by
        simp only [Hit, Bool.and_eq_true, decide_eq_true_eq] at hhit
        exact hhit.1.2
      have hnot := hbloom x (f.reads_subset key hx)
      rw [hkey] at hnot
      exact Bool.false_ne_true (hnot.symm.trans hreject)
    · exact h.searchBlocks _

/-- `LookupKey` returns the first hit among the entries it reads. -/
theorem Cached.lookupKey {cache : Option SSTableCache} (h : f.Cached seq cache)
    (hbloom : ∀ x ∈ f.entries, f.bloom.rejects x.key = false) (key : Bytes) (readTs : ℕ) :
    ∃ cache', lookupKey (some f) key readTs cache seq =
      some ((f.liveOf key (f.reads key)).find? fun e => decide (e.timestamp ≤ readTs), cache') := by
  unfold Kvdb.lookupKey
  split
  · next heavy hheavy =>
    obtain ⟨c, hc, hcached⟩ := Option.bind_eq_some_iff.mp hheavy
    rw [h.heavy c hc heavy hcached]
    exact ⟨_, congrArg some (Prod.ext (h.lookupIn hbloom key readTs) rfl)⟩
  · next hnone =>
    rw [readMetadata, hnone]
    have hput : f.Cached seq (cache.map fun c => c.putHeavy seq f.heavy) := by
      refine ⟨?_, ?_⟩
      · intro c hc heavy hheavy
        obtain ⟨c0, hc0, rfl⟩ := Option.map_eq_some_iff.mp hc
        simp only [SSTableCache.putHeavy, if_true] at hheavy
        cases hheavy
        rfl
      · intro c hc i b hb
        obtain ⟨c0, hc0, rfl⟩ := Option.map_eq_some_iff.mp hc
        exact h.blocks c0 hc0 i b hb
    exact ⟨_, congrArg some (Prod.ext (hput.lookupIn hbloom key readTs) rfl)⟩

/-! ## The newest version -/

/-- The result of a read is a newest version of those up to `readTs`, or there is none. -/
def NewestAt (versions : List KeyValuePair) (readTs : ℕ) : Option KeyValuePair → Prop
  | none => ∀ y ∈ versions, readTs < y.timestamp
  | some x => x ∈ versions ∧ x.timestamp ≤ readTs ∧ ∀ y ∈ versions, y.timestamp ≤ readTs → y.timestamp ≤ x.timestamp

/-- Each live version of the key is read, and behind newer ones only. -/
def NewestFirst (f : SSTableFile) (key : Bytes) : Prop :=
  ∀ y ∈ f.liveOf key f.entries, ∃ before x after, f.liveOf key (f.reads key) = before ++ x :: after ∧
    x.timestamp = y.timestamp ∧ ∀ b ∈ before, y.timestamp < b.timestamp

theorem find?_newest_iff (f : SSTableFile) (key : Bytes) :
    (∀ readTs, NewestAt (f.liveOf key f.entries) readTs
        ((f.liveOf key (f.reads key)).find? fun e => decide (e.timestamp ≤ readTs))) ↔ f.NewestFirst key := by
  have hsub : ∀ x ∈ f.liveOf key (f.reads key), x ∈ f.liveOf key f.entries := by
    intro x hx
    rw [mem_liveOf] at hx ⊢
    exact ⟨f.reads_subset key hx.1, hx.2⟩
  refine ⟨fun h y hy => ?_, fun h readTs => ?_⟩
  · have hread := h y.timestamp
    cases hfind : (f.liveOf key (f.reads key)).find? fun e => decide (e.timestamp ≤ y.timestamp) with
    | none =>
      rw [hfind] at hread
      exact absurd (hread y hy) (Nat.lt_irrefl _)
    | some x =>
      rw [hfind] at hread
      obtain ⟨-, hle, hmax⟩ := hread
      obtain ⟨-, before, after, hsplit, hbefore⟩ := List.find?_eq_some_iff_append.mp hfind
      refine ⟨before, x, after, hsplit, Nat.le_antisymm hle (hmax y hy (Nat.le_refl _)), fun b hb => ?_⟩
      simpa using hbefore b hb
  · cases hfind : (f.liveOf key (f.reads key)).find? fun e => decide (e.timestamp ≤ readTs) with
    | none =>
      intro y hy
      obtain ⟨before, x, after, hsplit, hts, -⟩ := h y hy
      have hx : x ∈ f.liveOf key (f.reads key) := by
        rw [hsplit]
        exact List.mem_append_right _ List.mem_cons_self
      have hnot := List.find?_eq_none.mp hfind x hx
      rw [decide_eq_true_eq] at hnot
      omega
    | some x =>
      have hxle : x.timestamp ≤ readTs := by simpa using List.find?_some hfind
      refine ⟨hsub x (List.mem_of_find?_eq_some hfind), hxle, fun y hy hyle => ?_⟩
      obtain ⟨before, x', after, hsplit, hts, hbefore⟩ := h y hy
      rw [hsplit, List.find?_append] at hfind
      cases hfirst : before.find? fun e => decide (e.timestamp ≤ readTs) with
      | some b =>
        rw [hfirst] at hfind
        cases hfind
        exact Nat.le_of_lt (hbefore x (List.mem_of_find?_eq_some hfirst))
      | none =>
        rw [hfirst, Option.none_or, List.find?_cons_of_pos (by simp [hts, hyle])] at hfind
        cases hfind
        exact Nat.le_of_eq hts.symm

end Kvdb.SSTableFile

namespace Kvdb.Compaction
set_option autoImplicit false

theorem mem_outFiles {j : Job} {out : ℕ × SSTableFile} (h : out ∈ (compact j).files) :
    ∃ batch aborted, out.2 = SSTableFile.write j.sizing batch aborted := by
  have hfiles : ∀ (aborted : List ℕ) (batches : List (List KeyValuePair)) (seq : ℕ),
      out ∈ outputFiles j.sizing aborted seq batches → ∃ batch, out.2 = SSTableFile.write j.sizing batch aborted := by
    intro aborted batches
    induction batches with
    | nil => exact fun _ hmem => (by cases hmem)
    | cons batch batches ih =>
      intro seq hmem
      rcases List.mem_cons.mp hmem with rfl | hmem
      · exact ⟨batch, rfl⟩
      · exact ih (seq + 1) hmem
  unfold compact at h
  split at h
  · cases h
  · obtain ⟨batch, heq⟩ := hfiles _ _ _ h
    exact ⟨batch, _, heq⟩

/-- On an output of a compaction `LookupKey` returns the newest live version of a key at every `read_ts`, exactly if
each live version of the key is among the entries it reads and no older one is read before it. -/
theorem output_lookupKey_newest_iff (j : Job) (out : ℕ × SSTableFile) (hout : out ∈ (compact j).files) (key : Bytes)
    (seq : ℕ) (cache : Option SSTableCache) (hcache : out.2.Cached seq cache) :
    (∀ readTs, ∃ r, lookupKey (some out.2) key readTs cache seq = some r ∧
        SSTableFile.NewestAt (out.2.liveOf key out.2.entries) readTs r.1) ↔ out.2.NewestFirst key := by
  obtain ⟨batch, aborted, heq⟩ := mem_outFiles hout
  have hbloom : ∀ x ∈ out.2.entries, out.2.bloom.rejects x.key = false := by
    rw [heq, SSTableFile.entries_write]
    exact fun x hx => BloomFilter.ofKeys_rejects _ _ _ _ (List.mem_map_of_mem hx)
  rw [← SSTableFile.find?_newest_iff]
  refine forall_congr' fun readTs => ?_
  obtain ⟨cache', hlookup⟩ := hcache.lookupKey hbloom key readTs
  rw [hlookup]
  refine ⟨?_, fun hfound => ⟨_, rfl, hfound⟩⟩
  rintro ⟨r, hr, hfound⟩
  cases hr
  exact hfound

/-- A compaction that reads a version up to `visible_ts` and one above it. -/
def twoVersionJob : Job where
  sizing := fun _ => (0, 0)
  files := fun n => if n = 1 then some (SSTableFile.write (fun _ => (0, 0)) [⟨[1], [7], 1, false⟩] [])
    else if n = 2 then some (SSTableFile.write (fun _ => (0, 0)) [⟨[1], [8], 9, false⟩] []) else none
  cache := SSTableCache.empty
  inputs := [{ filepath := 1 }, { filepath := 2 }]
  seqStart := 3
  level := 1
  maxSstableSize := 4096
  isLast := false
  lower := []
  upper := []
  visibleTs := 5

/-- Its output. -/
def twoVersionFile : SSTableFile :=
  SSTableFile.write (fun _ => (0, 0)) [⟨[1], [7], 1, false⟩, ⟨[1], [8], 9, false⟩] []

theorem twoVersionFile_mem : (3, twoVersionFile) ∈ (compact twoVersionJob).files := by decide

theorem twoVersionFile_newest_iff : (3, twoVersionFile) ∈ (compact twoVersionJob).files ∧
    ((∀ readTs, ∃ r, lookupKey (some twoVersionFile) [1] readTs none 0 = some r ∧
        SSTableFile.NewestAt (twoVersionFile.liveOf [1] twoVersionFile.entries) readTs r.1) ↔
      twoVersionFile.NewestFirst [1]) :=
  ⟨twoVersionFile_mem, output_lookupKey_newest_iff twoVersionJob (3, twoVersionFile) twoVersionFile_mem [1] 0 none
    (SSTableFile.cached_none _ 0)⟩

/-- The version of the committed batch is not found: the older one stands in front of it. -/
theorem older_version_read :
    ¬ ∀ (j : Job) (out : ℕ × SSTableFile), out ∈ (compact j).files → ∀ (key : Bytes) (readTs seq : ℕ)
      (cache : Option SSTableCache), out.2.Cached seq cache →
      ∃ r, lookupKey (some out.2) key readTs cache seq = some r ∧
        SSTableFile.NewestAt (out.2.liveOf key out.2.entries) readTs r.1 := by
  intro h
  obtain ⟨r, hr, hfound⟩ := h twoVersionJob (3, twoVersionFile) twoVersionFile_mem [1] 9 0 none
    (SSTableFile.cached_none _ 0)
  have hfirst : (lookupKey (some twoVersionFile) [1] 9 none 0).map Prod.fst = some (some ⟨[1], [7], 1, false⟩) := by
    decide
  rw [hr, Option.map_some, Option.some.injEq] at hfirst
  rw [hfirst] at hfound
  have hnewer := hfound.2.2 ⟨[1], [8], 9, false⟩ (by decide) (by decide)
  exact absurd hnewer (by decide)

end Kvdb.Compaction
