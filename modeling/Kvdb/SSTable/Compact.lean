import Kvdb.SSTable.Reader
import Mathlib.Data.List.Sort

/-! # Compaction of SSTables (`SSTable::Compact`)

The k-way merge: `nextKey` takes the smallest current key, consumes its versions from all sources
and returns the version to keep. The loop of `Compact` ends when `nextKey` returns nothing, which
happens at the end of the sources and also after a tombstone that the last level drops. -/
namespace Kvdb
set_option autoImplicit false

namespace Compaction

/-- The smallest current key; the first source that has it wins. -/
def bestKey : List (List KeyValuePair) → Option Bytes
  | [] => none
  | [] :: rest => bestKey rest
  | (e :: _) :: rest =>
    match bestKey rest with
    | none => some e.key
    | some k => if k < e.key then some k else some e.key

/-- The versions of `key` at the front of each source, in source order. -/
def versionsOf (key : Bytes) (sources : List (List KeyValuePair)) : List KeyValuePair :=
  sources.flatMap fun src => src.takeWhile fun e => decide (e.key = key)

/-- The sources after those versions have been consumed. -/
def dropKey (key : Bytes) (sources : List (List KeyValuePair)) : List (List KeyValuePair) :=
  sources.map fun src => src.dropWhile fun e => decide (e.key = key)

/-- The running winner of `nextKey`. -/
def newer (winner : Option KeyValuePair) (cur : KeyValuePair) : Option KeyValuePair :=
  match winner with
  | none => some cur
  | some w => if w.timestamp < cur.timestamp then some cur else some w

def visWinner (visibleTs : ℕ) (versions : List KeyValuePair) : Option KeyValuePair :=
  (versions.filter fun e => decide (e.timestamp ≤ visibleTs)).foldl newer none

def future (visibleTs : ℕ) (versions : List KeyValuePair) : List KeyValuePair :=
  versions.filter fun e => decide (visibleTs < e.timestamp)

/-- The bounds that a caller may give, empty for none. -/
def inRange (lower upper key : Bytes) : Bool :=
  (lower.isEmpty || decide (lower ≤ key)) && (upper.isEmpty || decide (key ≤ upper))

/-- What `nextKey` returns for one key: the visible winner, unless it is a tombstone at the last
level or out of range, then the versions above `visible_ts`. -/
def keyResult (visibleTs : ℕ) (isLast : Bool) (lower upper : Bytes) (versions : List KeyValuePair) :
    List KeyValuePair :=
  let kept := match visWinner visibleTs versions with
    | some w => if !(w.isTombstone && isLast) && inRange lower upper w.key then [w] else []
    | none => []
  kept ++ future visibleTs versions

/-- The loop of `Compact`: it breaks at the first empty result. -/
def mergeLoop (visibleTs : ℕ) (isLast : Bool) (lower upper : Bytes) :
    ℕ → List (List KeyValuePair) → List KeyValuePair
  | 0, _ => []
  | fuel + 1, sources =>
    match bestKey sources with
    | none => []
    | some key =>
      let kvs := keyResult visibleTs isLast lower upper (versionsOf key sources)
      if kvs.isEmpty then []
      else kvs ++ mergeLoop visibleTs isLast lower upper fuel (dropKey key sources)

def merge (visibleTs : ℕ) (isLast : Bool) (lower upper : Bytes) (sources : List (List KeyValuePair)) :
    List KeyValuePair :=
  mergeLoop visibleTs isLast lower upper sources.flatten.length sources

/-- The size an entry counts for when outputs are split. -/
def outputSize (e : KeyValuePair) : ℕ := e.key.length + e.value.length + 24

/-- The batches of merged entries, one for each output file. -/
def outputBatches (maxSstableSize : ℕ) (merged : List KeyValuePair) : List (List KeyValuePair) :=
  Pack.pack outputSize maxSstableSize 0 merged

/-- The inputs in the order their iterators are opened: level 0 first, then by level. -/
def orderedInputs (inputs : List Metadata) : List Metadata :=
  inputs.insertionSort fun a b => a.level ≤ b.level

def mergedAborted (inputs : List Metadata) : List ℕ :=
  (inputs.flatMap Metadata.abortedBatchTs).dedup

/-- The streams of the iterators over the inputs; an iterator that is not valid at once is left
out, as is a file that cannot be opened. -/
def sources (files : ℕ → Option SSTableFile) (cache : SSTableCache) (inputs : List Metadata) :
    List (List KeyValuePair) :=
  ((orderedInputs inputs).map fun m =>
    SSTableIterator.stream (files m.filepath) (cachedBlocks cache m.manifestSeq)
      (mergedAborted inputs)).filter fun s => !s.isEmpty

/-- The output files of a compaction, numbered from `seq`. -/
def outputFiles (sizing : ℕ → ℕ × ℕ) (aborted : List ℕ) : ℕ → List (List KeyValuePair) →
    List (ℕ × SSTableFile)
  | _, [] => []
  | seq, batch :: batches =>
    (seq, SSTableFile.write sizing batch aborted) :: outputFiles sizing aborted (seq + 1) batches

/-- The metadata of an output: `ReadMetadata` without cache, so `manifest_seq` and
`source_table_id` stay 0. -/
def outputMetadata (level : ℕ) (isLast : Bool) (aborted : List ℕ) (out : ℕ × SSTableFile) : Metadata :=
  { out.2.metadata out.1 with
    level := level
    abortedBatchTs := if isLast then out.2.abortedBatchTs else aborted }

/-- The arguments of `SSTable::Compact`, with the files and the sizing of a bloom filter. -/
structure Job where
  sizing : ℕ → ℕ × ℕ
  files : ℕ → Option SSTableFile
  cache : SSTableCache
  inputs : List Metadata
  seqStart : ℕ
  level : ℕ
  maxSstableSize : ℕ
  isLast : Bool
  lower : Bytes
  upper : Bytes
  visibleTs : ℕ

namespace Job

def sources (j : Job) : List (List KeyValuePair) := Compaction.sources j.files j.cache j.inputs

def merged (j : Job) : List KeyValuePair := merge j.visibleTs j.isLast j.lower j.upper j.sources

def batches (j : Job) : List (List KeyValuePair) := outputBatches j.maxSstableSize j.merged

def outFiles (j : Job) : List (ℕ × SSTableFile) :=
  outputFiles j.sizing (if j.isLast then [] else mergedAborted j.inputs) j.seqStart j.batches

def outputs (j : Job) : List Metadata :=
  j.outFiles.map (outputMetadata j.level j.isLast (mergedAborted j.inputs))

end Job

/-- The results of `SSTable::Compact`. -/
structure Result where
  files : List (ℕ × SSTableFile)
  outputs : List Metadata
  garbage : List ℕ

/-- `SSTable::Compact`: without sources it returns at once, and no input becomes garbage. -/
def compact (j : Job) : Result :=
  if j.sources.isEmpty then ⟨[], [], []⟩ else ⟨j.outFiles, j.outputs, j.inputs.map Metadata.filepath⟩

/-! ## The numbers and levels of the outputs -/

/-- The output files are numbered consecutively from `seq`. -/
theorem outputFiles_numbers (sizing : ℕ → ℕ × ℕ) (aborted : List ℕ) (seq : ℕ)
    (batches : List (List KeyValuePair)) :
    (outputFiles sizing aborted seq batches).map Prod.fst = List.range' seq batches.length := by
  induction batches generalizing seq with
  | nil => rfl
  | cons batch batches ih => simp [outputFiles, ih, List.range'_succ]

@[simp] theorem outputMetadata_filepath (level : ℕ) (isLast : Bool) (aborted : List ℕ)
    (out : ℕ × SSTableFile) : (outputMetadata level isLast aborted out).filepath = out.1 := rfl

@[simp] theorem outputMetadata_level (level : ℕ) (isLast : Bool) (aborted : List ℕ)
    (out : ℕ × SSTableFile) : (outputMetadata level isLast aborted out).level = level := rfl

theorem Job.outputs_paths (j : Job) :
    j.outputs.map Metadata.filepath = List.range' j.seqStart j.batches.length := by
  rw [Job.outputs, List.map_map]
  exact outputFiles_numbers j.sizing _ j.seqStart j.batches

theorem compact_outputs (j : Job) : (compact j).outputs = [] ∨ (compact j).outputs = j.outputs := by
  unfold compact
  split
  · exact .inl rfl
  · exact .inr rfl

/-- Every output has a number from `seqStart` on, below `seqStart` plus the number of outputs. -/
theorem compact_filepath (j : Job) (m : Metadata) (hm : m ∈ (compact j).outputs) :
    j.seqStart ≤ m.filepath ∧ m.filepath < j.seqStart + (compact j).outputs.length := by
  rcases compact_outputs j with h | h
  · rw [h] at hm
    cases hm
  · rw [h] at hm ⊢
    have hlen := congrArg List.length j.outputs_paths
    rw [List.length_map, List.length_range'] at hlen
    have hmem := List.mem_map_of_mem (f := Metadata.filepath) hm
    rw [j.outputs_paths, List.mem_range'] at hmem
    omega

theorem compact_outputs_length_le (j : Job) : (compact j).outputs.length ≤ j.batches.length := by
  have hlen := congrArg List.length j.outputs_paths
  rw [List.length_map, List.length_range'] at hlen
  rcases compact_outputs j with h | h
  · rw [h]
    exact Nat.zero_le _
  · rw [h, hlen]

/-- Each file is an output of its own number, and no number occurs twice. -/
theorem compact_numbers (j : Job) :
    (∀ p ∈ (compact j).files, p.1 ∈ (compact j).outputs.map Metadata.filepath) ∧
      ((compact j).outputs.map Metadata.filepath).Nodup := by
  unfold compact
  split
  · exact ⟨by simp, by simp⟩
  · refine ⟨?_, ?_⟩
    · intro p hp
      rw [Job.outputs, List.map_map]
      exact List.mem_map_of_mem (f := Prod.fst) hp
    · rw [j.outputs_paths]
      exact List.nodup_range'

end Compaction

end Kvdb
