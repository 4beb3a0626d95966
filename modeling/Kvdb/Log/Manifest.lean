import Kvdb.SSTable.File

/-! # The MANIFEST (`manifest.cpp`)

The file is a list of records. `recover` replays it: the added tables in order, without those whose
sequence number occurs in a remove record anywhere in the file, and with the aborted batches of the
tables up to each fence. `compact` rewrites the file to what is still needed. -/
namespace Kvdb
set_option autoImplicit false

inductive ManifestRecord where
  | addSSTable (seq : ℕ) (filepath entryCount level : ℕ)
  | removeSSTable (seq : ℕ)
  | abortBatch (batchTs fenceSeq : ℕ)
  deriving DecidableEq, Repr

namespace Manifest

/-- The record of a table: the fields of the metadata that the file keeps. -/
def addRecord (seq : ℕ) (m : Metadata) : ManifestRecord :=
  .addSSTable seq m.filepath m.entryCount m.level

/-- `AddSSTable`. -/
def addSSTable (file : List ManifestRecord) (seq : ℕ) (m : Metadata) : List ManifestRecord :=
  file ++ [addRecord seq m]

/-- `RemoveSSTable`. -/
def removeSSTable (file : List ManifestRecord) (seq : ℕ) : List ManifestRecord :=
  file ++ [.removeSSTable seq]

/-- `AddAbortBatch`. -/
def addAbortBatch (file : List ManifestRecord) (batchTs fenceSeq : ℕ) : List ManifestRecord :=
  file ++ [.abortBatch batchTs fenceSeq]

def added : List ManifestRecord → List Metadata
  | [] => []
  | .addSSTable seq path count level :: rs =>
    { filepath := path, manifestSeq := seq, entryCount := count, level := level } :: added rs
  | .removeSSTable _ :: rs => added rs
  | .abortBatch _ _ :: rs => added rs

def removed : List ManifestRecord → List ℕ
  | [] => []
  | .addSSTable _ _ _ _ :: rs => removed rs
  | .removeSSTable seq :: rs => seq :: removed rs
  | .abortBatch _ _ :: rs => removed rs

def aborts : List ManifestRecord → List (ℕ × ℕ)
  | [] => []
  | .addSSTable _ _ _ _ :: rs => aborts rs
  | .removeSSTable _ :: rs => aborts rs
  | .abortBatch ts fence :: rs => (ts, fence) :: aborts rs

/-- The tables that no remove record names. -/
def surviving (file : List ManifestRecord) : List Metadata :=
  (added file).filter fun m => !decide (m.manifestSeq ∈ removed file)

/-- The batches recorded as aborted with a fence at or above the table. -/
def abortedFor (file : List ManifestRecord) (m : Metadata) : List ℕ :=
  ((aborts file).filter fun a => decide (m.manifestSeq ≤ a.2)).map Prod.fst

/-- `Recover`. -/
def recover (file : List ManifestRecord) : List Metadata :=
  (surviving file).map fun m => { m with abortedBatchTs := abortedFor file m }

/-- `Compact`: the surviving tables, then the abort records that some table still needs. -/
def compact (file : List ManifestRecord) : List ManifestRecord :=
  (surviving file).map (fun m => addRecord m.manifestSeq m) ++
    ((aborts file).filter fun a => (surviving file).any fun m => decide (m.manifestSeq ≤ a.2)).map
      fun a => .abortBatch a.1 a.2

/-! ## What an appended record changes -/

/-- The file path and level of a table, the two fields by which the catalogue and a recovered list
are compared. -/
def pathLevel (m : Metadata) : ℕ × ℕ := (m.filepath, m.level)

theorem added_append (as bs : List ManifestRecord) : added (as ++ bs) = added as ++ added bs := by
  induction as with
  | nil => rfl
  | cons r rs ih => cases r <;> simp [added, ih]

theorem removed_append (as bs : List ManifestRecord) : removed (as ++ bs) = removed as ++ removed bs := by
  induction as with
  | nil => rfl
  | cons r rs ih => cases r <;> simp [removed, ih]

@[simp] theorem removed_addSSTable (file : List ManifestRecord) (seq : ℕ) (m : Metadata) :
    removed (addSSTable file seq m) = removed file := by
  simp [addSSTable, addRecord, removed_append, removed]

@[simp] theorem added_addSSTable (file : List ManifestRecord) (seq : ℕ) (m : Metadata) :
    added (addSSTable file seq m) = added file ++
      [{ filepath := m.filepath, manifestSeq := seq, entryCount := m.entryCount, level := m.level }] := by
  simp [addSSTable, addRecord, added_append, added]

theorem removed_removals (n seq : ℕ) : removed (List.replicate n (.removeSSTable seq)) = List.replicate n seq := by
  induction n with
  | zero => rfl
  | succ n ih => rw [List.replicate_succ, removed, ih, List.replicate_succ]

theorem added_removals (n seq : ℕ) : added (List.replicate n (.removeSSTable seq)) = [] := by
  induction n with
  | zero => rfl
  | succ n ih => rw [List.replicate_succ, added, ih]

theorem removed_addRecords {α : Type} (f : α → ℕ × Metadata) (ms : List α) :
    removed (ms.map fun a => addRecord (f a).1 (f a).2) = [] := by
  induction ms with
  | nil => rfl
  | cons a ms ih => rw [List.map_cons, addRecord, removed, ih]

theorem added_addRecords {α : Type} (f : α → ℕ × Metadata) (ms : List α) :
    added (ms.map fun a => addRecord (f a).1 (f a).2) =
      ms.map fun a =>
        { filepath := (f a).2.filepath, manifestSeq := (f a).1, entryCount := (f a).2.entryCount,
          level := (f a).2.level } := by
  induction ms with
  | nil => rfl
  | cons a ms ih => rw [List.map_cons, addRecord, added, ih, List.map_cons]

theorem added_abortRecords (as : List (ℕ × ℕ)) : added (as.map fun a => .abortBatch a.1 a.2) = [] := by
  induction as with
  | nil => rfl
  | cons a as ih => rw [List.map_cons, added, ih]

theorem removed_abortRecords (as : List (ℕ × ℕ)) : removed (as.map fun a => .abortBatch a.1 a.2) = [] := by
  induction as with
  | nil => rfl
  | cons a as ih => rw [List.map_cons, removed, ih]

/-- A rewritten file has no removals left. -/
theorem removed_compact (file : List ManifestRecord) : removed (compact file) = [] := by
  rw [compact, removed_append, removed_abortRecords]
  exact (List.append_nil _).trans (removed_addRecords (fun m : Metadata => (m.manifestSeq, m)) (surviving file))

/-- A rewritten file adds the surviving tables. -/
theorem pathLevel_added_compact (file : List ManifestRecord) :
    (added (compact file)).map pathLevel = (surviving file).map pathLevel := by
  rw [compact, added_append, added_abortRecords, List.append_nil]
  rw [added_addRecords (fun m : Metadata => (m.manifestSeq, m)) (surviving file), List.map_map]
  rfl

theorem pathLevel_recover (file : List ManifestRecord) :
    (recover file).map pathLevel = (surviving file).map pathLevel := by
  rw [recover, List.map_map]
  rfl

/-- Without removals every added table survives. -/
theorem surviving_of_removed_nil (file : List ManifestRecord) (h : removed file = []) :
    surviving file = added file := by
  simp [surviving, h]

end Manifest

end Kvdb
