import Kvdb.Log.ManifestBytes

/-! # A crash inside `Manifest::Compact`

`Compact` writes the tables and aborts that are still needed to a second file, syncs it, removes the
MANIFEST and renames the second file. What it writes is recovered to the same catalogue. Between the
removal and the renaming there is no MANIFEST, and a `Manifest` opened then starts an empty one. -/
namespace Kvdb.ManifestBytes
set_option autoImplicit false

/-! ## `Recover` and `Compact` -/

def added (rs : List Record) : List Table :=
  rs.filterMap fun r => match r with
    | .addSSTable t => some t
    | _ => none

def removed (rs : List Record) : List ℕ :=
  rs.filterMap fun r => match r with
    | .removeSSTable seq => some seq
    | _ => none

def aborts (rs : List Record) : List (ℕ × ℕ) :=
  rs.filterMap fun r => match r with
    | .abortBatch batchTs fenceSeq => some (batchTs, fenceSeq)
    | _ => none

/-- The added tables that no remove record names, wherever it stands. -/
def surviving (rs : List Record) : List Table :=
  (added rs).filter fun t => !decide (t.manifestSeq ∈ removed rs)

/-- The batches that `Recover` inserts into the set of a table, in that order. -/
def abortedFor (rs : List Record) (t : Table) : List ℕ :=
  ((aborts rs).filter fun a => decide (t.manifestSeq ≤ a.2)).map Prod.fst

def catalogue (rs : List Record) : List Table :=
  (surviving rs).map fun t => { t with abortedBatchTs := abortedFor rs t }

/-- `Recover`. A file that is missing or empty holds no records. -/
def recover (file : Bytes) : List Table := catalogue (scan file)

/-- The abort records with a surviving table at or below their fence. -/
def neededAborts (rs : List Record) : List (ℕ × ℕ) :=
  (aborts rs).filter fun a => (surviving rs).any fun t => decide (t.manifestSeq ≤ a.2)

/-- The records that `Compact` writes to the temporary file. -/
def compactRecords (rs : List Record) : List Record :=
  (surviving rs).map Record.addSSTable ++ (neededAborts rs).map fun a => .abortBatch a.1 a.2

/-- The temporary file when it is complete. -/
def compact (file : Bytes) : Bytes := encodeAll (compactRecords (scan file))

/-! ## What was rewritten is recovered as before -/

theorem encodable_compactRecords {rs : List Record} (h : ∀ r ∈ rs, Encodable r) :
    ∀ r ∈ compactRecords rs, Encodable r := by
  intro r hr
  rcases List.mem_append.mp hr with htable | habort
  · obtain ⟨t, ht, rfl⟩ := List.mem_map.mp htable
    obtain ⟨r, hread, hadd⟩ := List.mem_filterMap.mp (List.mem_filter.mp ht).1
    cases r with
    | addSSTable t' =>
      cases hadd
      exact h _ hread
    | removeSSTable seq => cases hadd
    | abortBatch batchTs fenceSeq => cases hadd
  · obtain ⟨a, ha, rfl⟩ := List.mem_map.mp habort
    obtain ⟨r, hread, hfence⟩ := List.mem_filterMap.mp (List.mem_filter.mp ha).1
    cases r with
    | addSSTable t => cases hfence
    | removeSSTable seq => cases hfence
    | abortBatch batchTs fenceSeq =>
      cases hfence
      exact h _ hread

theorem added_compactRecords (rs : List Record) : added (compactRecords rs) = surviving rs := by
  simp [added, compactRecords, List.filterMap_append, List.filterMap_map]

theorem removed_compactRecords (rs : List Record) : removed (compactRecords rs) = [] := by
  simp [removed, compactRecords, List.filterMap_append, List.filterMap_map]

theorem aborts_compactRecords (rs : List Record) : aborts (compactRecords rs) = neededAborts rs := by
  simp [aborts, compactRecords, List.filterMap_append, List.filterMap_map]

theorem surviving_compactRecords (rs : List Record) : surviving (compactRecords rs) = surviving rs := by
  rw [surviving, removed_compactRecords, added_compactRecords]
  simp

/-- An abort that concerns a surviving table is needed. -/
theorem abortedFor_compactRecords {rs : List Record} {t : Table} (h : t ∈ surviving rs) :
    abortedFor (compactRecords rs) t = abortedFor rs t := by
  have hneeded : ∀ a ∈ aborts rs, t.manifestSeq ≤ a.2 →
      ((surviving rs).any fun t => decide (t.manifestSeq ≤ a.2)) = true := by
    intro a _ hle
    exact List.any_eq_true.mpr ⟨t, h, decide_eq_true hle⟩
  rw [abortedFor, abortedFor, aborts_compactRecords, neededAborts, List.filter_filter]
  congr 1
  apply List.filter_congr
  intro a ha
  by_cases hle : t.manifestSeq ≤ a.2
  · rw [hneeded a ha hle, Bool.and_true]
  · rw [decide_eq_false hle, Bool.false_and]

theorem catalogue_compactRecords (rs : List Record) : catalogue (compactRecords rs) = catalogue rs := by
  rw [catalogue, catalogue, surviving_compactRecords]
  apply List.map_congr_left
  intro t ht
  rw [abortedFor_compactRecords ht]

theorem recover_compact (file : Bytes) : recover (compact file) = recover file := by
  rw [recover, compact, scan_encodeAll (encodable_compactRecords (encodable_scan file)),
    catalogue_compactRecords, recover]

/-! ## The records as the engine's model keeps them -/

section View

variable (name : Bytes → ℕ)

/-- The metadata of a table whose path is known by its name. -/
def Table.view (t : Table) : Metadata :=
  { filepath := name t.filepath, manifestSeq := t.manifestSeq, entryCount := t.entryCount,
    level := t.level.toNat, abortedBatchTs := t.abortedBatchTs }

def Record.view : Record → ManifestRecord
  | .addSSTable t => .addSSTable t.manifestSeq (name t.filepath) t.entryCount t.level.toNat
  | .removeSSTable seq => .removeSSTable seq
  | .abortBatch batchTs fenceSeq => .abortBatch batchTs fenceSeq

theorem added_view (rs : List Record) :
    Manifest.added (rs.map (Record.view name)) =
      (added rs).map fun t => { Table.view name t with abortedBatchTs := [] } := by
  induction rs with
  | nil => rfl
  | cons r rs ih =>
    rw [List.map_cons]
    cases r <;> simp_all [Record.view, Manifest.added, added, Table.view]

theorem removed_view (rs : List Record) : Manifest.removed (rs.map (Record.view name)) = removed rs := by
  induction rs with
  | nil => rfl
  | cons r rs ih =>
    rw [List.map_cons]
    cases r <;> simp_all [Record.view, Manifest.removed, removed]

theorem aborts_view (rs : List Record) : Manifest.aborts (rs.map (Record.view name)) = aborts rs := by
  induction rs with
  | nil => rfl
  | cons r rs ih =>
    rw [List.map_cons]
    cases r <;> simp_all [Record.view, Manifest.aborts, aborts]

/-- The catalogue that the engine's model recovers is the one recovered from the bytes. -/
theorem recover_view (file : Bytes) :
    Manifest.recover ((scan file).map (Record.view name)) = (recover file).map (Table.view name) := by
  have hsurviving : Manifest.surviving ((scan file).map (Record.view name)) =
      (surviving (scan file)).map fun t => { Table.view name t with abortedBatchTs := [] } := by
    rw [Manifest.surviving, added_view, removed_view, List.filter_map]
    rfl
  rw [Manifest.recover, hsurviving, List.map_map, recover, catalogue, List.map_map]
  apply List.map_congr_left
  intro t _
  simp only [Function.comp_apply, Table.view, Manifest.abortedFor, aborts_view, abortedFor]

end View

/-! ## The files of a crash -/

/-- The MANIFEST and the temporary file beside it. -/
structure Files where
  manifest : Option Bytes
  temporary : Option Bytes
  deriving DecidableEq, Repr

def Files.write (d : Files) (onDisk : Bytes) : Files := { d with temporary := some onDisk }

def Files.remove (d : Files) : Files := { d with manifest := none }

def Files.rename (d : Files) : Files := ⟨d.temporary, none⟩

/-- Where the crash finds `Compact`: before the temporary file is synced, with any part of it on disk,
or behind one of the three steps that follow. -/
inductive CrashPoint where
  | writing (onDisk : Bytes)
  | synced
  | removed
  | renamed
  deriving DecidableEq, Repr

/-- The files at that point, where `Compact` gets as far as writing. -/
def CrashPoint.files (out : Bytes) (d : Files) : CrashPoint → Files
  | .writing onDisk => d.write onDisk
  | .synced => d.write out
  | .removed => (d.write out).remove
  | .renamed => (d.write out).remove.rename

/-- The files that a crash leaves. On an empty MANIFEST `Compact` returns before it writes. -/
def crash (file : Bytes) (temporary : Option Bytes) (point : CrashPoint) : Files :=
  if file.isEmpty then ⟨some file, temporary⟩ else point.files (compact file) ⟨some file, temporary⟩

/-- The file of a `Manifest` that is opened for appending. -/
def reopen (files : Files) : Bytes := files.manifest.getD []

/-- `Recover` on a `Manifest` reopened at the same path. -/
def recoverAfter (file : Bytes) (temporary : Option Bytes) (point : CrashPoint) : List Table :=
  recover (reopen (crash file temporary point))

/-- `Compact` to its end, with a rename that succeeds. -/
def compactFiles (file : Bytes) (temporary : Option Bytes) : Files :=
  if file.isEmpty then ⟨some file, temporary⟩
  else (Files.write ⟨some file, temporary⟩ (compact file)).remove.rename

/-- Whatever bytes the MANIFEST has, `Recover` returns the same tables with and without `Compact` before it. -/
theorem recover_after_compact (file : Bytes) (temporary : Option Bytes) :
    recover (reopen (compactFiles file temporary)) = recover file := by
  unfold compactFiles
  split
  · rfl
  · exact recover_compact file

/-- A table that was added and not removed. -/
def HasTable (file : Bytes) : Prop := ∃ t ∈ added (scan file), t.manifestSeq ∉ removed (scan file)

theorem recover_nil : recover [] = [] := rfl

theorem recover_eq_nil_iff (file : Bytes) : recover file = [] ↔ ¬ HasTable file := by
  rw [recover, catalogue, List.map_eq_nil_iff, surviving, List.filter_eq_nil_iff]
  simp [HasTable]

/-- The catalogue survives a crash unless it finds the MANIFEST removed and had a table. -/
theorem recoverAfter_eq_iff (file : Bytes) (temporary : Option Bytes) (point : CrashPoint) :
    recoverAfter file temporary point = recover file ↔ (point = .removed → ¬ HasTable file) := by
  unfold recoverAfter crash
  by_cases hempty : file.isEmpty = true
  · have hfile : file = [] := List.isEmpty_iff.mp hempty
    have hnone : ¬ HasTable file := by
      rw [← recover_eq_nil_iff, hfile]
      exact recover_nil
    rw [if_pos hempty]
    exact ⟨fun _ _ => hnone, fun _ => rfl⟩
  · rw [if_neg hempty]
    cases point with
    | writing onDisk => exact ⟨fun _ h => (by cases h), fun _ => rfl⟩
    | synced => exact ⟨fun _ h => (by cases h), fun _ => rfl⟩
    | renamed => exact ⟨fun _ h => (by cases h), fun _ => recover_compact file⟩
    | removed =>
      change recover [] = recover file ↔ _
      rw [recover_nil, eq_comm, recover_eq_nil_iff]
      exact ⟨fun h _ => h, fun h => h rfl⟩

/-- A MANIFEST with one table. -/
def oneTable : Bytes :=
  encodeAll [.addSSTable ⟨0, 1, 1, 1, 64, 0, [0x73, 0x73, 0x74, 0x5f, 0x30], []⟩]

/-- A crash between the removal and the renaming empties the catalogue. -/
theorem catalogue_lost_in_compact :
    ¬ ∀ (file : Bytes) (temporary : Option Bytes) (point : CrashPoint),
      recoverAfter file temporary point = recover file := by
  intro h
  have hlost : recoverAfter oneTable none .removed = [] := by decide
  have hbefore : (recover oneTable).length = 1 := by decide +kernel
  rw [← h oneTable none .removed, hlost] at hbefore
  cases hbefore

end Kvdb.ManifestBytes
