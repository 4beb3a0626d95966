import Kvdb.Log.ManifestCrash

/-! # Replaying the MANIFEST in order

`Recover` collects all removals of the file and erases the tables with these numbers at the end, so a removal also
reaches a table that was added after it. Compared with the records applied one after the other, the result is the same
exactly when every table that comes behind a removal of its number is removed again. -/
namespace Kvdb.ManifestBytes
set_option autoImplicit false

/-- The tables after one more record. -/
def applyRecord (tables : List Table) : Record → List Table
  | .addSSTable t => tables ++ [t]
  | .removeSSTable seq => tables.filter fun t => !decide (t.manifestSeq = seq)
  | .abortBatch _ _ => tables

/-- The records applied in order. -/
def replay (rs : List Record) : List Table := rs.foldl applyRecord []

/-- The catalogue after the records, with the aborted batches of each table. -/
def replayCatalogue (rs : List Record) : List Table :=
  (replay rs).map fun t => { t with abortedBatchTs := abortedFor rs t }

/-- Each table that is added, with whether a removal of its number follows. -/
def fates : List Record → List (Table × Bool)
  | [] => []
  | .addSSTable t :: rs => (t, decide (t.manifestSeq ∈ removed rs)) :: fates rs
  | .removeSSTable _ :: rs => fates rs
  | .abortBatch _ _ :: rs => fates rs

/-- A table behind a removal of its number is removed again. -/
def RemovedAgain (rs : List Record) : Prop :=
  ∀ before t after, rs = before ++ .addSSTable t :: after → t.manifestSeq ∈ removed before →
    t.manifestSeq ∈ removed after

/-! ## Replay by the fates of the tables -/

theorem fates_fst (rs : List Record) : (fates rs).map Prod.fst = added rs := by
  induction rs with
  | nil => rfl
  | cons r rs ih =>
    cases r with
    | addSSTable t => exact congrArg (List.cons t) ih
    | removeSSTable seq => exact ih
    | abortBatch batchTs fenceSeq => exact ih

theorem removed_cons (r : Record) (rs : List Record) :
    removed (r :: rs) = (match r with | .removeSSTable seq => [seq] | _ => []) ++ removed rs := by
  cases r <;> rfl

/-- What the records make of tables that are already there. -/
theorem foldl_applyRecord (rs : List Record) (tables : List Table) :
    rs.foldl applyRecord tables =
      (tables.filter fun t => !decide (t.manifestSeq ∈ removed rs)) ++
        ((fates rs).filter fun p => !p.2).map Prod.fst := by
  induction rs generalizing tables with
  | nil => simp [removed, fates]
  | cons r rs ih =>
    rw [List.foldl_cons, ih, removed_cons]
    cases r with
    | addSSTable t =>
      simp only [applyRecord, fates, List.nil_append, List.filter_append, List.append_assoc, List.filter_cons,
        List.filter_nil]
      by_cases hlater : t.manifestSeq ∈ removed rs
      · simp [hlater]
      · simp [hlater]
    | removeSSTable seq =>
      simp only [applyRecord, fates, List.filter_filter]
      congr 1
      apply List.filter_congr
      intro t _
      by_cases hseq : t.manifestSeq = seq
      · simp [hseq]
      · simp [hseq]
    | abortBatch batchTs fenceSeq => rfl

theorem replay_eq (rs : List Record) : replay rs = ((fates rs).filter fun p => !p.2).map Prod.fst := by
  rw [replay, foldl_applyRecord]
  rfl

theorem surviving_eq (rs : List Record) :
    surviving rs = ((fates rs).filter fun p => !decide (p.1.manifestSeq ∈ removed rs)).map Prod.fst := by
  rw [surviving, ← fates_fst, List.filter_map]
  rfl

/-! ## The two filters -/

/-- Of two filters, the sharper one leaves as much exactly when it drops nothing more. -/
theorem map_filter_eq_iff {α β : Type} {p q : α → Bool} (f : α → β) (xs : List α) (hpq : ∀ x ∈ xs, p x = true → q x = true) :
    (xs.filter p).map f = (xs.filter q).map f ↔ ∀ x ∈ xs, q x = true → p x = true := by
  constructor
  · intro heq
    have hlength := congrArg List.length heq
    rw [List.length_map, List.length_map] at hlength
    have htwice : xs.filter p = (xs.filter q).filter p := by
      rw [List.filter_filter]
      apply List.filter_congr
      intro x hx
      by_cases hp : p x = true
      · simp [hp, hpq x hx hp]
      · simp [hp]
    have hfilter : xs.filter p = xs.filter q := by
      rw [htwice] at hlength ⊢
      exact List.filter_sublist.eq_of_length hlength
    intro x hx hq
    have hin : x ∈ xs.filter p := by
      rw [hfilter]
      exact List.mem_filter.mpr ⟨hx, hq⟩
    exact (List.mem_filter.mp hin).2
  · intro hqp
    have hfilter : xs.filter p = xs.filter q :=
      List.filter_congr fun x hx => Bool.eq_iff_iff.mpr ⟨hpq x hx, hqp x hx⟩
    rw [hfilter]

theorem mem_fates (rs : List Record) (t : Table) (later : Bool) :
    (t, later) ∈ fates rs ↔
      ∃ before after, rs = before ++ .addSSTable t :: after ∧ later = decide (t.manifestSeq ∈ removed after) := by
  induction rs with
  | nil => simp [fates]
  | cons r rs ih =>
    have hskip : (∀ u, r ≠ .addSSTable u) →
        ((∃ before after, r :: rs = before ++ .addSSTable t :: after ∧
            later = decide (t.manifestSeq ∈ removed after)) ↔
          ∃ before after, rs = before ++ .addSSTable t :: after ∧ later = decide (t.manifestSeq ∈ removed after)) := by
      intro hr
      constructor
      · rintro ⟨before, after, heq, hlater⟩
        cases before with
        | nil => exact absurd (List.cons.inj heq).1 (hr t)
        | cons b before => exact ⟨before, after, (List.cons.inj heq).2, hlater⟩
      · rintro ⟨before, after, heq, hlater⟩
        exact ⟨r :: before, after, by rw [heq, List.cons_append], hlater⟩
    cases r with
    | removeSSTable seq => exact ih.trans (hskip fun u => by simp).symm
    | abortBatch batchTs fenceSeq => exact ih.trans (hskip fun u => by simp).symm
    | addSSTable u =>
      rw [fates, List.mem_cons, ih]
      constructor
      · rintro (heq | ⟨before, after, heq, hlater⟩)
        · cases heq
          exact ⟨[], rs, rfl, rfl⟩
        · exact ⟨.addSSTable u :: before, after, by rw [heq, List.cons_append], hlater⟩
      · rintro ⟨before, after, heq, hlater⟩
        cases before with
        | nil =>
          cases heq
          exact .inl (by rw [hlater])
        | cons b before => exact .inr ⟨before, after, (List.cons.inj heq).2, hlater⟩

theorem removed_append (rs rs' : List Record) : removed (rs ++ rs') = removed rs ++ removed rs' :=
  List.filterMap_append

theorem removed_split (before after : List Record) (t : Table) :
    removed (before ++ .addSSTable t :: after) = removed before ++ removed after := by
  rw [removed_append]
  rfl

/-- A map that only sets the aborted batches can be undone. -/
theorem map_aborted_inj {f : Table → List ℕ} {xs ys : List Table} (hxs : ∀ t ∈ xs, t.abortedBatchTs = [])
    (hys : ∀ t ∈ ys, t.abortedBatchTs = [])
    (h : (xs.map fun t => { t with abortedBatchTs := f t }) = ys.map fun t => { t with abortedBatchTs := f t }) :
    xs = ys := by
  have hclear : ∀ zs : List Table, (∀ t ∈ zs, t.abortedBatchTs = []) →
      (zs.map fun t => { t with abortedBatchTs := f t }).map (fun t => { t with abortedBatchTs := [] }) = zs := by
    intro zs hzs
    rw [List.map_map]
    conv_rhs => rw [← List.map_id zs]
    apply List.map_congr_left
    intro t ht
    cases t with
    | mk seq count minLen maxLen size level path aborted =>
      have hnil := hzs _ ht
      simp only at hnil
      subst hnil
      rfl
  rw [← hclear xs hxs, h, hclear ys hys]

theorem surviving_eq_replay_iff (rs : List Record) : surviving rs = replay rs ↔ RemovedAgain rs := by
  rw [surviving_eq, replay_eq, map_filter_eq_iff Prod.fst (fates rs)]
  · constructor
    · intro h before t after heq hbefore
      by_contra hafter
      have hin : (t, false) ∈ fates rs := (mem_fates rs t false).mpr ⟨before, after, heq, by simp [hafter]⟩
      have hkept := h _ hin rfl
      rw [heq, removed_split] at hkept
      simp [hbefore] at hkept
    · rintro h ⟨t, later⟩ hin hlater
      obtain ⟨before, after, heq, hdecide⟩ := (mem_fates rs t later).mp hin
      have hafter : t.manifestSeq ∉ removed after := by
        intro hmem
        simp [hdecide, hmem] at hlater
      have hbefore : t.manifestSeq ∉ removed before := fun hmem => hafter (h before t after heq hmem)
      rw [heq, removed_split]
      simp [hbefore, hafter]
  · rintro ⟨t, later⟩ hin hkept
    obtain ⟨before, after, heq, hdecide⟩ := (mem_fates rs t later).mp hin
    rw [heq, removed_split] at hkept
    have hafter : t.manifestSeq ∉ removed after := by
      intro hmem
      simp [hmem] at hkept
    simp [hdecide, hafter]

/-! ## Main results -/

/-- For every sequence of calls whose words fit, what `Recover` reads back from the file is the replay of the records
in order exactly when no table is added behind a removal of its number, or it is removed again. -/
theorem recover_eq_replay_iff (rs : List Record) (h : ∀ r ∈ rs, Encodable r) :
    recover (encodeAll rs) = replayCatalogue rs ↔ RemovedAgain rs := by
  have hadded : ∀ t ∈ added rs, t.abortedBatchTs = [] := by
    intro t ht
    obtain ⟨r, hr, heq⟩ := List.mem_filterMap.mp ht
    cases r with
    | addSSTable u =>
      cases heq
      exact (h _ hr).2.2.2.2.2.2.2
    | removeSSTable seq => cases heq
    | abortBatch batchTs fenceSeq => cases heq
  have hsurviving : ∀ t ∈ surviving rs, t.abortedBatchTs = [] := fun t ht => hadded t (List.mem_of_mem_filter ht)
  have hreplay : ∀ t ∈ replay rs, t.abortedBatchTs = [] := by
    intro t ht
    rw [replay_eq] at ht
    obtain ⟨p, hp, rfl⟩ := List.mem_map.mp ht
    apply hadded
    rw [← fates_fst]
    exact List.mem_map_of_mem (List.mem_of_mem_filter hp)
  rw [recover, scan_encodeAll h, ← surviving_eq_replay_iff]
  constructor
  · intro heq
    exact map_aborted_inj hsurviving hreplay heq
  · intro heq
    rw [catalogue, replayCatalogue, heq]

instance decidableEncodable (r : Record) : Decidable (Encodable r) :=
  match r with
  | .addSSTable t => inferInstanceAs (Decidable (t.manifestSeq < 256 ^ 8 ∧ t.entryCount < 256 ^ 8 ∧
      t.minKeyLen < 256 ^ 4 ∧ t.maxKeyLen < 256 ^ 4 ∧ t.fileSize < 256 ^ 8 ∧ wordLevel (levelWord t.level) = t.level ∧
        t.filepath.length < 256 ^ 2 ∧ t.abortedBatchTs = []))
  | .removeSSTable seq => inferInstanceAs (Decidable (seq < 256 ^ 8))
  | .abortBatch batchTs fenceSeq => inferInstanceAs (Decidable (batchTs < 256 ^ 8 ∧ fenceSeq < 256 ^ 8))

/-- A table of one byte of path. -/
def smallTable (seq : ℕ) (path : UInt8) : Table := ⟨seq, 1, 1, 1, 64, 0, [path], []⟩

/-- Two tables, of which the first is replaced, and an aborted batch. -/
def replacedRecords : List Record :=
  [.addSSTable (smallTable 0 1), .addSSTable (smallTable 1 2), .abortBatch 9 1, .removeSSTable 0,
    .addSSTable (smallTable 2 3)]

theorem recover_eq_replay_replacedRecords :
    recover (encodeAll replacedRecords) = replayCatalogue replacedRecords ∧
      replayCatalogue replacedRecords = [{ smallTable 1 2 with abortedBatchTs := [9] }, smallTable 2 3] :=
  ⟨(recover_eq_replay_iff replacedRecords (by decide)).mpr
    ((surviving_eq_replay_iff replacedRecords).mp (by decide)), by decide⟩

/-- What `CompactLevel` writes for one input and one output when `sstable_seq_` is 1: the removal and the addition
carry the same number. -/
def compactionCalls : List Record := [.addSSTable (smallTable 0 1), .removeSSTable 1, .addSSTable (smallTable 1 2)]

theorem readded_table_lost :
    (∀ r ∈ compactionCalls, Encodable r) ∧ recover (encodeAll compactionCalls) = [smallTable 0 1] ∧
      replayCatalogue compactionCalls = [smallTable 0 1, smallTable 1 2] := by
  have hfit : ∀ r ∈ compactionCalls, Encodable r := by decide
  refine ⟨hfit, ?_, by decide⟩
  rw [recover, scan_encodeAll hfit]
  decide

end Kvdb.ManifestBytes
