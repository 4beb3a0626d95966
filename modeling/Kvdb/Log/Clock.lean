import Kvdb.Log.Bytes

/-! # The timestamp that a log is recovered to

`RecoverFromWAL` raises `global_ts_` to the last checkpoint that the first pass finds and to the entries
that the second pass replays: `clock`. The first pass ends at the first begin or commit record, so the
two passes together read the log up to the first checkpoint behind such a record (`reached`). A log is
`Bounded` when its clock is not below any entry that they read; what the engine appends keeps this, since a
checkpoint in front of every marker carries a timestamp that no earlier entry exceeds. -/
namespace Kvdb.WAL
set_option autoImplicit false

/-- What the first pass reads. -/
def visible (log : List WalRecord) : List WalRecord := log.takeWhile fun r => !r.stopsFirstPass

def hidden (log : List WalRecord) : List WalRecord := log.dropWhile fun r => !r.stopsFirstPass

/-- What the two passes read: the log up to the first checkpoint behind a begin or commit record. -/
def reached (log : List WalRecord) : List WalRecord := visible log ++ secondPass (hidden log)

/-- The timestamp that `RecoverFromWAL` leaves in `global_ts_`. -/
def clock (log : List WalRecord) : ℕ :=
  ((recover log).entries.map KeyValuePair.timestamp).foldl max (recover log).checkpointTs

def Unmarked (log : List WalRecord) : Prop := ∀ r ∈ log, r.stopsFirstPass = false

/-- No entry in front of the markers is above the clock. -/
def Bounded (log : List WalRecord) : Prop :=
  ∀ key value ts, .entry key value ts ∈ visible log → ts ≤ clock log

/-- The records of the file and of the buffer. -/
def log (w : WAL) : List WalRecord := w.file ++ w.writeBuf

/-- `TrimToLastCheckpoint` where its scan finds no checkpoint, which is the case unless eight bytes match the
checksum of a checkpoint by accident: the log is synced and keeps its records, and the sequence numbers
restart unless the file is empty. `none` where the scan cuts the file; what is left need not be records. -/
def trimToLastCheckpoint (w : WAL) : Option WAL :=
  if w.log.isEmpty then some (w.sync true).2
  else if WalBytes.trimToLastCheckpoint (WalBytes.encodeAll w.log) = WalBytes.encodeAll w.log then
    some ⟨w.log, [], 0, 0⟩
  else none

/-! ## The two passes over a log in two parts -/

/-- The first pass finds nothing in the log. -/
def Quiet (log : List WalRecord) : Prop := ∀ best, lastCheckpoint log best = best

theorem hidden_head {log rs : List WalRecord} {r : WalRecord} (h : hidden log = r :: rs) :
    r.stopsFirstPass = true := by
  have hne : log.dropWhile (fun r => !r.stopsFirstPass) ≠ [] := by
    rw [show log.dropWhile (fun r => !r.stopsFirstPass) = r :: rs from h]
    exact List.cons_ne_nil r rs
  have hhead := List.head_dropWhile_not (fun r : WalRecord => !r.stopsFirstPass) hne
  have hr : (log.dropWhile fun r => !r.stopsFirstPass).head hne = r := by
    simp only [show log.dropWhile (fun r => !r.stopsFirstPass) = r :: rs from h, List.head_cons]
  simpa [hr] using hhead

theorem quiet_hidden (log more : List WalRecord) (h : hidden log ≠ [] ∨ more = []) :
    Quiet (hidden log ++ more) := by
  intro best
  cases hlog : hidden log with
  | nil =>
    rcases h with h | rfl
    · exact absurd hlog h
    · rfl
  | cons r rs =>
    have hstop := hidden_head hlog
    cases r with
    | batchBegin ts => rfl
    | batchCommit ts => rfl
    | _ => cases hstop

theorem quiet_of_no_checkpoint {log : List WalRecord} (h : ∀ r ∈ log, r.isCheckpoint = false) : Quiet log := by
  induction log with
  | nil => exact fun _ => rfl
  | cons r rs ih =>
    have hrs := ih fun r hr => h r (List.mem_cons_of_mem _ hr)
    have hr := h r List.mem_cons_self
    cases r with
    | entry key value ts => exact hrs
    | checkpoint ts batchTs => cases hr
    | batchBegin ts => exact fun _ => rfl
    | batchCommit ts => exact fun _ => rfl
    | abort ts => exact hrs

theorem lastCheckpoint_append {front back rest : List WalRecord} {c : ℕ × ℕ} (hfront : Unmarked front)
    (hback : Quiet back) :
    lastCheckpoint (front ++ back) (c, rest ++ back) =
      ((lastCheckpoint front (c, rest)).1, (lastCheckpoint front (c, rest)).2 ++ back) := by
  induction front generalizing c rest with
  | nil => exact hback _
  | cons r rs ih =>
    have hrs : Unmarked rs := fun r hr => hfront r (List.mem_cons_of_mem _ hr)
    have hr := hfront r List.mem_cons_self
    cases r with
    | entry key value ts => exact ih hrs
    | checkpoint ts batchTs => exact ih hrs
    | batchBegin ts => cases hr
    | batchCommit ts => cases hr
    | abort ts => exact ih hrs

/-- What follows the last checkpoint of an unmarked log holds no checkpoint. -/
theorem lastCheckpoint_rest {log : List WalRecord} (hlog : Unmarked log) (c : ℕ × ℕ) (rest : List WalRecord) :
    (∀ r ∈ (lastCheckpoint log (c, rest)).2, r.isCheckpoint = false) ∨
      ((∀ r ∈ log, r.isCheckpoint = false) ∧ lastCheckpoint log (c, rest) = (c, rest)) := by
  induction log generalizing c rest with
  | nil => exact .inr ⟨fun _ hr => (by cases hr), rfl⟩
  | cons r rs ih =>
    have hrs : Unmarked rs := fun r hr => hlog r (List.mem_cons_of_mem _ hr)
    have hr := hlog r List.mem_cons_self
    have hskip : r.isCheckpoint = false →
        ((∀ r ∈ rs, r.isCheckpoint = false) ∧ lastCheckpoint rs (c, rest) = (c, rest)) →
        (∀ r' ∈ r :: rs, r'.isCheckpoint = false) ∧ lastCheckpoint rs (c, rest) = (c, rest) := by
      intro hother hrest
      refine ⟨?_, hrest.2⟩
      intro r' hr'
      rcases List.mem_cons.mp hr' with rfl | hr'
      · exact hother
      · exact hrest.1 r' hr'
    cases r with
    | entry key value ts => exact (ih hrs c rest).imp_right (hskip rfl)
    | checkpoint ts batchTs =>
      refine .inl ?_
      rcases ih hrs (ts, batchTs) rs with hnone | ⟨hnone, heq⟩
      · exact hnone
      · show ∀ r ∈ (lastCheckpoint rs ((ts, batchTs), rs)).2, r.isCheckpoint = false
        rw [heq]
        exact hnone
    | batchBegin ts => cases hr
    | batchCommit ts => cases hr
    | abort ts => exact (ih hrs c rest).imp_right (hskip rfl)

theorem lastCheckpoint_self_rest {log : List WalRecord} (hlog : Unmarked log) :
    ∀ r ∈ (lastCheckpoint log ((0, 0), log)).2, r.isCheckpoint = false := by
  rcases lastCheckpoint_rest hlog (0, 0) log with hnone | ⟨hnone, heq⟩
  · exact hnone
  · rw [heq]
    exact hnone

theorem recover_append {front back : List WalRecord} (hfront : Unmarked front) (hback : Quiet back) :
    (recover (front ++ back)).checkpointTs = (recover front).checkpointTs ∧
      (recover (front ++ back)).entries = (recover front).entries ++ replayEntries (secondPass back) := by
  have hlast : lastCheckpoint (front ++ back) ((0, 0), front ++ back) = _ := lastCheckpoint_append hfront hback
  have hrest := lastCheckpoint_self_rest hfront
  have hsecond : secondPass ((lastCheckpoint front ((0, 0), front)).2 ++ back) =
      (lastCheckpoint front ((0, 0), front)).2 ++ secondPass back := by
    refine List.takeWhile_append_of_pos ?_
    intro r hr
    simp [hrest r hr]
  simp only [recover, hlast, hsecond, secondPass_eq hrest, replayEntries_append, and_self]

theorem recover_checkpoint {log : List WalRecord} (hlog : Unmarked log) (ts batchTs : ℕ) :
    (recover (log ++ [.checkpoint ts batchTs])).checkpointTs = ts := by
  have hlast : ∀ best, (lastCheckpoint (log ++ [.checkpoint ts batchTs]) best).1 = (ts, batchTs) := by
    induction log with
    | nil => exact fun _ => rfl
    | cons r rs ih =>
      intro best
      have hrs := ih fun r hr => hlog r (List.mem_cons_of_mem _ hr)
      have hr := hlog r List.mem_cons_self
      cases r with
      | entry key value ts => exact hrs _
      | checkpoint t b => exact hrs _
      | batchBegin ts => cases hr
      | batchCommit ts => cases hr
      | abort ts => exact hrs _
  simp only [recover, hlast]

theorem lastCheckpoint_suffix (log : List WalRecord) (best : (ℕ × ℕ) × List WalRecord) :
    (lastCheckpoint log best).2 = best.2 ∨ (lastCheckpoint log best).2 <:+ log := by
  induction log generalizing best with
  | nil => exact .inl rfl
  | cons r rs ih =>
    cases r with
    | entry key value ts => exact (ih best).imp_right fun h => h.trans (List.suffix_cons _ rs)
    | checkpoint ts batchTs =>
      refine .inr ?_
      rcases ih ((ts, batchTs), rs) with h | h
      · show (lastCheckpoint rs ((ts, batchTs), rs)).2 <:+ _
        rw [h]
        exact List.suffix_cons _ rs
      · exact h.trans (List.suffix_cons _ rs)
    | batchBegin ts => exact .inl rfl
    | batchCommit ts => exact .inl rfl
    | abort ts => exact (ih best).imp_right fun h => h.trans (List.suffix_cons _ rs)

/-- Only entries of the log are replayed. -/
theorem mem_of_replayed {log : List WalRecord} {x : KeyValuePair} (hx : x ∈ (recover log).entries) :
    .entry x.key x.value x.timestamp ∈ log := by
  have hin := ((mem_replayEntries _ x).mp hx).2
  have hrest := (List.takeWhile_prefix _).subset hin
  rcases lastCheckpoint_suffix log ((0, 0), log) with h | h
  · rw [h] at hrest
    exact hrest
  · exact h.subset hrest

/-! ## The clock -/

theorem le_foldl_max (ns : List ℕ) (n : ℕ) : n ≤ ns.foldl max n ∧ ∀ m ∈ ns, m ≤ ns.foldl max n := by
  induction ns generalizing n with
  | nil => exact ⟨Nat.le_refl n, fun _ hm => (by cases hm)⟩
  | cons k ns ih =>
    obtain ⟨hacc, hmem⟩ := ih (max n k)
    rw [List.foldl_cons]
    refine ⟨by omega, ?_⟩
    intro m hm
    rcases List.mem_cons.mp hm with rfl | hm
    · omega
    · exact hmem m hm

theorem foldl_max_le {ns : List ℕ} {n k : ℕ} (hn : n ≤ k) (hns : ∀ m ∈ ns, m ≤ k) : ns.foldl max n ≤ k := by
  induction ns generalizing n with
  | nil => exact hn
  | cons m ns ih =>
    rw [List.foldl_cons]
    have hm := hns m List.mem_cons_self
    exact ih (by omega) fun m hm => hns m (List.mem_cons_of_mem _ hm)

theorem checkpointTs_le_clock (log : List WalRecord) : (recover log).checkpointTs ≤ clock log :=
  (le_foldl_max _ _).1

theorem replayed_le_clock {log : List WalRecord} {x : KeyValuePair} (hx : x ∈ (recover log).entries) :
    x.timestamp ≤ clock log :=
  (le_foldl_max _ _).2 _ (List.mem_map_of_mem hx)

theorem clock_append {front back : List WalRecord} (hfront : Unmarked front) (hback : Quiet back) :
    clock front ≤ clock (front ++ back) ∧
      ∀ key value ts, .entry key value ts ∈ secondPass back → ts ≤ clock (front ++ back) := by
  obtain ⟨hckpt, hentries⟩ := recover_append hfront hback
  constructor
  · refine foldl_max_le (hckpt ▸ checkpointTs_le_clock _) ?_
    intro m hm
    obtain ⟨x, hx, rfl⟩ := List.mem_map.mp hm
    refine replayed_le_clock ?_
    rw [hentries]
    exact List.mem_append_left _ hx
  · intro key value ts hin
    have hx := (mem_replayEntries (secondPass back) ⟨key, value, ts, false⟩).mpr ⟨rfl, hin⟩
    have hreplayed : ⟨key, value, ts, false⟩ ∈ (recover (front ++ back)).entries := by
      rw [hentries]
      exact List.mem_append_right _ hx
    exact replayed_le_clock hreplayed

/-! ## Appending to a log -/

theorem unmarked_visible (log : List WalRecord) : Unmarked (visible log) := by
  intro r hr
  have hkept := List.mem_takeWhile_imp hr
  simpa using hkept

theorem visible_append_hidden (log : List WalRecord) : visible log ++ hidden log = log :=
  List.takeWhile_append_dropWhile

theorem visible_of_unmarked {log : List WalRecord} (h : Unmarked log) : visible log = log := by
  refine List.takeWhile_eq_self_iff.mpr ?_
  intro r hr
  simp [h r hr]

theorem hidden_of_marked {log : List WalRecord} (h : ¬ Unmarked log) : hidden log ≠ [] := by
  intro hnil
  refine h ?_
  have hsplit := visible_append_hidden log
  rw [hnil, List.append_nil] at hsplit
  rw [← hsplit]
  exact unmarked_visible log

theorem visible_append_of_unmarked {log : List WalRecord} (h : Unmarked log) (more : List WalRecord) :
    visible (log ++ more) = log ++ visible more := by
  refine List.takeWhile_append_of_pos ?_
  intro r hr
  simp [h r hr]

theorem split_append_of_marked {log : List WalRecord} (h : ¬ Unmarked log) (more : List WalRecord) :
    visible (log ++ more) = visible log ∧ hidden (log ++ more) = hidden log ++ more := by
  have hlog := visible_append_hidden log
  cases hhid : hidden log with
  | nil => exact absurd hhid (hidden_of_marked h)
  | cons r rs =>
    have hstop := hidden_head hhid
    have hwhole : log ++ more = visible log ++ r :: (rs ++ more) := by
      rw [← List.cons_append, ← hhid, ← List.append_assoc, hlog]
    have hall : ∀ x ∈ visible log, (!x.stopsFirstPass) = true := by
      intro x hx
      simp [unmarked_visible log x hx]
    constructor
    · rw [hwhole, visible, List.takeWhile_append_of_pos hall, List.takeWhile_cons_of_neg (by simp [hstop]),
        List.append_nil]
    · rw [hwhole, hidden, List.dropWhile_append_of_pos hall, List.dropWhile_cons_of_neg (by simp [hstop]),
        List.cons_append]

theorem mem_secondPass_append {rs : List WalRecord} {r : WalRecord} (h : r ∈ secondPass rs)
    (more : List WalRecord) : r ∈ secondPass (rs ++ more) := by
  induction rs with
  | nil => cases h
  | cons r' rs ih =>
    rw [secondPass, List.takeWhile_cons] at h
    rw [List.cons_append, secondPass, List.takeWhile_cons]
    split at h
    · next hkeep =>
      rw [if_pos hkeep]
      rcases List.mem_cons.mp h with rfl | h
      · exact List.mem_cons_self
      · exact List.mem_cons_of_mem _ (ih h)
    · cases h

theorem Bounded.le_clock {log : List WalRecord} (h : Bounded log) {key value : Bytes} {ts : ℕ}
    (hin : .entry key value ts ∈ reached log) : ts ≤ clock log := by
  rcases List.mem_append.mp hin with hin | hin
  · exact h key value ts hin
  · have hquiet := quiet_hidden log [] (.inr rfl)
    rw [List.append_nil] at hquiet
    have hle := (clock_append (unmarked_visible log) hquiet).2 key value ts hin
    rw [visible_append_hidden] at hle
    exact hle

theorem Bounded.append_of_marked {log : List WalRecord} (h : Bounded log) (hmark : ¬ Unmarked log)
    (more : List WalRecord) : Bounded (log ++ more) := by
  obtain ⟨hvis, -⟩ := split_append_of_marked hmark more
  have hlog := visible_append_hidden log
  have hquiet := quiet_hidden log [] (.inr rfl)
  have hquiet' := quiet_hidden log more (.inl (hidden_of_marked hmark))
  rw [List.append_nil] at hquiet
  have hwhole : visible log ++ (hidden log ++ more) = log ++ more := by rw [← List.append_assoc, hlog]
  have hmono : clock log ≤ clock (log ++ more) := by
    obtain ⟨hckpt, hentries⟩ := recover_append (unmarked_visible log) hquiet
    obtain ⟨hckpt', hentries'⟩ := recover_append (unmarked_visible log) hquiet'
    rw [hlog] at hckpt hentries
    rw [hwhole] at hckpt' hentries'
    refine foldl_max_le (by rw [hckpt, ← hckpt']; exact checkpointTs_le_clock _) ?_
    intro m hm
    obtain ⟨x, hx, rfl⟩ := List.mem_map.mp hm
    refine replayed_le_clock ?_
    rw [hentries, List.mem_append, mem_replayEntries] at hx
    rw [hentries', List.mem_append, mem_replayEntries]
    exact hx.imp_right fun hx => ⟨hx.1, mem_secondPass_append hx.2 more⟩
  intro key value ts hin
  rw [hvis] at hin
  exact (h key value ts hin).trans hmono

/-- What is appended in front of every marker without a checkpoint is replayed. -/
theorem Bounded.append_of_no_checkpoint {log more : List WalRecord} (h : Bounded log) (hlog : Unmarked log)
    (hmore : ∀ r ∈ more, r.isCheckpoint = false) : Bounded (log ++ more) := by
  obtain ⟨hmono, hnew⟩ := clock_append hlog (quiet_of_no_checkpoint hmore)
  intro key value ts hin
  rw [visible_append_of_unmarked hlog, List.mem_append] at hin
  rcases hin with hin | hin
  · rw [← visible_of_unmarked hlog] at hin
    exact (h key value ts hin).trans hmono
  · refine hnew key value ts ?_
    rw [secondPass_eq hmore]
    exact (List.takeWhile_prefix _).subset hin

/-- A checkpoint in front of every marker must not be below an entry before it. -/
theorem bounded_checkpoint {log : List WalRecord} (hlog : Unmarked log) {ts : ℕ} (batchTs : ℕ)
    (hts : ∀ key value t, .entry key value t ∈ log → t ≤ ts) : Bounded (log ++ [.checkpoint ts batchTs]) := by
  intro key value t hin
  have hin' : .entry key value t ∈ log := by
    simpa using (List.takeWhile_prefix _).subset hin
  refine (hts key value t hin').trans ?_
  have hle := checkpointTs_le_clock (log ++ [.checkpoint ts batchTs])
  rw [recover_checkpoint hlog] at hle
  exact hle

theorem mem_reached_append_of_unmarked {log : List WalRecord} (h : Unmarked log) (more : List WalRecord) :
    ∀ r ∈ log, r ∈ reached (log ++ more) := by
  intro r hr
  rw [reached, visible_append_of_unmarked h]
  exact List.mem_append_left _ (List.mem_append_left _ hr)

theorem reached_subset (log : List WalRecord) : ∀ r ∈ reached log, r ∈ log := by
  intro r hr
  rw [← visible_append_hidden log]
  exact (List.mem_append.mp hr).elim (List.mem_append_left _) fun hr =>
    List.mem_append_right _ ((List.takeWhile_prefix _).subset hr)

theorem mem_reached_append {log : List WalRecord} {r : WalRecord} (hr : r ∈ reached log)
    (more : List WalRecord) : r ∈ reached (log ++ more) := by
  by_cases h : Unmarked log
  · exact mem_reached_append_of_unmarked h more r (reached_subset log r hr)
  · obtain ⟨hvis, hhid⟩ := split_append_of_marked h more
    rw [reached, hvis, hhid]
    rcases List.mem_append.mp hr with hr | hr
    · exact List.mem_append_left _ hr
    · exact List.mem_append_right _ (mem_secondPass_append hr more)

/-! ## The log of a running engine -/

/-- What the log, `global_ts_` and the batch state promise each other: as long as no batch has left a
marker in the log, none is in progress and no entry is above `global_ts_`. -/
structure Clocked (w : WAL) (globalTs : ℕ) (batchInProgress : Bool) (batchTs : ℕ) : Prop where
  file : Bounded w.file
  log : Bounded w.log
  entries : Unmarked w.log → ∀ key value ts, .entry key value ts ∈ w.log → ts ≤ globalTs
  idle : Unmarked w.log → batchInProgress = false ∧ batchTs ≤ globalTs

variable {w w' : WAL} {globalTs globalTs' batchTs batchTs' : ℕ} {inProgress inProgress' : Bool}

theorem Clocked.keep (h : Clocked w globalTs inProgress batchTs) (hlog : w'.log = w.log)
    (hfile : w'.file = w.file ∨ w'.file = w'.log)
    (hts : Unmarked w.log → globalTs ≤ globalTs')
    (hidle : Unmarked w.log → inProgress' = false ∧ batchTs' ≤ globalTs') :
    Clocked w' globalTs' inProgress' batchTs' := by
  refine ⟨?_, ?_, ?_, ?_⟩
  · rcases hfile with hfile | hfile
    · rw [hfile]
      exact h.file
    · rw [hfile, hlog]
      exact h.log
  · rw [hlog]
    exact h.log
  · rw [hlog]
    intro hun key value ts hin
    exact (h.entries hun key value ts hin).trans (hts hun)
  · rw [hlog]
    exact hidle

/-- One record is appended: an entry that `global_ts_` covers, a checkpoint with `global_ts_`, or a marker. -/
theorem Clocked.append (h : Clocked w globalTs inProgress batchTs) {r : WalRecord} (hlog : w'.log = w.log ++ [r])
    (hfile : w'.file = w.file ∨ w'.file = w'.log)
    (hcheckpoint : ∀ ts b, r = .checkpoint ts b → ts = globalTs)
    (hentry : Unmarked w.log → ∀ key value ts, r = .entry key value ts → ts ≤ globalTs')
    (hts : Unmarked w.log → globalTs ≤ globalTs')
    (hidle : Unmarked w'.log → inProgress' = false ∧ batchTs' ≤ globalTs') :
    Clocked w' globalTs' inProgress' batchTs' := by
  have hbounded : Bounded w'.log := by
    rw [hlog]
    by_cases hun : Unmarked w.log
    · by_cases hr : r.isCheckpoint = true
      · cases r with
        | checkpoint ts b =>
          rw [hcheckpoint ts b rfl]
          exact bounded_checkpoint hun b (h.entries hun)
        | _ => cases hr
      · refine h.log.append_of_no_checkpoint hun ?_
        intro r' hr'
        rw [List.mem_singleton.mp hr']
        simpa using hr
    · exact h.log.append_of_marked hun [r]
  refine ⟨?_, hbounded, ?_, hidle⟩
  · rcases hfile with hfile | hfile
    · rw [hfile]
      exact h.file
    · rw [hfile]
      exact hbounded
  · rw [hlog]
    intro hun key value ts hin
    have hold : Unmarked w.log := fun r hr => hun r (List.mem_append_left _ hr)
    rcases List.mem_append.mp hin with hin | hin
    · exact (h.entries hold key value ts hin).trans (hts hold)
    · exact hentry hold key value ts (List.mem_singleton.mp hin).symm

theorem sync_log (w : WAL) (force : Bool) : (w.sync force).2.log = w.log ∧
    ((w.sync force).2.file = w.file ∨ (w.sync force).2.file = (w.sync force).2.log) := by
  unfold sync
  split
  · exact ⟨rfl, .inl rfl⟩
  · split
    · exact ⟨rfl, .inl rfl⟩
    · exact ⟨List.append_nil _, .inr (List.append_nil _).symm⟩

theorem sync_true_file (w : WAL) : (w.sync true).2.file = w.log := by
  unfold sync
  split
  · next hempty =>
    rw [log, List.isEmpty_iff.mp hempty, List.append_nil]
  · rfl

theorem trim_log {w w' : WAL} (h : w.trimToLastCheckpoint = some w') : w'.log = w.log ∧ w'.file = w'.log := by
  unfold trimToLastCheckpoint at h
  split at h
  · cases h
    obtain ⟨hlog, -⟩ := sync_log w true
    exact ⟨hlog, by rw [sync_true_file, hlog]⟩
  · split at h
    · cases h
      exact ⟨List.append_nil _, (List.append_nil _).symm⟩
    · cases h

end Kvdb.WAL
