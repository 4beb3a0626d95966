import Kvdb.Log.Bytes
import Kvdb.Lib.Runs

/-! # What a synced sequence number promises

Writers buffer records and read the sequence number back, the sync worker, `AbortBatch` and `TrimWAL` call
`Sync`, each from its own thread, and the flush worker buffers checkpoints. `Sync` swaps the buffer out
under the lock and writes it outside; the sync worker publishes the sequence number of what it has
persisted, which is what clients are acknowledged by. `TrimWAL` restarts the numbering of the log but not
the published number. -/
namespace Kvdb.SyncRace
set_option autoImplicit false

open Kvdb.Runs Kvdb.WalBytes

/-- A buffered record, with its sequence number and its place among all records ever buffered. -/
structure Ticket where
  record : WalRecord
  num : ℕ
  pos : ℕ
  deriving DecidableEq

inductive Thread where
  | worker
  | aborter
  | trimmer
  deriving DecidableEq

/-- Where a thread stands in its `Sync`, and the trimmer behind it. -/
inductive Stage where
  | idle
  | swapped (ts : List Ticket) (seq : ℕ)
  | wrote (seq : ℕ)
  | marked (seq : ℕ)
  | rewritten
  deriving DecidableEq

/-- The log, `sync_->synced_seq`, the stages of the threads and what has happened: all records buffered
and all records written to the file, in order, the writes that have not read their sequence number yet
and those that have returned one. -/
structure State where
  file : Bytes
  writeBuf : List Ticket
  batchSeq : ℕ
  walSynced : ℕ
  synced : ℕ
  stage : Thread → Stage
  buffered : List Ticket
  written : List Ticket
  pending : List Ticket
  returned : List (ℕ × Ticket)

inductive Action where
  | buffer (key value : Bytes) (timestamp : ℕ)
  | currentBatchSeq (i : ℕ)
  | bufferMarker (r : WalRecord)
  | skip
  | swap (th : Thread)
  | write (th : Thread)
  | mark (th : Thread)
  | store
  | stop
  | trimEmpty
  | rewrite
  | reset

def init : State := ⟨[], [], 0, 0, 0, fun _ => .idle, [], [], [], []⟩

/-- The record takes a sequence number. -/
def numbered : WalRecord → Bool
  | .batchBegin _ => false
  | .abort _ => false
  | _ => true

/-- A record is appended to `write_buf_`, under the lock. -/
def append (s : State) (r : WalRecord) : State × Ticket :=
  let seq := if numbered r then s.batchSeq + 1 else s.batchSeq
  let t : Ticket := ⟨r, seq, s.buffered.length⟩
  ({ s with writeBuf := s.writeBuf ++ [t], batchSeq := seq, buffered := s.buffered ++ [t] }, t)

def State.setStage (s : State) (th : Thread) (st : Stage) : State :=
  { s with stage := Function.update s.stage th st }

/-- What follows the marking of `synced_seq_`: the aborter is done, the worker goes on to publish, the
trimmer to rewrite the file. -/
def afterMark : Thread → ℕ → Stage
  | .aborter, _ => .idle
  | _, seq => .marked seq

def step (s : State) : Action → Option State
  | .buffer key value timestamp =>
    let r := append s (.entry key value timestamp)
    some { r.1 with pending := s.pending ++ [r.2] }
  | .currentBatchSeq i =>
    (s.pending[i]?).map fun t =>
      { s with pending := s.pending.eraseIdx i, returned := s.returned ++ [(s.batchSeq, t)] }
  | .bufferMarker r =>
    match r with
    | .entry _ _ _ => none
    | _ => some (append s r).1
  | .skip =>
    if s.stage .worker = .idle ∧ s.writeBuf ≠ [] ∧
        (encodeAll (s.writeBuf.map Ticket.record)).length < Config.walMinSyncBytes then
      some { s with walSynced := s.batchSeq }
    else none
  | .swap th =>
    if s.stage th = .idle ∧ s.writeBuf ≠ [] then
      some (State.setStage { s with writeBuf := [] } th (.swapped s.writeBuf s.batchSeq))
    else none
  | .write th =>
    match s.stage th with
    | .swapped ts seq =>
      some (State.setStage { s with
        file := s.file ++ encodeAll (ts.map Ticket.record)
        written := s.written ++ ts } th (.wrote seq))
    | _ => none
  | .mark th =>
    match s.stage th with
    | .wrote seq => some (State.setStage { s with walSynced := seq } th (afterMark th seq))
    | _ => none
  | .store =>
    match s.stage .worker with
    | .marked seq => some (State.setStage { s with synced := seq } .worker .idle)
    | _ => none
  | .stop => if s.stage .worker = .idle ∧ s.writeBuf = [] then some { s with synced := s.walSynced } else none
  | .trimEmpty =>
    if s.stage .trimmer = .idle ∧ s.writeBuf = [] then some (s.setStage .trimmer (.marked s.walSynced)) else none
  | .rewrite =>
    match s.stage .trimmer with
    | .marked _ =>
      if s.file = [] then some (s.setStage .trimmer .idle)
      else some (State.setStage { s with file := trimToLastCheckpoint s.file } .trimmer .rewritten)
    | _ => none
  | .reset =>
    match s.stage .trimmer with
    | .rewritten => some (State.setStage { s with batchSeq := 0, walSynced := 0, writeBuf := [] } .trimmer .idle)
    | _ => none

/-! ## The property and its condition -/

/-- A write whose sequence number is covered by `SyncedSequence()` has been written to the file. -/
def Acknowledged (s : State) : Prop := ∀ p ∈ s.returned, p.1 ≤ s.synced → p.2 ∈ s.written

/-- Records were written in the order in which they were buffered, and the file is the end of what was
written. -/
def InOrder (s : State) : Prop :=
  s.written <+: s.buffered ∧ s.file <:+ encodeAll (s.written.map Ticket.record)

/-- The thread has taken records that it has not written yet; the trimmer stays busy until it has
restarted the numbering. -/
def busy (s : State) (th : Thread) : Prop :=
  match th, s.stage th with
  | .trimmer, .idle => False
  | .trimmer, _ => True
  | _, .swapped _ _ => True
  | _, _ => False

def Quiet (s : State) : Prop := ∀ th, ¬ busy s th

/-- The condition on a step: a write is buffered only while the published number is not ahead of the
numbering of the log, a thread takes the buffer, finds it empty or begins to trim only while no other thread
is busy, and the numbering is restarted only while nothing is buffered and no other thread is in its
`Sync`. -/
def Allowed (s : State) : Action → Prop
  | .buffer _ _ _ => s.synced ≤ s.batchSeq
  | .swap _ => Quiet s
  | .stop => Quiet s
  | .trimEmpty => Quiet s
  | .reset => s.writeBuf = [] ∧ s.stage .worker = .idle ∧ s.stage .aborter = .idle
  | _ => True

instance decidableBusy (s : State) (th : Thread) : Decidable (busy s th) := by
  unfold busy
  split <;> infer_instance

instance decidableQuiet (s : State) : Decidable (Quiet s) :=
  decidable_of_iff (¬ busy s .worker ∧ ¬ busy s .aborter ∧ ¬ busy s .trimmer)
    ⟨fun h th => by cases th; exacts [h.1, h.2.1, h.2.2], fun h => ⟨h .worker, h .aborter, h .trimmer⟩⟩

instance decidableAllowed (s : State) (a : Action) : Decidable (Allowed s a) := by
  cases a <;> unfold Allowed <;> infer_instance

/-! ## The invariant -/

/-- The writes that have been buffered. -/
def writes (s : State) : List Ticket := s.pending ++ s.returned.map Prod.snd

/-- The sequence number that a thread carries through its `Sync`. -/
def Stage.seq : Stage → Option ℕ
  | .swapped _ seq => some seq
  | .wrote seq => some seq
  | .marked seq => some seq
  | _ => none

/-- The worker is past its write: the sequence number will be published. -/
def Stage.due : Stage → Option ℕ
  | .wrote seq => some seq
  | .marked seq => some seq
  | _ => none

/-- At most one thread has records that it has not written, `ts`. -/
inductive Flight (stage : Thread → Stage) : List Ticket → Prop
  | none (h : ∀ th ts seq, stage th ≠ .swapped ts seq) : Flight stage []
  | one (th : Thread) (ts : List Ticket) (seq : ℕ) (h : stage th = .swapped ts seq)
      (hother : ∀ th' ts' seq', stage th' = .swapped ts' seq' → th' = th) : Flight stage ts

/-- `flight` has been taken out of the buffer and not been written. -/
structure Inv (flight : List Ticket) (s : State) : Prop where
  taken : Flight s.stage flight
  split : s.buffered = s.written ++ (flight ++ s.writeBuf)
  file : s.file <:+ encodeAll (s.written.map Ticket.record)
  pos : ∀ t ∈ s.buffered, t.pos < s.buffered.length
  known : ∀ t ∈ writes s, t ∈ s.buffered
  pending : ∀ t ∈ s.pending, t ∈ flight ++ s.writeBuf → t.num ≤ s.batchSeq
  returned : ∀ p ∈ s.returned, p.2 ∈ flight ++ s.writeBuf → p.2.num ≤ p.1
  synced : ∀ t ∈ writes s, t ∈ flight ++ s.writeBuf → s.synced < t.num
  due : ∀ q, (s.stage .worker).due = some q → ∀ t ∈ writes s, t ∈ flight ++ s.writeBuf → q < t.num
  behind : ∀ ts q, s.stage .worker = .swapped ts q → ∀ t ∈ writes s, t ∈ s.writeBuf → q < t.num
  seqs : ∀ th q, (s.stage th).seq = some q → q ≤ s.batchSeq
  walSynced : s.walSynced ≤ s.batchSeq

variable {flight : List Ticket} {s t : State}

theorem Inv.acknowledged (h : Inv flight s) : Acknowledged s := by
  intro p hp hle
  have hin := h.known p.2 (List.mem_append_right _ (List.mem_map_of_mem hp))
  rw [h.split, List.mem_append] at hin
  rcases hin with hin | hin
  · exact hin
  · have h1 := h.returned p hp hin
    have h2 := h.synced p.2 (List.mem_append_right _ (List.mem_map_of_mem hp)) hin
    omega

theorem Inv.inOrder (h : Inv flight s) : InOrder s := by
  refine ⟨?_, h.file⟩
  rw [h.split]
  exact List.prefix_append _ _

/-! ## The steps of the writers -/

/-- The new record is none of the writes so far. -/
theorem Inv.old_of_append (h : Inv flight s) {new w : Ticket} (hnew : new.pos = s.buffered.length)
    (hw : w ∈ writes s) (hin : w ∈ flight ++ (s.writeBuf ++ [new])) : w ∈ flight ++ s.writeBuf := by
  rw [← List.append_assoc, List.mem_append] at hin
  rcases hin with hin | hin
  · exact hin
  · rw [List.mem_singleton] at hin
    have hpos := h.pos w (h.known w hw)
    rw [hin, hnew] at hpos
    exact absurd hpos (Nat.lt_irrefl _)

/-- A record is buffered. -/
theorem Inv.append (h : Inv flight s) (r : WalRecord) : Inv flight (SyncRace.append s r).1 := by
  have hseq : s.batchSeq ≤ (SyncRace.append s r).1.batchSeq := by
    show s.batchSeq ≤ if numbered r then s.batchSeq + 1 else s.batchSeq
    split <;> omega
  refine ⟨h.taken, ?_, h.file, ?_, ?_, ?_, ?_, ?_, ?_, ?_, ?_, ?_⟩
  · show s.buffered ++ _ = s.written ++ (flight ++ (s.writeBuf ++ _))
    rw [h.split, List.append_assoc, List.append_assoc]
  · intro w hw
    show w.pos < (s.buffered ++ [_]).length
    rw [List.length_append, List.length_singleton]
    rcases List.mem_append.mp hw with hw | hw
    · exact Nat.lt_succ_of_lt (h.pos w hw)
    · rw [List.mem_singleton.mp hw]
      exact Nat.lt_succ_self _
  · exact fun w hw => List.mem_append_left _ (h.known w hw)
  · intro w hw hin
    exact (h.pending w hw (h.old_of_append rfl (List.mem_append_left _ hw) hin)).trans hseq
  · intro p hp hin
    exact h.returned p hp (h.old_of_append rfl (List.mem_append_right _ (List.mem_map_of_mem hp)) hin)
  · exact fun w hw hin => h.synced w hw (h.old_of_append rfl hw hin)
  · exact fun q hq w hw hin => h.due q hq w hw (h.old_of_append rfl hw hin)
  · intro ts q hq w hw hin
    rcases List.mem_append.mp hin with hin | hin
    · exact h.behind ts q hq w hw hin
    · rw [List.mem_singleton] at hin
      have hpos := h.pos w (h.known w hw)
      rw [hin] at hpos
      exact absurd hpos (Nat.lt_irrefl _)
  · exact fun th q hq => (h.seqs th q hq).trans hseq
  · exact h.walSynced.trans hseq

theorem Inv.buffer (h : Inv flight s) (hle : s.synced ≤ s.batchSeq) (key value : Bytes) (timestamp : ℕ) :
    Inv flight { (SyncRace.append s (.entry key value timestamp)).1 with
      pending := s.pending ++ [(SyncRace.append s (.entry key value timestamp)).2] } := by
  have happ := h.append (.entry key value timestamp)
  have hnum : (SyncRace.append s (.entry key value timestamp)).2.num = s.batchSeq + 1 := rfl
  have hwrites : ∀ w ∈ s.pending ++ [(SyncRace.append s (.entry key value timestamp)).2] ++ s.returned.map Prod.snd,
      w ∈ writes s ∨ w = (SyncRace.append s (.entry key value timestamp)).2 := by
    intro w hw
    rcases List.mem_append.mp hw with hw | hw
    · rcases List.mem_append.mp hw with hw | hw
      · exact .inl (List.mem_append_left _ hw)
      · exact .inr (List.mem_singleton.mp hw)
    · exact .inl (List.mem_append_right _ hw)
  refine ⟨happ.taken, happ.split, happ.file, happ.pos, ?_, ?_, happ.returned, ?_, ?_, ?_, happ.seqs,
    happ.walSynced⟩
  · intro w hw
    rcases hwrites w hw with hw | rfl
    · exact happ.known w hw
    · exact List.mem_append_right _ List.mem_cons_self
  · intro w hw hin
    rcases List.mem_append.mp hw with hw | hw
    · exact happ.pending w hw hin
    · rw [List.mem_singleton.mp hw]
      exact Nat.le_refl _
  · intro w hw hin
    rcases hwrites w hw with hw | rfl
    · exact happ.synced w hw hin
    · rw [hnum]
      exact Nat.lt_succ_of_le hle
  · intro q hq w hw hin
    rcases hwrites w hw with hw | rfl
    · exact happ.due q hq w hw hin
    · rw [hnum]
      refine Nat.lt_succ_of_le (h.seqs .worker q ?_)
      have hq' : (s.stage .worker).due = some q := hq
      cases hstage : s.stage .worker <;> rw [hstage] at hq' <;> first | exact hq' | cases hq'
  · intro ts q hq w hw hin
    rcases hwrites w hw with hw | rfl
    · exact happ.behind ts q hq w hw hin
    · rw [hnum]
      refine Nat.lt_succ_of_le (h.seqs .worker q ?_)
      rw [show s.stage .worker = .swapped ts q from hq]
      rfl

theorem Inv.currentBatchSeq (h : Inv flight s) {i : ℕ} {w : Ticket} (hi : s.pending[i]? = some w) :
    Inv flight { s with pending := s.pending.eraseIdx i, returned := s.returned ++ [(s.batchSeq, w)] } := by
  have hw : w ∈ s.pending := List.mem_of_getElem? hi
  have hwrites : ∀ x ∈ s.pending.eraseIdx i ++ (s.returned ++ [(s.batchSeq, w)]).map Prod.snd, x ∈ writes s := by
    intro x hx
    rw [List.map_append, List.mem_append, List.mem_append] at hx
    rcases hx with hx | hx | hx
    · exact List.mem_append_left _ (List.mem_of_mem_eraseIdx hx)
    · exact List.mem_append_right _ hx
    · rw [List.mem_singleton.mp hx]
      exact List.mem_append_left _ hw
  refine ⟨h.taken, h.split, h.file, h.pos, fun x hx => h.known x (hwrites x hx), ?_, ?_, ?_, ?_, ?_, h.seqs, h.walSynced⟩
  · exact fun x hx => h.pending x (List.mem_of_mem_eraseIdx hx)
  · intro p hp hin
    rcases List.mem_append.mp hp with hp | hp
    · exact h.returned p hp hin
    · rw [List.mem_singleton.mp hp] at hin ⊢
      exact h.pending w hw hin
  · exact fun x hx => h.synced x (hwrites x hx)
  · exact fun q hq x hx => h.due q hq x (hwrites x hx)
  · exact fun ts q hq x hx => h.behind ts q hq x (hwrites x hx)

/-! ## The steps of a `Sync` -/

/-- The thread holds records that it has not written. -/
def Stage.holds (st : Stage) : Prop := ∃ ts seq, st = .swapped ts seq

theorem busy_of_swapped {th : Thread} {ts : List Ticket} {seq : ℕ} (h : s.stage th = .swapped ts seq) :
    busy s th := by
  unfold busy
  rw [h]
  cases th <;> trivial

/-- In a quiet state nothing has been taken out of the buffer without being written. -/
theorem Inv.flight_eq_nil (h : Inv flight s) (hq : Quiet s) : flight = [] := by
  cases h.taken with
  | none _ => rfl
  | one th ts seq hst _ => exact absurd (busy_of_swapped hst) (hq th)

theorem Flight.update {stage : Thread → Stage} (h : Flight stage flight) {th : Thread} {st : Stage}
    (hold : ¬ (stage th).holds) (hnew : ¬ st.holds) : Flight (Function.update stage th st) flight := by
  have hother : ∀ th' ts seq, Function.update stage th st th' = .swapped ts seq → stage th' = .swapped ts seq := by
    intro th' ts seq hst
    by_cases hth : th' = th
    · rw [hth, Function.update_self] at hst
      exact absurd ⟨ts, seq, hst⟩ hnew
    · rwa [Function.update_of_ne hth] at hst
  cases h with
  | none h => exact .none fun th' ts seq hst => h th' ts seq (hother th' ts seq hst)
  | one th' ts seq hst hone =>
    have hth : th' ≠ th := fun heq => hold ⟨flight, seq, heq ▸ hst⟩
    refine .one th' flight seq ?_ fun th'' ts' seq' hst' => hone th'' ts' seq' (hother th'' ts' seq' hst')
    rwa [Function.update_of_ne hth]

/-- A thread moves on without taking or writing records. -/
theorem Inv.setStage (h : Inv flight s) {th : Thread} {st : Stage} (hold : ¬ (s.stage th).holds)
    (hnew : ¬ st.holds) (hdue : th = .worker → ∀ q, st.due = some q → (s.stage .worker).due = some q)
    (hseq : ∀ q, st.seq = some q → q ≤ s.batchSeq) : Inv flight (s.setStage th st) := by
  refine ⟨h.taken.update hold hnew, h.split, h.file, h.pos, h.known, h.pending, h.returned, h.synced, ?_, ?_, ?_,
    h.walSynced⟩
  · intro q hq
    by_cases hth : th = .worker
    · subst hth
      simp only [State.setStage, Function.update_self] at hq
      exact h.due q (hdue rfl q hq)
    · simp only [State.setStage, Function.update_of_ne (Ne.symm hth)] at hq
      exact h.due q hq
  · intro ts q hq
    by_cases hth : th = .worker
    · subst hth
      simp only [State.setStage, Function.update_self] at hq
      exact absurd ⟨ts, q, hq⟩ hnew
    · simp only [State.setStage, Function.update_of_ne (Ne.symm hth)] at hq
      exact h.behind ts q hq
  · intro th' q hq
    by_cases hth : th' = th
    · subst hth
      simp only [State.setStage, Function.update_self] at hq
      exact hseq q hq
    · simp only [State.setStage, Function.update_of_ne hth] at hq
      exact h.seqs th' q hq

/-- A thread takes the buffer. -/
theorem Inv.swap (h : Inv flight s) (hq : Quiet s) (th : Thread) :
    Inv s.writeBuf (State.setStage { s with writeBuf := [] } th (.swapped s.writeBuf s.batchSeq)) := by
  have hnil := h.flight_eq_nil hq
  subst hnil
  have hnot : ∀ th' ts seq, s.stage th' ≠ .swapped ts seq := fun th' ts seq hst => hq th' (busy_of_swapped hst)
  have hbuf : s.writeBuf ++ [] = [] ++ s.writeBuf := by simp
  refine ⟨.one th s.writeBuf s.batchSeq (Function.update_self th _ s.stage) ?_, ?_, h.file, h.pos, h.known, ?_, ?_, ?_,
    ?_, fun _ _ _ _ _ hin => absurd hin List.not_mem_nil, ?_, h.walSynced⟩
  · intro th' ts seq hst
    by_contra hne
    simp only [State.setStage, Function.update_of_ne hne] at hst
    exact hnot th' ts seq hst
  · show s.buffered = s.written ++ (s.writeBuf ++ [])
    rw [hbuf]
    exact h.split
  · intro w hw hin
    exact h.pending w hw (hbuf ▸ hin)
  · intro p hp hin
    exact h.returned p hp (hbuf ▸ hin)
  · intro w hw hin
    exact h.synced w hw (hbuf ▸ hin)
  · intro q hdue w hw hin
    by_cases hth : th = .worker
    · subst hth
      simp only [State.setStage, Function.update_self] at hdue
      cases hdue
    · simp only [State.setStage, Function.update_of_ne (Ne.symm hth)] at hdue
      exact h.due q hdue w hw (hbuf ▸ hin)
  · intro th' q hseq
    by_cases hth : th' = th
    · subst hth
      simp only [State.setStage, Function.update_self, Stage.seq] at hseq
      cases hseq
      exact Nat.le_refl _
    · simp only [State.setStage, Function.update_of_ne hth] at hseq
      exact h.seqs th' q hseq

/-- The thread that has taken records is the only one, and they are the ones not written yet. -/
theorem Inv.flight_eq (h : Inv flight s) {th : Thread} {ts : List Ticket} {seq : ℕ} (hst : s.stage th = .swapped ts seq) :
    flight = ts ∧ ∀ th' ts' seq', s.stage th' = .swapped ts' seq' → th' = th := by
  cases h.taken with
  | none hnone => exact absurd hst (hnone th ts seq)
  | one th₁ ts₁ seq₁ hst₁ hone =>
    have hth := hone th ts seq hst
    subst hth
    rw [hst] at hst₁
    cases hst₁
    exact ⟨rfl, hone⟩

/-- A thread writes what it has taken. -/
theorem Inv.write (h : Inv flight s) {th : Thread} {ts : List Ticket} {seq : ℕ} (hst : s.stage th = .swapped ts seq) :
    Inv [] (State.setStage { s with
      file := s.file ++ encodeAll (ts.map Ticket.record), written := s.written ++ ts } th (.wrote seq)) := by
  obtain ⟨rfl, hone⟩ := h.flight_eq hst
  have hrest : ∀ w : Ticket, w ∈ [] ++ s.writeBuf → w ∈ flight ++ s.writeBuf :=
    fun w hw => List.mem_append_right _ hw
  refine ⟨.none ?_, ?_, ?_, h.pos, h.known, fun w hw hin => h.pending w hw (hrest w hin),
    fun p hp hin => h.returned p hp (hrest _ hin), fun w hw hin => h.synced w hw (hrest w hin), ?_, ?_, ?_, h.walSynced⟩
  · intro th' ts' seq' hst'
    by_cases hth : th' = th
    · subst hth
      simp only [State.setStage, Function.update_self] at hst'
      cases hst'
    · simp only [State.setStage, Function.update_of_ne hth] at hst'
      exact hth (hone th' ts' seq' hst')
  · show s.buffered = s.written ++ flight ++ ([] ++ s.writeBuf)
    rw [h.split, List.nil_append, List.append_assoc]
  · show s.file ++ _ <:+ encodeAll ((s.written ++ flight).map Ticket.record)
    rw [List.map_append, encodeAll_append]
    obtain ⟨gone, hgone⟩ := h.file
    exact ⟨gone, by rw [← hgone, List.append_assoc]⟩
  · intro q hdue w hw hin
    by_cases hth : th = .worker
    · subst hth
      simp only [State.setStage, Function.update_self, Stage.due] at hdue
      cases hdue
      exact h.behind flight seq hst w hw hin
    · simp only [State.setStage, Function.update_of_ne (Ne.symm hth)] at hdue
      exact h.due q hdue w hw (hrest w hin)
  · intro ts' q hst' w hw hin
    by_cases hth : th = .worker
    · subst hth
      simp only [State.setStage, Function.update_self] at hst'
      cases hst'
    · simp only [State.setStage, Function.update_of_ne (Ne.symm hth)] at hst'
      exact absurd (hone _ _ _ hst') (Ne.symm hth)
  · intro th' q hseq
    by_cases hth : th' = th
    · subst hth
      simp only [State.setStage, Function.update_self, Stage.seq] at hseq
      cases hseq
      exact h.seqs th' seq (by rw [hst]; rfl)
    · simp only [State.setStage, Function.update_of_ne hth] at hseq
      exact h.seqs th' q hseq

/-- The worker publishes the number of what it has written. -/
theorem Inv.store (h : Inv flight s) {seq : ℕ} (hst : s.stage .worker = .marked seq) :
    Inv flight (State.setStage { s with synced := seq } .worker .idle) := by
  have hidle : Inv flight (s.setStage .worker .idle) := h.setStage (by rw [hst]; rintro ⟨_, _, h⟩; cases h)
    (by rintro ⟨_, _, h⟩; cases h) (fun _ _ hdue => by cases hdue) fun _ hseq => by cases hseq
  have hdue := h.due seq (by rw [hst]; rfl)
  exact { hidle with synced := hdue }

/-- A thread marks what it has written. -/
theorem Inv.mark (h : Inv flight s) {th : Thread} {seq : ℕ} (hst : s.stage th = .wrote seq) :
    Inv flight (State.setStage { s with walSynced := seq } th (afterMark th seq)) := by
  have hle : seq ≤ s.batchSeq := h.seqs th seq (by rw [hst]; rfl)
  have hnext : Inv flight (s.setStage th (afterMark th seq)) := h.setStage (by rw [hst]; rintro ⟨_, _, h⟩; cases h)
    (by cases th <;> (rintro ⟨_, _, h⟩; cases h)) ?_ ?_
  · exact { hnext with walSynced := hle }
  · rintro rfl q hdue
    rw [hst]
    exact hdue
  · intro q hq
    cases th with
    | aborter => cases hq
    | worker =>
      cases hq
      exact hle
    | trimmer =>
      cases hq
      exact hle

/-- Nothing is buffered and nothing is under way, so every record has been written. -/
theorem Inv.stop (h : Inv flight s) (hq : Quiet s) (hbuf : s.writeBuf = []) :
    Inv flight { s with synced := s.walSynced } := by
  refine { h with synced := ?_ }
  intro w _ hin
  simp only [h.flight_eq_nil hq, hbuf, List.append_nil] at hin
  cases hin

/-! ## The steps of the trimmer -/

theorem Inv.trimEmpty (h : Inv flight s) (hst : s.stage .trimmer = .idle) :
    Inv flight (s.setStage .trimmer (.marked s.walSynced)) := by
  refine h.setStage (by rw [hst]; rintro ⟨_, _, h⟩; cases h) (by rintro ⟨_, _, h⟩; cases h) (fun h => by cases h) ?_
  intro q hq
  cases hq
  exact h.walSynced

theorem Inv.rewrite (h : Inv flight s) {seq : ℕ} (hst : s.stage .trimmer = .marked seq) :
    Inv flight (State.setStage { s with file := trimToLastCheckpoint s.file } .trimmer .rewritten) := by
  have hnext : Inv flight (s.setStage .trimmer .rewritten) := h.setStage (by rw [hst]; rintro ⟨_, _, h⟩; cases h)
    (by rintro ⟨_, _, h⟩; cases h) (fun h => by cases h) fun _ hseq => by cases hseq
  exact { hnext with file := (trimToLastCheckpoint_suffix s.file).trans h.file }

/-- The numbering restarts: everything has been written, so no write is left that the published number
could cover by mistake. -/
theorem Inv.reset (h : Inv flight s) (hst : s.stage .trimmer = .rewritten) (hbuf : s.writeBuf = [])
    (hworker : s.stage .worker = .idle) (haborter : s.stage .aborter = .idle) :
    Inv [] (State.setStage { s with batchSeq := 0, walSynced := 0, writeBuf := [] } .trimmer .idle) := by
  have hidle : ∀ th, Function.update s.stage .trimmer .idle th = .idle := by
    intro th
    cases th with
    | worker => exact hworker
    | aborter => exact haborter
    | trimmer => rfl
  have hnil : flight = [] := by
    cases h.taken with
    | none _ => rfl
    | one th ts seq hth _ => cases th <;> simp_all
  refine ⟨.none ?_, ?_, h.file, h.pos, h.known, fun _ _ hin => (by cases hin), fun _ _ hin => (by cases hin),
    fun _ _ hin => (by cases hin), fun _ _ _ _ hin => (by cases hin), fun _ _ _ _ _ hin => (by cases hin), ?_, Nat.le_refl _⟩
  · intro th ts seq hth
    simp only [State.setStage, hidle th] at hth
    cases hth
  · show s.buffered = s.written ++ ([] ++ [])
    rw [h.split, hnil, hbuf]
  · intro th q hq
    simp only [State.setStage, hidle th] at hq
    cases hq

/-! ## Runs -/

theorem init_inv : Inv [] init :=
  ⟨.none (fun _ _ _ h => (by cases h)), rfl, List.suffix_refl _, fun _ h => (by cases h), fun _ h => (by cases h),
    fun _ h => (by cases h), fun _ h => (by cases h), fun _ h => (by cases h), fun _ h => (by cases h), fun _ _ h => (by cases h),
    fun _ _ h => (by cases h), Nat.le_refl _⟩

theorem step_inv {a : Action} (hok : Allowed s a) (hstep : step s a = some t) (h : Inv flight s) :
    ∃ flight', Inv flight' t := by
  cases a with
  | buffer key value timestamp =>
    cases hstep
    exact ⟨flight, h.buffer hok key value timestamp⟩
  | currentBatchSeq i =>
    obtain ⟨w, hw, rfl⟩ := Option.map_eq_some_iff.mp hstep
    exact ⟨flight, h.currentBatchSeq hw⟩
  | bufferMarker r =>
    cases r <;> cases hstep <;> exact ⟨flight, h.append _⟩
  | skip =>
    simp only [step] at hstep
    split at hstep
    · cases hstep
      exact ⟨flight, { h with walSynced := Nat.le_refl _ }⟩
    · cases hstep
  | swap th =>
    simp only [step] at hstep
    split at hstep
    · cases hstep
      exact ⟨s.writeBuf, h.swap hok th⟩
    · cases hstep
  | write th =>
    simp only [step] at hstep
    split at hstep
    · next ts seq hst =>
      cases hstep
      exact ⟨[], h.write hst⟩
    · cases hstep
  | mark th =>
    simp only [step] at hstep
    split at hstep
    · next seq hst =>
      cases hstep
      exact ⟨flight, h.mark hst⟩
    · cases hstep
  | store =>
    simp only [step] at hstep
    split at hstep
    · next seq hst =>
      cases hstep
      exact ⟨flight, h.store hst⟩
    · cases hstep
  | stop =>
    simp only [step] at hstep
    split at hstep
    · next hidle =>
      cases hstep
      exact ⟨flight, h.stop hok hidle.2⟩
    · cases hstep
  | trimEmpty =>
    simp only [step] at hstep
    split at hstep
    · next hidle =>
      cases hstep
      exact ⟨flight, h.trimEmpty hidle.1⟩
    · cases hstep
  | rewrite =>
    simp only [step] at hstep
    split at hstep
    · next seq hst =>
      split at hstep
      · cases hstep
        exact ⟨flight, h.setStage (by rw [hst]; rintro ⟨_, _, h⟩; cases h) (by rintro ⟨_, _, h⟩; cases h)
          (fun h => (by cases h)) fun _ hseq => (by cases hseq)⟩
      · cases hstep
        exact ⟨flight, h.rewrite hst⟩
    · cases hstep
  | reset =>
    simp only [step] at hstep
    split at hstep
    · next hst =>
      cases hstep
      exact ⟨[], h.reset hst hok.1 hok.2.1 hok.2.2⟩
    · cases hstep

/-- In every run whose steps meet the condition, a write whose number is covered by the published one is in
the log, and the log has the records in the order in which they were buffered. -/
theorem synced_writes_in_file {acts : List Action} (h : Run step Allowed init acts s) :
    Acknowledged s ∧ InOrder s := by
  have hinv : ∃ flight, Inv flight s :=
    h.invariant (I := fun s => ∃ flight, Inv flight s)
      (fun _ _ _ hok hstep ⟨_, hinv⟩ => step_inv hok hstep hinv) ⟨[], init_inv⟩
  obtain ⟨flight, hinv⟩ := hinv
  exact ⟨hinv.acknowledged, hinv.inOrder⟩

/-- Two writes synced one after the other, with a checkpoint and a trim of the log in between, and a third
write under the restarted numbering. -/
def syncedRun : List Action :=
  [.trimEmpty, .rewrite, .buffer [1] [2] 1, .currentBatchSeq 0, .swap .worker, .write .worker, .mark .worker, .store,
    .buffer [3] [4] 2, .bufferMarker (.checkpoint 2 0), .currentBatchSeq 0, .swap .trimmer, .write .trimmer,
    .mark .trimmer, .rewrite, .reset, .bufferMarker (.batchBegin 9), .bufferMarker (.batchCommit 9),
    .buffer [5] [6] 3, .currentBatchSeq 0, .swap .worker, .write .worker, .mark .worker, .store]

theorem synced_writes_syncedRun :
    ∃ s, Run step Allowed init syncedRun s ∧ s.returned.length = 3 ∧ s.synced = 2 ∧ Acknowledged s ∧ InOrder s := by
  have hend : ∃ s, Run step Allowed init syncedRun s ∧ s.returned.length = 3 ∧ s.synced = 2 :=
    Run.exists_of_checked (by decide)
  obtain ⟨s, hrun, hreturned, hsynced⟩ := hend
  exact ⟨s, hrun, hreturned, hsynced, synced_writes_in_file hrun⟩

/-- `AbortBatch` has taken the records of the batch and not written them when the worker takes, writes and
publishes the one of a normal write that got its timestamp before. -/
def abortRace : List Action :=
  [.bufferMarker (.batchBegin 2), .buffer [1] [2] 2, .currentBatchSeq 0, .bufferMarker (.abort 2), .swap .aborter,
    .buffer [3] [4] 1, .currentBatchSeq 0, .swap .worker, .write .worker, .mark .worker, .store]

/-- `TrimWAL` restarts the numbering below the published number. -/
def trimRace : List Action :=
  [.buffer [1] [2] 1, .currentBatchSeq 0, .swap .worker, .write .worker, .mark .worker, .store, .trimEmpty, .rewrite,
    .reset, .buffer [3] [4] 2, .currentBatchSeq 0]

instance decidableAcknowledged (s : State) : Decidable (Acknowledged s) :=
  inferInstanceAs (Decidable (∀ p ∈ s.returned, p.1 ≤ s.synced → p.2 ∈ s.written))

instance decidableInOrder (s : State) : Decidable (InOrder s) :=
  inferInstanceAs (Decidable (s.written <+: s.buffered ∧ s.file <:+ encodeAll (s.written.map Ticket.record)))

theorem unwritten_record_acknowledged :
    (∃ s, Run step anyStep init abortRace s ∧ ¬ Acknowledged s ∧ ¬ InOrder s) ∧
      ∃ s, Run step anyStep init trimRace s ∧ ¬ Acknowledged s :=
  ⟨Run.exists_of_checked (by decide), Run.exists_of_checked (by decide)⟩

end Kvdb.SyncRace
