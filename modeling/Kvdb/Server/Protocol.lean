import Kvdb.Engine.RangeIterator
import Kvdb.Lib.LittleEndian
import Kvdb.Lib.Scan
import Mathlib.Data.Nat.Digits.Lemmas

/-! # The wire protocol (`protocol.cpp`, `client.cpp`, `HandleClient`)

A request is one byte for its kind and its fields, a response one byte and what belongs to it. Strings go with a 32-bit
length. The client and the server each write and read their side by hand: `encode` and `receive` are the client's,
`recvRequest` and `respond` the server's. -/
namespace Kvdb.Protocol
set_option autoImplicit false

open LittleEndian Scan

/-- The bytes of a text of the source. -/
def text (s : String) : Bytes := s.toList.map fun c => UInt8.ofNat c.toNat

def okResp : UInt8 := 0x4F
def valueResp : UInt8 := 0x56
def notFoundResp : UInt8 := 0x4E
def errorResp : UInt8 := 0x45
def endResp : UInt8 := 0x45

/-! ## Words and strings -/

/-- `SendUint32`. -/
def sendUint32 (v : ℕ) : Bytes := leBytes 4 v

def recvUint32 (bs : Bytes) : Option (ℕ × Bytes) := (readN 4 bs).map fun w => (ofLe w.1, w.2)

/-- `SendString`: the size is cast to 32 bits. -/
def sendString (s : Bytes) : Bytes := sendUint32 s.length ++ s

def recvString (bs : Bytes) : Option (Bytes × Bytes) := (recvUint32 bs).bind fun n => readN n.1 n.2

def recvByte : Bytes → Option (UInt8 × Bytes)
  | [] => none
  | b :: bs => some (b, bs)

/-- `SendRangeBound`: a bound with an empty key is unbounded. -/
def sendRangeBound : RangeBound → Bytes
  | .unbounded => [0]
  | .inclusive key => if key = [] then [0] else 1 :: sendString key
  | .exclusive key => if key = [] then [0] else 2 :: sendString key

def recvRangeBound (bs : Bytes) : Option (RangeBound × Bytes) :=
  (recvByte bs).bind fun flag =>
    if flag.1 = 0 then some (.unbounded, flag.2)
    else (recvString flag.2).map fun key => (if flag.1 = 1 then .inclusive key.1 else .exclusive key.1, key.2)

/-- `static_cast<uint32_t>` of an `int`. -/
def intWord (n : ℤ) : ℕ := (BitVec.ofInt 32 n).toNat

/-- `static_cast<int>` of a `uint32_t`. -/
def wordInt (word : ℕ) : ℤ := (BitVec.ofNat 32 word).toInt

theorem recvUint32_send {v : ℕ} (h : v < 2 ^ 32) (rest : Bytes) : recvUint32 (sendUint32 v ++ rest) = some (v, rest) := by
  have hfit : v < 256 ^ 4 := h
  rw [recvUint32, sendUint32, readN_append_of_length (length_leBytes 4 v), Option.map_some, ofLe_leBytes hfit]

theorem recvString_send {s : Bytes} (h : s.length < 2 ^ 32) (rest : Bytes) :
    recvString (sendString s ++ rest) = some (s, rest) := by
  rw [recvString, sendString, List.append_assoc, recvUint32_send h, Option.bind_some, readN_append]

/-! ## Requests -/

/-- The requests of a client, one for each kind. -/
inductive Request where
  | write (key value : Bytes)
  | read (key : Bytes)
  | delete (key : Bytes)
  | rangeScan (lower upper : RangeBound)
  | prefixScan (start : Bytes)
  | batchBegin
  | batchWrite (key value : Bytes)
  | batchCommit
  | batchAbort
  | compareAndSwap (key expected desired : Bytes)
  | asyncWrite (key value : Bytes)
  | asyncDelete (key : Bytes)
  | levelCounts
  | manualCompact (minSstables fromLevel : ℤ) (cascade : Bool)
  deriving DecidableEq

/-- What the methods of `Client` send. -/
def encode : Request → Bytes
  | .write key value => 0x57 :: (sendString key ++ sendString value)
  | .read key => 0x52 :: sendString key
  | .delete key => 0x44 :: sendString key
  | .rangeScan lower upper => 0x53 :: (sendRangeBound lower ++ sendRangeBound upper)
  | .prefixScan start => 0x50 :: sendString start
  | .batchBegin => [0x42]
  | .batchWrite key value => 0x62 :: (sendString key ++ sendString value)
  | .batchCommit => [0x43]
  | .batchAbort => [0x41]
  | .compareAndSwap key expected desired => 0x5A :: (sendString key ++ (sendString expected ++ sendString desired))
  | .asyncWrite key value => 0x77 :: (sendString key ++ sendString value)
  | .asyncDelete key => 0x64 :: sendString key
  | .levelCounts => [0x4C]
  | .manualCompact minSstables fromLevel cascade =>
    0x4D :: (sendUint32 (intWord minSstables) ++ (sendUint32 (intWord fromLevel) ++ [if cascade then 1 else 0]))

/-- The fields of a request, read by `HandleClient` behind its first byte. -/
def recvFields (kind : UInt8) (bs : Bytes) : Option (Request × Bytes) :=
  if kind = 0x57 then
    (recvString bs).bind fun key => (recvString key.2).map fun value => (.write key.1 value.1, value.2)
  else if kind = 0x52 then (recvString bs).map fun key => (.read key.1, key.2)
  else if kind = 0x44 then (recvString bs).map fun key => (.delete key.1, key.2)
  else if kind = 0x77 then
    (recvString bs).bind fun key => (recvString key.2).map fun value => (.asyncWrite key.1 value.1, value.2)
  else if kind = 0x64 then (recvString bs).map fun key => (.asyncDelete key.1, key.2)
  else if kind = 0x62 then
    (recvString bs).bind fun key => (recvString key.2).map fun value => (.batchWrite key.1 value.1, value.2)
  else if kind = 0x42 then some (.batchBegin, bs)
  else if kind = 0x43 then some (.batchCommit, bs)
  else if kind = 0x41 then some (.batchAbort, bs)
  else if kind = 0x5A then
    (recvString bs).bind fun key => (recvString key.2).bind fun expected => (recvString expected.2).map fun desired =>
      (.compareAndSwap key.1 expected.1 desired.1, desired.2)
  else if kind = 0x53 then
    (recvRangeBound bs).bind fun lower => (recvRangeBound lower.2).map fun upper => (.rangeScan lower.1 upper.1, upper.2)
  else if kind = 0x50 then (recvString bs).map fun start => (.prefixScan start.1, start.2)
  else if kind = 0x4C then some (.levelCounts, bs)
  else if kind = 0x4D then
    (recvUint32 bs).bind fun minSst => (recvUint32 minSst.2).bind fun fromLv => (recvByte fromLv.2).map fun cascade =>
      (.manualCompact (wordInt minSst.1) (wordInt fromLv.1) (cascade.1 != 0), cascade.2)
  else none

def recvRequest (bs : Bytes) : Option (Request × Bytes) := (recvByte bs).bind fun kind => recvFields kind.1 kind.2

/-! ### The server reads what the client sends -/

def BoundFits : RangeBound → Prop
  | .unbounded => True
  | .inclusive key => key ≠ [] ∧ key.length < 2 ^ 32
  | .exclusive key => key ≠ [] ∧ key.length < 2 ^ 32

/-- The strings fit their length words, the numbers are of type `int`, and a bound with a key has a non-empty one. -/
def Request.Fits : Request → Prop
  | .write key value => key.length < 2 ^ 32 ∧ value.length < 2 ^ 32
  | .read key => key.length < 2 ^ 32
  | .delete key => key.length < 2 ^ 32
  | .rangeScan lower upper => BoundFits lower ∧ BoundFits upper
  | .prefixScan start => start.length < 2 ^ 32
  | .batchBegin => True
  | .batchWrite key value => key.length < 2 ^ 32 ∧ value.length < 2 ^ 32
  | .batchCommit => True
  | .batchAbort => True
  | .compareAndSwap key expected desired => key.length < 2 ^ 32 ∧ expected.length < 2 ^ 32 ∧ desired.length < 2 ^ 32
  | .asyncWrite key value => key.length < 2 ^ 32 ∧ value.length < 2 ^ 32
  | .asyncDelete key => key.length < 2 ^ 32
  | .levelCounts => True
  | .manualCompact minSstables fromLevel _ =>
    (-2 ^ 31 ≤ minSstables ∧ minSstables < 2 ^ 31) ∧ -2 ^ 31 ≤ fromLevel ∧ fromLevel < 2 ^ 31

theorem wordInt_intWord {n : ℤ} (h : -2 ^ 31 ≤ n ∧ n < 2 ^ 31) : wordInt (intWord n) = n := by
  rw [wordInt, intWord, BitVec.ofNat_toNat, BitVec.setWidth_eq, BitVec.toInt_ofInt]
  apply Int.bmod_eq_of_le
  · omega
  · omega

theorem intWord_lt (n : ℤ) : intWord n < 2 ^ 32 := (BitVec.ofInt 32 n).isLt

theorem recvRangeBound_send {bound : RangeBound} (h : BoundFits bound) (rest : Bytes) :
    recvRangeBound (sendRangeBound bound ++ rest) = some (bound, rest) := by
  cases bound with
  | unbounded => rfl
  | inclusive key =>
    simp only [sendRangeBound, if_neg h.1, List.cons_append, recvRangeBound, recvByte, Option.bind_some,
      recvString_send h.2, Option.map_some]
    rfl
  | exclusive key =>
    simp only [sendRangeBound, if_neg h.1, List.cons_append, recvRangeBound, recvByte, Option.bind_some,
      recvString_send h.2, Option.map_some]
    rfl

/-- `HandleClient` reads back the request that the client has sent, whatever follows it. -/
theorem recvRequest_encode {req : Request} (h : req.Fits) (rest : Bytes) :
    recvRequest (encode req ++ rest) = some (req, rest) := by
  cases req with
  | write key value =>
    simp [encode, recvRequest, recvByte, recvFields, recvString_send h.1, recvString_send h.2]
  | read key =>
    have hkey : key.length < 2 ^ 32 := h
    simp [encode, recvRequest, recvByte, recvFields, recvString_send hkey]
  | delete key =>
    have hkey : key.length < 2 ^ 32 := h
    simp [encode, recvRequest, recvByte, recvFields, recvString_send hkey]
  | rangeScan lower upper =>
    simp [encode, recvRequest, recvByte, recvFields, recvRangeBound_send h.1, recvRangeBound_send h.2]
  | prefixScan start =>
    have hstart : start.length < 2 ^ 32 := h
    simp [encode, recvRequest, recvByte, recvFields, recvString_send hstart]
  | batchBegin => rfl
  | batchWrite key value =>
    simp [encode, recvRequest, recvByte, recvFields, recvString_send h.1, recvString_send h.2]
  | batchCommit => rfl
  | batchAbort => rfl
  | compareAndSwap key expected desired =>
    simp [encode, recvRequest, recvByte, recvFields, recvString_send h.1, recvString_send h.2.1, recvString_send h.2.2]
  | asyncWrite key value =>
    simp [encode, recvRequest, recvByte, recvFields, recvString_send h.1, recvString_send h.2]
  | asyncDelete key =>
    have hkey : key.length < 2 ^ 32 := h
    simp [encode, recvRequest, recvByte, recvFields, recvString_send hkey]
  | levelCounts => rfl
  | manualCompact minSstables fromLevel cascade =>
    cases cascade <;>
      simp [encode, recvRequest, recvByte, recvFields, recvUint32_send (intWord_lt _), wordInt_intWord h.1,
        wordInt_intWord h.2]

/-! ## Responses -/

/-- What the engine and the writer have found out for a request. The limits are those of the engine: on a stored pair,
on the number of levels and on what `ManualCompact` returns. -/
structure Result where
  ok : Bool
  found : Option Bytes
  entries : List (Bytes × Bytes)
  counts : List ℕ
  compacted : ℕ
  foundFits : ∀ v ∈ found, v.length ≤ Config.maxKeyValuePairBytes
  entriesFit : ∀ p ∈ entries, p.1.length ≤ Config.maxKeyValuePairBytes ∧ p.2.length ≤ Config.maxKeyValuePairBytes
  countsFit : counts.length = Config.maxLevel + 1 ∧ ∀ n ∈ counts, n < 2 ^ 64
  compactedFits : compacted ≤ Config.maxLevel + 1

/-- `std::to_string`. -/
def decimal (n : ℕ) : Bytes :=
  if n = 0 then [0x30] else (Nat.digits 10 n).reverse.map fun d => UInt8.ofNat (0x30 + d)

/-- The counts with commas between them. -/
def encodeCounts : List ℕ → Bytes
  | [] => []
  | [n] => decimal n
  | n :: ns => decimal n ++ 0x2C :: encodeCounts ns

def sendEntries (entries : List (Bytes × Bytes)) : Bytes :=
  (entries.flatMap fun p => valueResp :: (sendString p.1 ++ sendString p.2)) ++ [endResp]

def okOr (ok : Bool) (what : Bytes) : Bytes := if ok then [okResp] else errorResp :: what

/-- What `HandleClient` sends for a request. -/
def respond : Request → Result → Bytes
  | .write _ _, r => okOr r.ok (sendString (text "write failed"))
  | .read _, r =>
    match r.found with
    | some v => valueResp :: sendString v
    | none => [notFoundResp]
  | .delete _, r => okOr r.ok (sendString (text "delete failed"))
  | .rangeScan _ _, r => sendEntries r.entries
  | .prefixScan _, r => sendEntries r.entries
  | .batchBegin, r => okOr r.ok (sendString (text "batch already in progress"))
  | .batchWrite _ _, _ => [okResp]
  | .batchCommit, _ => [okResp]
  | .batchAbort, _ => [okResp]
  | .compareAndSwap _ _ _, r => okOr r.ok []
  | .asyncWrite _ _, _ => [okResp]
  | .asyncDelete _, _ => [okResp]
  | .levelCounts, r => valueResp :: sendString (encodeCounts r.counts)
  | .manualCompact _ _ _, r => valueResp :: sendString (decimal r.compacted)

/-- What a method of `Client` makes of a response: a flag, a value, the pairs of a scan, or a text that it parses. -/
inductive Reply where
  | flag (ok : Bool)
  | value (v : Option Bytes)
  | entries (ended : Bool) (pairs : List (Bytes × Bytes))
  | parsed (enc : Option Bytes)
  deriving DecidableEq

/-- The reply to a result. -/
def reply : Request → Result → Reply
  | .write _ _, r => .flag r.ok
  | .read _, r => .value r.found
  | .delete _, r => .flag r.ok
  | .rangeScan _ _, r => .entries true r.entries
  | .prefixScan _, r => .entries true r.entries
  | .batchBegin, r => .flag r.ok
  | .batchWrite _ _, _ => .flag true
  | .batchCommit, _ => .flag true
  | .batchAbort, _ => .flag true
  | .compareAndSwap _ _ _, r => .flag r.ok
  | .asyncWrite _ _, _ => .flag true
  | .asyncDelete _, _ => .flag true
  | .levelCounts, r => .parsed (some (encodeCounts r.counts))
  | .manualCompact _ _ _, r => .parsed (some (decimal r.compacted))

/-- `resp == kOkResp`. -/
def recvFlag (bs : Bytes) : Option (Reply × Bytes) := (recvByte bs).map fun b => (.flag (b.1 == okResp), b.2)

/-- `Write` and `Delete` read the message of an error. -/
def recvFlagMessage (bs : Bytes) : Option (Reply × Bytes) :=
  (recvByte bs).bind fun b =>
    if b.1 = okResp then some (.flag true, b.2)
    else if b.1 = errorResp then (recvString b.2).map fun msg => (.flag false, msg.2)
    else some (.flag false, b.2)

/-- The loop of `RangeScan` and `PrefixScan`. -/
def recvEntries : ℕ → Bytes → Option ((Bool × List (Bytes × Bytes)) × Bytes)
  | 0, _ => none
  | fuel + 1, bs =>
    (recvByte bs).bind fun b =>
      if b.1 = endResp then some ((true, []), b.2)
      else if b.1 = valueResp then
        (recvString b.2).bind fun key => (recvString key.2).bind fun value =>
          (recvEntries fuel value.2).map fun r => ((r.1.1, (key.1, value.1) :: r.1.2), r.2)
      else some ((false, []), b.2)

def recvScan (bs : Bytes) : Option (Reply × Bytes) :=
  (recvEntries (bs.length + 1) bs).map fun r => (.entries r.1.1 r.1.2, r.2)

/-- `LevelCounts` and `ManualCompact` up to the parsing of the text. -/
def recvParsed (bs : Bytes) : Option (Reply × Bytes) :=
  (recvByte bs).bind fun b =>
    if b.1 = valueResp then (recvString b.2).map fun enc => (.parsed (some enc.1), enc.2)
    else some (.parsed none, b.2)

/-- What the method of `Client` for a request reads; `none` while it waits for more bytes. -/
def receive : Request → Bytes → Option (Reply × Bytes)
  | .write _ _, bs => recvFlagMessage bs
  | .read _, bs =>
    (recvByte bs).bind fun b =>
      if b.1 = valueResp then (recvString b.2).map fun v => (.value (some v.1), v.2) else some (.value none, b.2)
  | .delete _, bs => recvFlagMessage bs
  | .rangeScan _ _, bs => recvScan bs
  | .prefixScan _, bs => recvScan bs
  | .batchBegin, bs => recvFlag bs
  | .batchWrite _ _, bs => recvFlag bs
  | .batchCommit, bs => recvFlag bs
  | .batchAbort, bs => recvFlag bs
  | .compareAndSwap _ _ _, bs => recvFlag bs
  | .asyncWrite _ _, bs => recvFlag bs
  | .asyncDelete _, bs => recvFlag bs
  | .levelCounts, bs => recvParsed bs
  | .manualCompact _ _ _, bs => recvParsed bs

/-! ## A connection -/

/-- The bytes that are left on the connection after the calls; `none` when a call waits for ever. -/
def unread (calls : List (Request × Result)) : Option Bytes :=
  calls.foldl (fun left c => left.bind fun bs => (receive c.1 (bs ++ respond c.1 c.2)).map Prod.snd) (some [])

/-- Every call reads its own response and nothing else. -/
def Aligned (calls : List (Request × Result)) : Prop :=
  ∀ before req res after, calls = before ++ (req, res) :: after →
    unread before = some [] ∧ receive req (respond req res) = some (reply req res, [])

/-! ## Lengths -/

theorem length_decimal {n k : ℕ} (hk : 0 < k) (h : n < 10 ^ k) : (decimal n).length ≤ k := by
  unfold decimal
  split
  · exact hk
  · rw [List.length_map, List.length_reverse]
    exact (Nat.digits_length_le_iff (by decide) n).mpr h

theorem length_encodeCounts {ns : List ℕ} (h : ∀ n ∈ ns, n < 2 ^ 64) : (encodeCounts ns).length ≤ 21 * ns.length := by
  induction ns with
  | nil => exact Nat.le_refl 0
  | cons n ns ih =>
    have hn : (decimal n).length ≤ 20 :=
      length_decimal (by decide) (Nat.lt_trans (h n List.mem_cons_self) (by decide))
    have hrest := ih fun m hm => h m (List.mem_cons_of_mem n hm)
    cases ns with
    | nil =>
      rw [encodeCounts, List.length_singleton]
      omega
    | cons m ms =>
      simp only [encodeCounts, List.length_append, List.length_cons] at hrest ⊢
      omega

/-- A string of the engine fits its length word. -/
theorem fits_of_le {s : Bytes} (h : s.length ≤ Config.maxKeyValuePairBytes) : s.length < 2 ^ 32 :=
  Nat.lt_of_le_of_lt h (by decide)

/-! ## One call -/

theorem recvEntries_send (entries : List (Bytes × Bytes))
    (h : ∀ p ∈ entries, p.1.length < 2 ^ 32 ∧ p.2.length < 2 ^ 32) (fuel : ℕ) (hfuel : entries.length < fuel) :
    recvEntries fuel (sendEntries entries) = some ((true, entries), []) := by
  induction entries generalizing fuel with
  | nil =>
    cases fuel with
    | zero => cases hfuel
    | succ fuel => rfl
  | cons p entries ih =>
    cases fuel with
    | zero => cases hfuel
    | succ fuel =>
      obtain ⟨hkey, hvalue⟩ := h p List.mem_cons_self
      have hrest := ih (fun q hq => h q (List.mem_cons_of_mem p hq)) fuel (Nat.lt_of_succ_lt_succ hfuel)
      have hsent : sendEntries (p :: entries) =
          valueResp :: (sendString p.1 ++ (sendString p.2 ++ sendEntries entries)) := by
        rw [sendEntries, List.flatMap_cons, sendEntries]
        simp only [List.cons_append, List.append_assoc]
      rw [hsent, recvEntries, recvByte, Option.bind_some]
      simp only [show valueResp ≠ endResp by decide, if_false, if_true, recvString_send hkey, recvString_send hvalue,
        Option.bind_some, hrest, Option.map_some]

theorem length_sendEntries (entries : List (Bytes × Bytes)) : entries.length < (sendEntries entries).length + 1 := by
  induction entries with
  | nil => exact Nat.succ_pos _
  | cons p entries ih =>
    rw [sendEntries, List.flatMap_cons, List.append_assoc, List.length_append, List.length_cons, List.length_cons]
    rw [sendEntries] at ih
    omega

theorem recvScan_send {res : Result} : recvScan (sendEntries res.entries) = some (.entries true res.entries, []) := by
  rw [recvScan, recvEntries_send res.entries _ _ (length_sendEntries res.entries), Option.map_some]
  exact fun p hp => ⟨fits_of_le (res.entriesFit p hp).1, fits_of_le (res.entriesFit p hp).2⟩

theorem recvFlagMessage_send (ok : Bool) {what : Bytes} (h : what.length < 2 ^ 32) :
    recvFlagMessage (okOr ok (sendString what)) = some (.flag ok, []) := by
  cases ok with
  | true => rfl
  | false =>
    have hmessage := recvString_send h []
    rw [List.append_nil] at hmessage
    simp only [recvFlagMessage, okOr, Bool.false_eq_true, if_false, recvByte, Option.bind_some,
      show errorResp ≠ okResp by decide, if_true, hmessage, Option.map_some]

theorem recvParsed_send {enc : Bytes} (h : enc.length < 2 ^ 32) :
    recvParsed (valueResp :: sendString enc) = some (.parsed (some enc), []) := by
  have htext := recvString_send h []
  rw [List.append_nil] at htext
  simp only [recvParsed, recvByte, Option.bind_some, if_true, htext, Option.map_some]

/-- The client reads exactly the response, except for a refused `StartBatch`. -/
theorem receive_respond (req : Request) (res : Result) (h : req = .batchBegin → res.ok = true) :
    receive req (respond req res) = some (reply req res, []) := by
  cases req with
  | write key value => exact recvFlagMessage_send res.ok (by decide)
  | read key =>
    cases hfound : res.found with
    | none => simp only [receive, respond, reply, hfound, recvByte, Option.bind_some, show notFoundResp ≠ valueResp by decide,
        if_false]
    | some v =>
      have hvalue := recvString_send (fits_of_le (res.foundFits v hfound)) []
      rw [List.append_nil] at hvalue
      simp only [receive, respond, reply, hfound, recvByte, Option.bind_some, if_true, hvalue, Option.map_some]
  | delete key => exact recvFlagMessage_send res.ok (by decide)
  | rangeScan lower upper => exact recvScan_send
  | prefixScan start => exact recvScan_send
  | batchBegin =>
    simp only [receive, respond, reply, h rfl]
    rfl
  | batchWrite key value => rfl
  | batchCommit => rfl
  | batchAbort => rfl
  | compareAndSwap key expected desired =>
    simp only [receive, respond, reply]
    cases res.ok with
    | true => rfl
    | false => rfl
  | asyncWrite key value => rfl
  | asyncDelete key => rfl
  | levelCounts =>
    have hlength := length_encodeCounts res.countsFit.2
    rw [res.countsFit.1] at hlength
    exact recvParsed_send (Nat.lt_of_le_of_lt hlength (by decide))
  | manualCompact minSstables fromLevel cascade =>
    have hsmall : res.compacted < 10 ^ 2 := Nat.lt_of_le_of_lt res.compactedFits (by decide)
    exact recvParsed_send (Nat.lt_of_le_of_lt (length_decimal (by decide) hsmall) (by decide))

/-- The text behind a refused `StartBatch` stays on the connection. -/
theorem receive_refused (res : Result) (h : res.ok = false) :
    receive .batchBegin (respond .batchBegin res) =
      some (reply .batchBegin res, sendString (text "batch already in progress")) := by
  simp only [receive, respond, reply, h]
  rfl

/-! ## Main results -/

theorem unread_append (calls : List (Request × Result)) (req : Request) (res : Result) :
    unread (calls ++ [(req, res)]) =
      (unread calls).bind fun bs => (receive req (bs ++ respond req res)).map Prod.snd := by
  rw [unread, List.foldl_append]
  rfl

theorem unread_of_accepted (calls : List (Request × Result)) (h : ∀ c ∈ calls, c.1 = .batchBegin → c.2.ok = true) :
    unread calls = some [] := by
  induction calls using List.reverseRecOn with
  | nil => rfl
  | append_singleton calls c ih =>
    have hbefore := ih fun d hd => h d (List.mem_append_left _ hd)
    have hcall := receive_respond c.1 c.2 (h c (by simp))
    rw [unread_append, hbefore, Option.bind_some, List.nil_append, hcall]
    rfl

/-- For every sequence of calls on a connection and every result of each, the responses stay aligned exactly when no
`StartBatch` is refused. -/
theorem aligned_iff (calls : List (Request × Result)) :
    Aligned calls ↔ ∀ c ∈ calls, c.1 = .batchBegin → c.2.ok = true := by
  constructor
  · rintro haligned ⟨req, res⟩ hc hbegin
    obtain ⟨before, after, heq⟩ := List.append_of_mem hc
    have hcall := (haligned before req res after heq).2
    simp only at hbegin ⊢
    subst hbegin
    by_contra hrefused
    rw [receive_refused res (by simpa using hrefused)] at hcall
    have hleft := (Prod.mk.inj (Option.some.inj hcall)).2
    exact absurd hleft (by decide)
  · intro h before req res after heq
    subst heq
    refine ⟨unread_of_accepted before fun c hc => h c (List.mem_append_left _ hc), receive_respond req res ?_⟩
    exact h (req, res) (by simp)

/-- A result for the tests: what the engine found and whether it agreed. -/
def plainResult (ok : Bool) (found : Option UInt8) : Result where
  ok := ok
  found := found.map fun b => [b]
  entries := []
  counts := List.replicate 8 0
  compacted := 0
  foundFits := by
    intro v hv
    obtain ⟨b, _, rfl⟩ := Option.mem_map.mp hv
    exact (by decide : 1 ≤ Config.maxKeyValuePairBytes)
  entriesFit := by simp
  countsFit := ⟨rfl, by simp⟩
  compactedFits := Nat.zero_le _

/-- After a refused `StartBatch` the next read takes the length of the message for its response: the key is there, and
the client reports that it is not. -/
theorem refused_batch_shifts_responses :
    unread [(.batchBegin, plainResult false none)] = some (sendString (text "batch already in progress")) ∧
      receive (.read [1]) (sendString (text "batch already in progress") ++
        respond (.read [1]) (plainResult true (some 7))) =
          some (.value none, (sendString (text "batch already in progress")).tail ++ valueResp :: sendString [7]) ∧
      reply (.read [1]) (plainResult true (some 7)) = .value (some [7]) ∧
      ¬ Aligned [(.batchBegin, plainResult false none), (.read [1], plainResult true (some 7))] := by
  refine ⟨rfl, rfl, rfl, ?_⟩
  intro haligned
  have hread := (haligned [(.batchBegin, plainResult false none)] (.read [1]) (plainResult true (some 7)) [] rfl).1
  exact absurd (Option.some.inj hread) (by decide)

end Kvdb.Protocol
