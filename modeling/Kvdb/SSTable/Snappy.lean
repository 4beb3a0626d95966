import Kvdb.SSTable.FileIterator

/-! # `Snappy::Compress` against `Snappy::Uncompress` (`snappy.hpp`)

`Compress` looks for the last place with the same hash of four bytes and compares the bytes themselves, so that whatever
the table holds a copy repeats what has gone before. What it writes is read back as long as the literal runs are short:
the two functions do not agree on the lengths from 60 on, and up to three bytes behind a last copy are not written. -/
namespace Kvdb.SSTableBytes.Snappy
set_option autoImplicit false

open LittleEndian

/-! ## Compressing -/

/-- The variables of `Compress`; `literals` are the arguments of the `EmitLiteral` calls so far. -/
structure Compressor where
  i : ℕ
  litStart : ℕ
  table : ℕ → Option ℕ
  output : Bytes
  literals : List ℕ

def wordAt (input : Bytes) (i : ℕ) : ℕ := ofLe ((input.drop i).take 4)

def hash (word : ℕ) : ℕ := word * 0x1e35a7bd % 2 ^ 32 / 2 ^ 18

/-- `table[h] = i`. -/
def setTable (table : ℕ → Option ℕ) (h i : ℕ) : ℕ → Option ℕ := fun k => if k = h then some i else table k

/-- The loop over `match_len`, for as many more bytes. -/
def matchLoop (input : Bytes) (prev i : ℕ) : ℕ → ℕ → ℕ
  | 0, matchLen => matchLen
  | more + 1, matchLen =>
    if i + matchLen < input.length ∧ input[prev + matchLen]? = input[i + matchLen]? then
      matchLoop input prev i more (matchLen + 1)
    else matchLen

/-- What `EmitLiteral` writes in front of a literal, and how many bytes of it. -/
def literalTag (n : ℕ) : Bytes × ℕ :=
  if n < 60 then ([UInt8.ofNat (n * 4)], n)
  else if n ≤ 255 then ([UInt8.ofNat (60 * 4), UInt8.ofNat (n - 60)], n)
  else if n ≤ 65535 then (UInt8.ofNat (61 * 4) :: leBytes 2 (n - 256), n - 256)
  else (UInt8.ofNat (62 * 4) :: leBytes 3 (n - 65536), n - 65536)

/-- `EmitLiteral`. -/
def emitLiteral (input : Bytes) (n : ℕ) (s : Compressor) : Compressor :=
  { s with
    output := s.output ++ ((literalTag n).1 ++ (input.drop s.litStart).take (literalTag n).2)
    literals := s.literals ++ [n] }

/-- A copy of `len` bytes from `off` bytes before. -/
def copyTag (off len : ℕ) : Bytes := UInt8.ofNat ((len - 1) * 4 + 2) :: leBytes 4 off

/-- The places inside a match, from `j` on, are put into the table. -/
def indexMatch (input : Bytes) (i : ℕ) : ℕ → ℕ → (ℕ → Option ℕ) → ℕ → Option ℕ
  | 0, _, table => table
  | more + 1, j, table =>
    if j + 4 ≤ i ∧ j < input.length then indexMatch input i more (j + 1) (setTable table (hash (wordAt input j)) j)
    else table

/-- A match is written as a copy, with the literal before it. -/
def emitMatch (input : Bytes) (prev matchLen : ℕ) (s : Compressor) : Compressor :=
  let s' := if s.litStart < s.i then emitLiteral input (s.i - s.litStart) s else s
  { s' with
    i := s.i + matchLen
    litStart := s.i + matchLen
    table := indexMatch input (s.i + matchLen) matchLen (s.i + 1) s.table
    output := s'.output ++ copyTag (s.i - prev) matchLen }

/-- One round of the loop. -/
def step (input : Bytes) (s : Compressor) : Compressor :=
  let h := hash (wordAt input s.i)
  let s' := { s with table := setTable s.table h s.i }
  match s.table h with
  | none => { s' with i := s.i + 1 }
  | some prev =>
    let matchLen := matchLoop input prev s.i 64 0
    if s.i - prev < 32768 ∧ 4 ≤ matchLen ∧ (0 < s.i - s.litStart ∨ 4 < matchLen ∨ input.length ≤ s.i + 4) then
      emitMatch input prev matchLen s'
    else { s' with i := s.i + 1 }

def loop (input : Bytes) : ℕ → Compressor → Compressor
  | 0, s => s
  | fuel + 1, s => if s.i + 4 ≤ input.length then loop input fuel (step input s) else s

/-- The variables behind the loop, which goes on by a byte at least in every round. -/
def scanned (input : Bytes) : Compressor := loop input input.length ⟨0, 0, fun _ => none, [], []⟩

/-- `if (i > lit_start || lit_start == 0)`. -/
def EmitsLast (s : Compressor) : Prop := s.litStart < s.i ∨ s.litStart = 0

instance (s : Compressor) : Decidable (EmitsLast s) := by
  unfold EmitsLast
  infer_instance

/-- `Snappy::Compress`. -/
def compress (input : Bytes) : Bytes :=
  if input.isEmpty then []
  else
    let s := scanned input
    if EmitsLast s then (emitLiteral input (input.length - s.litStart) s).output else s.output

/-! ## Uncompressing what was written -/

variable {input out rest : Bytes} {fuel n : ℕ}

theorem uncompressLoop_nil (fuel : ℕ) (out : Bytes) : uncompressLoop fuel [] out = out := by
  cases fuel <;> rfl

theorem toNat_tag {k type : ℕ} (hk : k < 64) (htype : type < 4) :
    (UInt8.ofNat (k * 4 + type)).toNat % 4 = type ∧ (UInt8.ofNat (k * 4 + type)).toNat / 4 = k := by
  have hbyte : (k * 4 + type) % 2 ^ 8 = k * 4 + type := Nat.mod_eq_of_lt (by omega)
  rw [UInt8.toNat_ofNat', hbyte]
  omega

theorem literalTag_pos (n : ℕ) : 0 < (literalTag n).1.length := by
  unfold literalTag
  split
  · exact Nat.zero_lt_one
  · split
    · exact Nat.zero_lt_two
    · split
      · exact Nat.succ_pos _
      · exact Nat.succ_pos _

/-- A short literal is read back. -/
theorem uncompressLoop_literal {lit : Bytes} (hn : lit.length = n) (hshort : n < 60) :
    uncompressLoop (fuel + 1) ((literalTag n).1 ++ (lit ++ rest)) out = uncompressLoop fuel rest (out ++ lit) := by
  obtain ⟨htype, hlen⟩ := toNat_tag (show n < 64 by omega) (show 0 < 4 by decide)
  rw [Nat.add_zero] at htype hlen
  rw [literalTag, if_pos hshort, List.singleton_append, uncompressLoop]
  simp only [htype, hlen, if_true, if_neg (show ¬60 ≤ n by omega), List.drop_zero]
  rw [if_neg (by rw [List.length_append]; omega), List.drop_left' hn, List.take_left' hn]

/-- A copy is read back. -/
theorem uncompressLoop_copy {off len : ℕ} (hlen : 0 < len) (hmax : len ≤ 64) (hoff : 0 < off) (hout : off ≤ out.length)
    (hword : off < 2 ^ 31) :
    uncompressLoop (fuel + 1) (copyTag off len ++ rest) out = uncompressLoop fuel rest (out ++ copyBack out off len) := by
  obtain ⟨htype, hlen'⟩ := toNat_tag (show len - 1 < 64 by omega) (show 2 < 4 by decide)
  have hofLe : ofLe (leBytes 4 off) = off := ofLe_leBytes (hword.trans (by decide))
  rw [copyTag, List.cons_append, uncompressLoop]
  simp only [htype, hlen', List.take_left' (length_leBytes 4 off), List.drop_left' (length_leBytes 4 off), hofLe]
  rw [if_neg (by decide), if_neg (fun h => absurd h.1 (by decide)),
    if_pos ⟨trivial, by rw [List.length_append, length_leBytes]; omega⟩, if_neg (by omega), Nat.sub_add_cancel hlen]

/-- A literal that is shorter than its length word says ends the output. -/
theorem uncompressLoop_cut {lit : Bytes} {k word base : ℕ} (hlow : 60 ≤ k) (hhigh : k < 64)
    (hbase : (if k = 61 then 255 else if k = 62 then 65535 else if k = 63 then 16777215 else 0) = base)
    (hword : word < 256 ^ (k - 59)) (hlit : lit.length < word + base) :
    uncompressLoop (fuel + 1) (UInt8.ofNat (k * 4) :: (leBytes (k - 59) word ++ lit)) out = out := by
  obtain ⟨htype, hlen⟩ := toNat_tag hhigh (show 0 < 4 by decide)
  rw [Nat.add_zero] at htype hlen
  have hextra : (leBytes (k - 59) word).length = k - 59 := length_leBytes _ _
  rw [uncompressLoop]
  simp only [htype, hlen, hlow, if_true, List.drop_left' hextra, List.take_left' hextra, ofLe_leBytes hword, hbase]
  rw [if_pos hlit]

/-- A literal of 256 bytes or more is written short of its length. -/
theorem uncompressLoop_long {lit : Bytes} (hlit : lit.length ≤ (literalTag n).2) (hlow : 256 ≤ n)
    (hhigh : n < 2 ^ 16 + 2 ^ 24) : uncompressLoop (fuel + 1) ((literalTag n).1 ++ lit) out = out := by
  have hnot : ¬n < 60 := by omega
  have hnot' : ¬n ≤ 255 := by omega
  rw [literalTag, if_neg hnot, if_neg hnot'] at hlit ⊢
  split
  · next hle =>
    rw [if_pos hle] at hlit
    exact uncompressLoop_cut (show 60 ≤ 61 by decide) (by decide) (show _ = 255 from rfl) (show n - 256 < 256 ^ 2 by omega)
      (by simp only [] at hlit; omega)
  · next hmore =>
    rw [if_neg hmore] at hlit
    exact uncompressLoop_cut (show 60 ≤ 62 by decide) (by decide) (show _ = 65535 from rfl) (show n - 65536 < 256 ^ 3 by omega)
      (by simp only [] at hlit; omega)

/-! ## Matches -/

theorem matchLoop_spec {prev i more m : ℕ} (hm : i + m ≤ input.length)
    (hequal : ∀ k < m, input[prev + k]? = input[i + k]?) :
    i + matchLoop input prev i more m ≤ input.length ∧ matchLoop input prev i more m ≤ m + more ∧
      ∀ k < matchLoop input prev i more m, input[prev + k]? = input[i + k]? := by
  induction more generalizing m with
  | zero => exact ⟨hm, Nat.le_refl _, hequal⟩
  | succ more ih =>
    rw [matchLoop]
    split
    · next hnext =>
      obtain ⟨hle, hmax, hall⟩ := ih (m := m + 1) (by omega) fun k hk => by
        rcases Nat.lt_succ_iff_lt_or_eq.mp hk with hk | rfl
        · exact hequal k hk
        · exact hnext.2
      exact ⟨hle, by omega, hall⟩
    · exact ⟨hm, by omega, hequal⟩

/-- Bytes that repeat with a period equal those of the first period. -/
theorem getElem_mod {off len : ℕ} (hoff : 0 < off) {prev : ℕ}
    (hperiod : ∀ k < len, input[prev + k]? = input[prev + off + k]?) (k : ℕ) (hk : k < off + len) :
    input[prev + k % off]? = input[prev + k]? := by
  induction k using Nat.strong_induction_on with
  | _ k ih =>
    rcases Nat.lt_or_ge k off with hlt | hge
    · rw [Nat.mod_eq_of_lt hlt]
    · obtain ⟨j, rfl⟩ := Nat.exists_eq_add_of_le hge
      rw [Nat.add_mod_left, ih j (by omega) (by omega), hperiod j (by omega), Nat.add_assoc]

/-- A copy of bytes that have been compared goes on with the input. -/
theorem copyBack_take {prev i len : ℕ} (hprev : prev < i) (hlen : i + len ≤ input.length)
    (hequal : ∀ k < len, input[prev + k]? = input[i + k]?) :
    copyBack (input.take i) (i - prev) len = (input.drop i).take len := by
  have htake : (input.take i).length = i := List.length_take_of_le (by omega)
  refine List.ext_getElem? fun k => ?_
  rw [copyBack, List.getElem?_map, htake, Nat.sub_sub_self (Nat.le_of_lt hprev)]
  rcases Nat.lt_or_ge k len with hk | hk
  · have hoff : 0 < i - prev := by omega
    have hmod := Nat.mod_lt k hoff
    have hsource : input[prev + k % (i - prev)]? = input[i + k]? := by
      rw [getElem_mod hoff (fun j hj => by rw [hequal j hj]; congr 1; omega) k (by omega), hequal k hk]
    have hget : input[i + k]? = some input[i + k] := List.getElem?_eq_getElem (by omega)
    rw [List.getElem?_range hk, Option.map_some, List.getElem?_take_of_lt hk, List.getElem?_drop,
      List.getD_eq_getElem?_getD, List.getElem?_take_of_lt (by omega), hsource, hget]
    rfl
  · rw [List.getElem?_eq_none (by rw [List.length_range]; exact hk), Option.map_none,
      List.getElem?_eq_none (by rw [List.length_take]; omega)]

/-! ## The loop -/

/-- What has been written is read back as the input before the literal that is being collected. -/
structure InStep (input : Bytes) (s : Compressor) : Prop where
  start : s.litStart ≤ s.i
  within : s.i ≤ input.length
  output : ∀ rest fuel, (s.output ++ rest).length ≤ fuel → ∃ fuel', rest.length ≤ fuel' ∧
    uncompressLoop fuel (s.output ++ rest) [] = uncompressLoop fuel' rest (input.take s.litStart)

/-- The table knows places that the loop has passed. -/
def Passed (table : ℕ → Option ℕ) (i : ℕ) : Prop := ∀ h p, table h = some p → p < i

theorem passed_setTable {table : ℕ → Option ℕ} {i j : ℕ} (h : Passed table i) (hj : j < i) (k : ℕ) :
    Passed (setTable table k j) i := by
  intro h' p hp
  rw [setTable] at hp
  split at hp
  · cases hp
    exact hj
  · exact h h' p hp

theorem passed_indexMatch {table : ℕ → Option ℕ} {i : ℕ} (h : Passed table i) (more j : ℕ) :
    Passed (indexMatch input i more j table) i := by
  induction more generalizing j table with
  | zero => exact h
  | succ more ih =>
    rw [indexMatch]
    split
    · next hj => exact ih (passed_setTable h (by omega) _) (j + 1)
    · exact h

/-- A short literal keeps the output in step. -/
theorem InStep.emitLiteral {s : Compressor} (h : InStep input s) (hn : s.litStart + n ≤ input.length) (hshort : n < 60)
    (rest : Bytes) (fuel : ℕ) (hfuel : ((Snappy.emitLiteral input n s).output ++ rest).length ≤ fuel) :
    ∃ fuel', rest.length ≤ fuel' ∧ uncompressLoop fuel ((Snappy.emitLiteral input n s).output ++ rest) [] =
      uncompressLoop fuel' rest (input.take (s.litStart + n)) := by
  have hlit : ((input.drop s.litStart).take n).length = n := List.length_take_of_le (by rw [List.length_drop]; omega)
  have htag : literalTag n = ([UInt8.ofNat (n * 4)], n) := if_pos hshort
  have hbytes : (Snappy.emitLiteral input n s).output ++ rest =
      s.output ++ ((literalTag n).1 ++ ((input.drop s.litStart).take n ++ rest)) := by
    simp only [Snappy.emitLiteral, htag, List.append_assoc]
  rw [hbytes] at hfuel ⊢
  obtain ⟨fuel', hle, hrun⟩ := h.output _ _ hfuel
  rw [List.length_append, List.length_append, htag, List.length_singleton] at hle
  obtain ⟨fuel'', rfl⟩ := Nat.exists_eq_add_of_le' (show 1 ≤ fuel' by omega)
  refine ⟨fuel'', by omega, ?_⟩
  rw [hrun, uncompressLoop_literal hlit hshort, ← List.take_add]

theorem InStep.emitMatch {s : Compressor} (h : InStep input s) {prev len : ℕ} (hprev : prev < s.i)
    (hfar : s.i - prev < 32768) (hpos : 0 < len) (hmax : len ≤ 64) (hwithin : s.i + len ≤ input.length)
    (hequal : ∀ k < len, input[prev + k]? = input[s.i + k]?)
    (hshort : ∀ n ∈ (Snappy.emitMatch input prev len s).literals, n < 60) :
    InStep input (Snappy.emitMatch input prev len s) := by
  have hstart := h.start
  refine ⟨Nat.le_refl _, hwithin, fun rest fuel hfuel => ?_⟩
  -- the literal before the copy, if there is one
  have hbefore : ∃ out : Bytes, (Snappy.emitMatch input prev len s).output = out ++ copyTag (s.i - prev) len ∧
      ∀ rest fuel, (out ++ rest).length ≤ fuel → ∃ fuel', rest.length ≤ fuel' ∧
        uncompressLoop fuel (out ++ rest) [] = uncompressLoop fuel' rest (input.take s.i) := by
    rcases Nat.eq_or_lt_of_le hstart with heq | hlt
    · refine ⟨s.output, ?_, ?_⟩
      · rw [Snappy.emitMatch, if_neg (by omega)]
      · rw [← heq]
        exact h.output
    · have hemit : (Snappy.emitMatch input prev len s).literals = s.literals ++ [s.i - s.litStart] := by
        rw [Snappy.emitMatch, if_pos hlt]
        rfl
      have hlit : s.i - s.litStart < 60 := hshort _ (by rw [hemit]; simp)
      refine ⟨(Snappy.emitLiteral input (s.i - s.litStart) s).output, ?_, fun rest fuel hfuel => ?_⟩
      · rw [Snappy.emitMatch, if_pos hlt]
      · have hrun := h.emitLiteral (by omega) hlit rest fuel hfuel
        rwa [Nat.add_sub_cancel' hstart] at hrun
  obtain ⟨out, hout, hbefore⟩ := hbefore
  rw [hout, List.append_assoc] at hfuel ⊢
  obtain ⟨fuel', hle, hrun⟩ := hbefore _ _ hfuel
  rw [List.length_append, copyTag, List.length_cons, length_leBytes] at hle
  obtain ⟨fuel'', rfl⟩ := Nat.exists_eq_add_of_le' (show 1 ≤ fuel' by omega)
  refine ⟨fuel'', by omega, ?_⟩
  have hlen : (input.take s.i).length = s.i := List.length_take_of_le h.within
  rw [hrun, uncompressLoop_copy hpos hmax (by omega) (by omega) (by omega), copyBack_take hprev hwithin hequal,
    ← List.take_add]
  rfl

theorem literals_emitMatch (prev len : ℕ) (s : Compressor) {n : ℕ} (hn : n ∈ s.literals) :
    n ∈ (emitMatch input prev len s).literals := by
  rw [emitMatch]
  split
  · exact List.mem_append_left _ hn
  · exact hn

/-- What the loop keeps as long as the literals are short. -/
structure Compressing (input : Bytes) (s : Compressor) : Prop where
  within : s.i ≤ input.length
  start : s.litStart ≤ s.i
  passed : Passed s.table s.i
  inStep : (∀ n ∈ s.literals, n < 60) → InStep input s

theorem Compressing.step {s : Compressor} (h : Compressing input s) (hmore : s.i + 4 ≤ input.length) :
    Compressing input (step input s) ∧ s.i < (step input s).i := by
  have hstart := h.start
  have htable : ∀ i, s.i < i → Passed (setTable s.table (hash (wordAt input s.i)) s.i) i := by
    intro i hi
    exact passed_setTable (fun k p hp => (h.passed k p hp).trans hi) hi _
  have hadvance : Compressing input { s with
      i := s.i + 1
      table := setTable s.table (hash (wordAt input s.i)) s.i } := by
    refine ⟨by show s.i + 1 ≤ _; omega, by show s.litStart ≤ s.i + 1; omega, htable _ (Nat.lt_succ_self _), fun hshort => ?_⟩
    have hin := h.inStep hshort
    exact ⟨by show s.litStart ≤ s.i + 1; omega, by show s.i + 1 ≤ _; omega, hin.output⟩
  rw [Snappy.step]
  cases hprev : s.table (hash (wordAt input s.i)) with
  | none => exact ⟨hadvance, Nat.lt_succ_self _⟩
  | some prev =>
    simp only []
    split
    · next htakes =>
      obtain ⟨hfar, hlen, -⟩ := htakes
      obtain ⟨hwithin, hmax, hequal⟩ := @matchLoop_spec input prev s.i 64 0 (by omega) fun _ hk => absurd hk (Nat.not_lt_zero _)
      rw [Nat.zero_add] at hmax
      have hmoved : ∀ len s', (Snappy.emitMatch input prev len s').i = s'.i + len := fun _ _ => rfl
      refine ⟨⟨hwithin, Nat.le_refl _, passed_indexMatch (htable _ (by simp only []; omega)) _ _, fun hshort => ?_⟩, ?_⟩
      · have hin := h.inStep fun n hn => hshort n (literals_emitMatch prev _ _ hn)
        have hin' : InStep input { s with table := setTable s.table (hash (wordAt input s.i)) s.i } :=
          ⟨hin.start, hin.within, hin.output⟩
        exact hin'.emitMatch (h.passed _ _ hprev) hfar (by omega) hmax hwithin hequal hshort
      · rw [hmoved]
        show s.i < s.i + _
        omega
    · exact ⟨hadvance, Nat.lt_succ_self _⟩

theorem Compressing.loop {s : Compressor} (h : Compressing input s) (fuel : ℕ) : Compressing input (loop input fuel s) := by
  induction fuel generalizing s with
  | zero => exact h
  | succ fuel ih =>
    rw [Snappy.loop]
    split
    · next hmore => exact ih (h.step hmore).1
    · exact h

/-- The loop goes on until fewer than four bytes are left. -/
theorem loop_end {s : Compressor} (h : Compressing input s) {fuel : ℕ} (hfuel : input.length ≤ s.i + fuel) :
    input.length < (loop input fuel s).i + 4 := by
  induction fuel generalizing s with
  | zero =>
    rw [Snappy.loop]
    omega
  | succ fuel ih =>
    rw [Snappy.loop]
    split
    · next hmore =>
      obtain ⟨hstep, hlt⟩ := h.step hmore
      exact ih hstep (by omega)
    · next hless => omega

/-! ## The whole input -/

theorem compressing_start (input : Bytes) : Compressing input ⟨0, 0, fun _ => none, [], []⟩ :=
  ⟨Nat.zero_le _, Nat.le_refl 0, fun _ _ hp => (by cases hp), fun _ =>
    ⟨Nat.le_refl 0, Nat.zero_le _, fun _ fuel hfuel => ⟨fuel, hfuel, rfl⟩⟩⟩

theorem compressing_scanned (input : Bytes) : Compressing input (scanned input) := (compressing_start input).loop _

/-- At most three bytes are left behind the loop. -/
theorem scanned_end (input : Bytes) : input.length < (scanned input).i + 4 :=
  loop_end (compressing_start input) (Nat.le_add_left _ _)

/-- The length of the literal that is written behind the loop. -/
def lastLiteral (input : Bytes) : ℕ := input.length - (scanned input).litStart

/-- Every literal is shorter than 60 bytes, and no byte is left behind a copy that the loop ends with. -/
structure Clean (input : Bytes) : Prop where
  literals : ∀ n ∈ (scanned input).literals, n < 60
  last : EmitsLast (scanned input) → lastLiteral input < 60
  tail : ¬EmitsLast (scanned input) → (scanned input).litStart = input.length

/-- Without a last literal the bytes behind the last copy are missing. -/
theorem uncompress_of_not_emitsLast (hshort : ∀ n ∈ (scanned input).literals, n < 60) (hlast : ¬EmitsLast (scanned input)) :
    uncompress (compress input) = input.take (scanned input).litStart := by
  have hin := (compressing_scanned input).inStep hshort
  have hne : input.isEmpty = false := by
    rw [List.isEmpty_eq_false_iff]
    rintro rfl
    exact hlast (.inr rfl)
  obtain ⟨fuel, -, hrun⟩ := hin.output [] _ (Nat.le_refl _)
  rw [List.append_nil, uncompressLoop_nil] at hrun
  rw [uncompress, compress, hne]
  simp only [Bool.false_eq_true, if_false, if_neg hlast]
  exact hrun

theorem compress_of_emitsLast (hlast : EmitsLast (scanned input)) (hne : input ≠ []) :
    compress input = (emitLiteral input (lastLiteral input) (scanned input)).output := by
  rw [compress, if_neg (fun hempty => hne (List.isEmpty_iff.mp hempty))]
  simp only [if_pos hlast]
  rfl

theorem uncompress_of_short (hshort : ∀ n ∈ (scanned input).literals, n < 60) (hlast : EmitsLast (scanned input))
    (hless : lastLiteral input < 60) : uncompress (compress input) = input := by
  by_cases hne : input = []
  · subst hne
    rfl
  · have hs := compressing_scanned input
    have hin := hs.inStep hshort
    have hle : (scanned input).litStart ≤ input.length := hs.start.trans hs.within
    have hsum : (scanned input).litStart + lastLiteral input = input.length := Nat.add_sub_cancel' hle
    obtain ⟨fuel, -, hrun⟩ := hin.emitLiteral (Nat.le_of_eq hsum) hless [] _ (Nat.le_refl _)
    rw [List.append_nil, uncompressLoop_nil, hsum, List.take_length] at hrun
    rw [uncompress, compress_of_emitsLast hlast hne]
    exact hrun

/-- A last literal of 256 bytes or more is dropped. -/
theorem uncompress_of_long (hshort : ∀ n ∈ (scanned input).literals, n < 60) (hlast : EmitsLast (scanned input))
    (hlow : 256 ≤ lastLiteral input) (hhigh : lastLiteral input < 2 ^ 16 + 2 ^ 24) :
    uncompress (compress input) = input.take (scanned input).litStart := by
  have hne : input ≠ [] := by
    rintro rfl
    exact absurd hlow (by decide)
  have hin := (compressing_scanned input).inStep hshort
  have hlit := List.length_take_le (literalTag (lastLiteral input)).2 (input.drop (scanned input).litStart)
  rw [uncompress, compress_of_emitsLast hlast hne, emitLiteral]
  obtain ⟨fuel, hle, hrun⟩ := hin.output ((literalTag (lastLiteral input)).1 ++
    (input.drop (scanned input).litStart).take (literalTag (lastLiteral input)).2) _ (Nat.le_refl _)
  have hpos := literalTag_pos (lastLiteral input)
  rw [List.length_append] at hle
  obtain ⟨fuel, rfl⟩ := Nat.exists_eq_add_of_le' (show 1 ≤ fuel by omega)
  exact hrun.trans (uncompressLoop_long hlit hlow hhigh)

/-- What `Compress` writes is uncompressed to the input if every literal is shorter than 60 bytes and nothing is lost behind
the last copy. Where no literal is longer, but for a last one of 256 bytes or more, it is so only then. -/
theorem snappy_round_trip (input : Bytes) :
    (Clean input → uncompress (compress input) = input) ∧
      ((∀ n ∈ (scanned input).literals, n < 60) →
        (EmitsLast (scanned input) → lastLiteral input < 60 ∨ (256 ≤ lastLiteral input ∧ lastLiteral input < 2 ^ 16 + 2 ^ 24)) →
        (uncompress (compress input) = input ↔ Clean input)) := by
  have hclean : Clean input → uncompress (compress input) = input := by
    intro h
    by_cases hlast : EmitsLast (scanned input)
    · exact uncompress_of_short h.literals hlast (h.last hlast)
    · rw [uncompress_of_not_emitsLast h.literals hlast, h.tail hlast, List.take_length]
  have hle : (scanned input).litStart ≤ input.length := (compressing_scanned input).start.trans (compressing_scanned input).within
  have hwhole : input.take (scanned input).litStart = input → (scanned input).litStart = input.length := by
    intro htake
    have hlen := congrArg List.length htake
    rw [List.length_take_of_le hle] at hlen
    exact hlen
  refine ⟨hclean, fun hshort hlong => ⟨fun htrip => ⟨hshort, fun hlast => ?_, fun hlast => ?_⟩, hclean⟩⟩
  · rcases hlong hlast with hless | ⟨hlow, hhigh⟩
    · exact hless
    · rw [uncompress_of_long hshort hlast hlow hhigh] at htrip
      have hend := hwhole htrip
      rw [lastLiteral] at hlow
      omega
  · rw [uncompress_of_not_emitsLast hshort hlast] at htrip
    exact hwhole htrip

instance (input : Bytes) : Decidable (Clean input) :=
  decidable_of_iff ((∀ n ∈ (scanned input).literals, n < 60) ∧ (EmitsLast (scanned input) → lastLiteral input < 60) ∧
      (¬EmitsLast (scanned input) → (scanned input).litStart = input.length))
    ⟨fun h => ⟨h.1, h.2.1, h.2.2⟩, fun h => ⟨h.literals, h.last, h.tail⟩⟩

/-- Four bytes, the same again and two literals behind them. -/
theorem snappy_round_trip_repeated :
    uncompress (compress [1, 2, 3, 4, 1, 2, 3, 4, 5, 6, 7, 8]) = [1, 2, 3, 4, 1, 2, 3, 4, 5, 6, 7, 8] :=
  (snappy_round_trip [1, 2, 3, 4, 1, 2, 3, 4, 5, 6, 7, 8]).1 (by decide)

/-- The byte behind the copy is lost. -/
theorem byte_behind_copy_lost : ¬∀ input, uncompress (compress input) = input := by
  intro h
  exact absurd (h [1, 2, 3, 4, 1, 2, 3, 4, 5]) (by decide)

end Kvdb.SSTableBytes.Snappy
