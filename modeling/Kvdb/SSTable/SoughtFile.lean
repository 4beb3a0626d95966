import Kvdb.SSTable.FileSteps
import Kvdb.SSTable.ReadAll
import Kvdb.SSTable.Seek

/-! # Seeking in the bytes of a file

After a jump the entries are counted from zero. An iterator that has left out blocks does not notice the end of the data
then, and decodes the filter area as a block: it stops there only if the bytes of the area that stand where a block has its
count say zero. With a cache that is filled on the way a second seek to a key behind the block it jumps to finds the
blocks there and does not move the stream, which stands before blocks that were read already. -/
namespace Kvdb.SSTableBytes.FileIterator
set_option autoImplicit false

open LittleEndian InputStream
open Loop (Ends Yields ends_of_go ends_of_stop yields_of_go yields_of_stop)
open SSTableIterator (below)

variable {o : Options} {data rest tail : Bytes} {blocks : List StoredBlock} {it : FileIterator} {s : Place}
  {sb : StoredBlock} {p : ℕ} {key : Bytes}

/-! ## Going through the entries of a block -/

section Block

variable (h : Stored data blocks rest tail) (ho : o.aborted = [])

theorem Standing.drop_eq (hs : Standing blocks sb p s it) :
    sb.pairs.drop p = it.current :: sb.pairs.drop (p + 1) := by
  obtain ⟨hlt, hget⟩ := List.getElem?_eq_some_iff.mp hs.entry
  rw [List.drop_eq_getElem_cons hlt, hget]

theorem Standing.isBelow_eq (hs : Standing blocks sb p s it) : isBelow key it = below key it.current := by
  rw [isBelow, hs.valid, Bool.true_and, below]

include h ho

/-- The entries below the key are passed over. -/
theorem Standing.pass (hs : Standing blocks sb p s it) (hall : ∀ x ∈ sb.pairs.drop p, below key x = true) :
    ∃ it', Ready blocks s it' ∧ ∀ z, Ends (isBelow key) (next o) it z ↔
      Ends (isBelow key) (next o) (readNextBlock o it') z := by
  obtain ⟨k, hk⟩ : ∃ k, p + 1 + k = sb.pairs.length :=
    Nat.exists_eq_add_of_le (List.getElem?_eq_some_iff.mp hs.entry).1 |>.imp fun _ h => h.symm
  induction k generalizing p it with
  | zero =>
    rw [hs.drop_eq, List.forall_mem_cons] at hall
    obtain ⟨it', hready, hnext⟩ := hs.next_end (o := o) hk
    refine ⟨it', hready, fun z => ?_⟩
    rw [ends_of_go (by rw [hs.isBelow_eq]; exact hall.1), hnext]
  | succ k ih =>
    rw [hs.drop_eq, List.forall_mem_cons] at hall
    obtain ⟨hs', -⟩ := hs.next_within h ho (List.getElem?_eq_getElem (show p + 1 < sb.pairs.length by omega))
    obtain ⟨it', hready, hends⟩ := ih hs' hall.2 (by omega)
    refine ⟨it', hready, fun z => ?_⟩
    rw [ends_of_go (by rw [hs.isBelow_eq]; exact hall.1), hends]

/-- The loop of a seek stops at the first entry that is not below the key. -/
theorem Standing.stop (hs : Standing blocks sb p s it) (hsome : ∃ x ∈ sb.pairs.drop p, below key x = false) :
    ∃ p' it', Standing blocks sb p' s it' ∧ sb.pairs.drop p' = (sb.pairs.drop p).dropWhile (below key) ∧
      ∀ z, Ends (isBelow key) (next o) it z ↔ z = it' := by
  obtain ⟨k, hk⟩ : ∃ k, p + 1 + k = sb.pairs.length :=
    Nat.exists_eq_add_of_le (List.getElem?_eq_some_iff.mp hs.entry).1 |>.imp fun _ h => h.symm
  induction k generalizing p it with
  | zero =>
    have hnil : sb.pairs.drop (p + 1) = [] := List.drop_eq_nil_of_le (by omega)
    obtain ⟨x, hx, hbelow⟩ := hsome
    rw [hs.drop_eq, hnil, List.mem_singleton] at hx
    subst hx
    refine ⟨p, it, hs, ?_, fun z => ends_of_stop (by rw [hs.isBelow_eq]; exact hbelow)⟩
    rw [hs.drop_eq, List.dropWhile_cons_of_neg (by simp [hbelow])]
  | succ k ih =>
    cases hbelow : below key it.current with
    | false =>
      refine ⟨p, it, hs, ?_, fun z => ends_of_stop (by rw [hs.isBelow_eq]; exact hbelow)⟩
      rw [hs.drop_eq, List.dropWhile_cons_of_neg (by simp [hbelow])]
    | true =>
      obtain ⟨hs', -⟩ := hs.next_within h ho (List.getElem?_eq_getElem (show p + 1 < sb.pairs.length by omega))
      have hsome' : ∃ x ∈ sb.pairs.drop (p + 1), below key x = false := by
        obtain ⟨x, hx, hfalse⟩ := hsome
        rw [hs.drop_eq, List.mem_cons] at hx
        rcases hx with rfl | hx
        · rw [hbelow] at hfalse
          cases hfalse
        · exact ⟨x, hx, hfalse⟩
      obtain ⟨p', it', hstand, hdrop, hends⟩ := ih hs' hsome' (by omega)
      refine ⟨p', it', hstand, ?_, fun z => ?_⟩
      · rw [hdrop, hs.drop_eq, List.dropWhile_cons_of_pos hbelow]
      · rw [ends_of_go (by rw [hs.isBelow_eq]; exact hbelow), hends]

/-- What is left of a block is yielded, and then what the next `ReadNextBlock` leads to. -/
theorem Standing.yields (hs : Standing blocks sb p s it) :
    ∃ it', Ready blocks s it' ∧ ∀ ys, Yields FileIterator.valid current (next o) it ys ↔
      ∃ zs, ys = sb.pairs.drop p ++ zs ∧ Yields FileIterator.valid current (next o) (readNextBlock o it') zs := by
  obtain ⟨k, hk⟩ : ∃ k, p + 1 + k = sb.pairs.length :=
    Nat.exists_eq_add_of_le (List.getElem?_eq_some_iff.mp hs.entry).1 |>.imp fun _ h => h.symm
  induction k generalizing p it with
  | zero =>
    obtain ⟨it', hready, hnext⟩ := hs.next_end (o := o) hk
    refine ⟨it', hready, fun ys => ?_⟩
    rw [yields_of_go hs.valid, hnext, hs.drop_eq, List.drop_eq_nil_of_le (by omega)]
    rfl
  | succ k ih =>
    obtain ⟨hs', -⟩ := hs.next_within h ho (List.getElem?_eq_getElem (show p + 1 < sb.pairs.length by omega))
    obtain ⟨it', hready, hyields⟩ := ih hs' (by omega)
    refine ⟨it', hready, fun ys => ?_⟩
    rw [yields_of_go hs.valid, hs.drop_eq]
    refine ⟨?_, ?_⟩
    · rintro ⟨zs, rfl, hzs⟩
      obtain ⟨zs', rfl, hzs'⟩ := (hyields zs).mp hzs
      exact ⟨zs', rfl, hzs'⟩
    · rintro ⟨zs, rfl, hzs⟩
      exact ⟨_, rfl, (hyields _).mpr ⟨zs, rfl, hzs⟩⟩

end Block

/-! ## Reading on to the end of the file -/

/-- The stream stands at the block that is taken next, and no block from there on is cached. -/
structure InStep (o : Options) (data : Bytes) (blocks : List StoredBlock) (sb : StoredBlock) (s : Place) : Prop where
  file : s.file = before data blocks s.next
  taken : ∃ j, s.next = j + 1 ∧ blocks[j]? = some sb
  blockData : s.blockData = sb.payload
  cold : o.reader = true → ∀ i, s.next ≤ i → s.cache i = none

theorem inStep_takeFile (hfile : s.file = before data blocks s.next) (hcold : o.reader = true → ∀ i, s.next ≤ i → s.cache i = none)
    (hsb : blocks[s.next]? = some sb) : InStep o data blocks sb (s.takeFile o sb) := by
  refine ⟨?_, ⟨s.next, rfl, hsb⟩, rfl, fun hreader i hi => ?_⟩
  · rw [Place.takeFile, hfile, before_succ hsb]
  have hne : i ≠ s.next := by
    intro heq
    rw [heq] at hi
    exact Nat.not_succ_le_self _ hi
  have hnone := hcold hreader i (Nat.le_of_succ_le hi)
  rw [Place.takeFile]
  split
  · simp only [if_neg hne, hnone]
  · exact hnone

/-- What `block_data` is after the bytes behind the last block are read as a block. -/
def behind (data : Bytes) (blocks : List StoredBlock) : Bytes :=
  (readFile (before data blocks blocks.length) ((blocks.getLast?.map StoredBlock.payload).getD [])).1

/-- The count that it has as a block. -/
def behindCount (data : Bytes) (blocks : List StoredBlock) : ℕ := (Block.ofData (behind data blocks)).count

theorem loadBlock_valid (it : FileIterator) (ho : o.aborted = []) (d : Bytes) :
    (loadBlock o d it).valid = decide (0 < (Block.ofData d).count) := by
  rw [loadBlock, skipAborted_none ho, readEntry]
  simp only [valid, Block.readAt_count]
  cases decide (0 < (Block.ofData d).count) with
  | false => rw [Bool.and_false, Bool.or_false]
  | true => rw [Bool.true_or]

/-- Behind the last block an iterator that has not counted all entries is valid if the bytes there have a count. -/
theorem readNextBlock_behind (ho : o.aborted = []) (hs : Ready blocks s it)
    (hopen : s.read < (blocks.flatMap StoredBlock.pairs).length) (hin : InStep o data blocks sb s)
    (hend : s.next = blocks.length) : (readNextBlock o it).valid = decide (0 < behindCount data blocks) := by
  obtain ⟨j, hj, hsb⟩ := hin.taken
  have hlast : blocks.getLast? = some sb := by
    rw [List.getLast?_eq_getElem?, ← hend, hj]
    exact hsb
  have hmiss : (if o.reader then it.cache it.curBlock else none) = none := by
    rw [hs.cache, hs.next]
    split
    · next hreader => exact hin.cold hreader _ (Nat.le_refl _)
    · rfl
  have hbehind : (readFile it.file it.blockData).1 = behind data blocks := by
    rw [behind, hlast, hs.file, hs.blockData, hin.blockData, hin.file, hend]
    rfl
  rw [readNextBlock, if_neg (by rw [hs.total, hs.read]; omega), hmiss]
  simp only []
  have hload := loadBlock_valid { it with
    file := (readFile it.file it.blockData).2
    blockData := (readFile it.file it.blockData).1 } ho (readFile it.file it.blockData).1
  rw [hbehind] at hload
  split
  · rw [← behindCount] at hload
    rw [hbehind]
    exact hload
  · rw [hbehind]
    exact hload

theorem readNextBlock_ended (hs : Ready blocks s it)
    (hread : (blocks.flatMap StoredBlock.pairs).length ≤ s.read) : (readNextBlock o it).valid = false := by
  rw [readNextBlock, if_pos (by rw [hs.total, hs.read]; exact hread)]
  simp [valid, Block.empty]

theorem flatMap_pairs_split (blocks : List StoredBlock) (q : ℕ) : (blocks.take q).flatMap StoredBlock.pairs ++
    (blocks.drop q).flatMap StoredBlock.pairs = blocks.flatMap StoredBlock.pairs := by
  rw [← List.flatMap_append, List.take_append_drop]

theorem drop_flatMap {q : ℕ} (hq : blocks[q]? = some sb) : (blocks.drop q).flatMap StoredBlock.pairs =
    sb.pairs ++ (blocks.drop (q + 1)).flatMap StoredBlock.pairs := by
  obtain ⟨hlt, hget⟩ := List.getElem?_eq_some_iff.mp hq
  rw [List.drop_eq_getElem_cons hlt, hget, List.flatMap_cons]

/-- All that is left of the file is yielded, and then nothing exactly if all entries are counted or the bytes behind
the last block have no count. -/
theorem Standing.yields_rest (h : Stored data blocks rest tail) (ho : o.aborted = []) (k : ℕ)
    (hk : s.next + k = blocks.length) (hs : Standing blocks sb p s it) (hin : InStep o data blocks sb s)
    (hread : s.read + ((blocks.drop s.next).flatMap StoredBlock.pairs).length ≤
      (blocks.flatMap StoredBlock.pairs).length) :
    Yields FileIterator.valid current (next o) it
        (sb.pairs.drop p ++ (blocks.drop s.next).flatMap StoredBlock.pairs) ↔
      (s.read + ((blocks.drop s.next).flatMap StoredBlock.pairs).length =
        (blocks.flatMap StoredBlock.pairs).length ∨ behindCount data blocks = 0) := by
  induction k generalizing s sb p it with
  | zero =>
    have hnil : blocks.drop s.next = [] := List.drop_eq_nil_of_le (by omega)
    obtain ⟨it', hready, hyields⟩ := hs.yields h ho
    rw [hnil, List.flatMap_nil, List.append_nil, List.length_nil, Nat.add_zero, hyields]
    have hrest : (∃ zs, sb.pairs.drop p = sb.pairs.drop p ++ zs ∧
        Yields FileIterator.valid current (next o) (readNextBlock o it') zs) ↔
        (readNextBlock o it').valid = false := by
      refine ⟨?_, fun hinvalid => ⟨[], (List.append_nil _).symm, (yields_of_stop hinvalid).mpr rfl⟩⟩
      rintro ⟨zs, heq, hzs⟩
      have hempty : zs = [] := List.self_eq_append_right.mp heq
      subst hempty
      by_contra hvalid
      obtain ⟨zs, heq, -⟩ := (yields_of_go (by simpa using hvalid)).mp hzs
      cases heq
    rw [hrest]
    rcases Nat.lt_or_ge s.read (blocks.flatMap StoredBlock.pairs).length with hopen | hall
    · rw [readNextBlock_behind ho hready hopen hin (by omega)]
      simp only [decide_eq_false_iff_not, Nat.not_lt, Nat.le_zero]
      exact ⟨.inr, fun h => h.resolve_left (Nat.ne_of_lt hopen)⟩
    · rw [readNextBlock_ended hready hall]
      rw [hnil, List.flatMap_nil, List.length_nil, Nat.add_zero] at hread
      exact ⟨fun _ => .inl (Nat.le_antisymm hread hall), fun _ => rfl⟩
  | succ k ih =>
    have hlt : s.next < blocks.length := by omega
    have hnext : blocks[s.next]? = some blocks[s.next] := List.getElem?_eq_getElem hlt
    obtain ⟨it', hready, hyields⟩ := hs.yields h ho
    rw [drop_flatMap hnext, List.length_append] at hread ⊢
    have hpos : 0 < (blocks[s.next]).pairs.length := by
      rw [StoredBlock.pairs, List.length_map]
      exact List.length_pos_iff.mpr (h.nonempty _ (List.getElem_mem hlt))
    have hstand := readNextBlock_file h ho hready (by omega) (fun hreader => hin.cold hreader _ (Nat.le_refl _))
      hin.file hnext
    have hcount : (s.takeFile o blocks[s.next]).read = s.read + (blocks[s.next]).pairs.length := by
      have hword := h.count
      rw [StoredBlock.pairs, List.length_map] at hread hpos ⊢
      exact Nat.mod_eq_of_lt (by omega)
    have hin' : InStep o data blocks blocks[s.next] (s.takeFile o blocks[s.next]) := inStep_takeFile hin.file hin.cold hnext
    have hread' : (s.takeFile o blocks[s.next]).read +
        ((blocks.drop (s.takeFile o blocks[s.next]).next).flatMap StoredBlock.pairs).length ≤
          (blocks.flatMap StoredBlock.pairs).length := by
      rw [hcount, Nat.add_assoc]
      exact hread
    have hrest := ih (by show s.next + 1 + k = blocks.length; omega) hstand hin' hread'
    rw [hcount, Nat.add_assoc, List.drop_zero, show (s.takeFile o blocks[s.next]).next = s.next + 1 from rfl] at hrest
    rw [← hrest, hyields]
    refine ⟨?_, fun hy => ⟨_, rfl, hy⟩⟩
    rintro ⟨zs, heq, hzs⟩
    rw [List.append_cancel_left_eq] at heq
    rw [heq]
    exact hzs

/-! ## The block a seek begins at -/

/-- The block index tells where the blocks are and what their first keys are. -/
structure Indexed (o : Options) (blocks : List StoredBlock) : Prop where
  offsets : o.blockOffsets = (List.range blocks.length).map (offset blocks)
  firstKeys : ∀ i sb e, blocks[i]? = some sb → sb.pairs.head? = some e → firstKeyAt o.firstKeyBuf i = e.key

/-- The entries in the order of their keys. -/
def InKeyOrder (blocks : List StoredBlock) : Prop :=
  (blocks.flatMap StoredBlock.pairs).Pairwise fun a b => a.key ≤ b.key

theorem key_le_of_lt (hsorted : InKeyOrder blocks) {i j : ℕ} {sb' : StoredBlock} (hij : i < j)
    (hi : blocks[i]? = some sb) (hj : blocks[j]? = some sb') : ∀ x ∈ sb.pairs, ∀ y ∈ sb'.pairs, x.key ≤ y.key := by
  intro x hx y hy
  have hall := hsorted
  rw [InKeyOrder, ← flatMap_pairs_split blocks (i + 1), List.pairwise_append] at hall
  refine hall.2.2 x ?_ y ?_
  · refine List.mem_flatMap.mpr ⟨sb, ?_, hx⟩
    rw [List.take_add_one, hi]
    exact List.mem_append_right _ List.mem_cons_self
  · refine List.mem_flatMap.mpr ⟨sb', ?_, hy⟩
    refine List.mem_of_getElem? (i := j - (i + 1)) ?_
    rw [List.getElem?_drop, Nat.add_sub_cancel' hij]
    exact hj

theorem key_le_in_block (hsorted : InKeyOrder blocks) (hsb : sb ∈ blocks) {e : KeyValuePair}
    (he : sb.pairs.head? = some e) : ∀ x ∈ sb.pairs, e.key ≤ x.key := by
  have hblock : sb.pairs.Pairwise fun a b => a.key ≤ b.key := by
    refine List.Pairwise.sublist ?_ hsorted
    rw [List.flatMap_def]
    exact List.sublist_flatten_of_mem (List.mem_map_of_mem hsb)
  cases hpairs : sb.pairs with
  | nil =>
    rw [hpairs] at he
    cases he
  | cons y ys =>
    rw [hpairs] at he hblock
    cases he
    intro x hx
    rcases List.mem_cons.mp hx with rfl | hx
    · exact le_refl _
    · exact (List.pairwise_cons.mp hblock).1 x hx

theorem head_of_getElem (h : Stored data blocks rest tail) {i : ℕ} (hi : i < blocks.length) :
    ∃ sb e, blocks[i]? = some sb ∧ sb.pairs.head? = some e := by
  obtain ⟨e, es, hes⟩ := List.exists_cons_of_ne_nil (h.nonempty _ (List.getElem_mem hi))
  exact ⟨blocks[i], e.pair, List.getElem?_eq_getElem hi, by rw [StoredBlock.pairs, hes]; rfl⟩

/-- All entries before the block are below the key, and none behind it. -/
theorem seekTarget_spec (h : Stored data blocks rest tail) (hi : Indexed o blocks) (hsorted : InKeyOrder blocks)
    (key : Bytes) (hne : blocks ≠ []) : seekTarget o key < blocks.length ∧
      (∀ x ∈ (blocks.take (seekTarget o key)).flatMap StoredBlock.pairs, below key x = true) ∧
      ∀ i sb, seekTarget o key < i → blocks[i]? = some sb → ∀ x ∈ sb.pairs, below key x = false := by
  have hlen : o.blockOffsets.length = blocks.length := by
    rw [hi.offsets, List.length_map, List.length_range]
  have hmono : Bisect.Monotone (fun i => decide (key ≤ firstKeyAt o.firstKeyBuf i)) (List.range blocks.length) := by
    rw [Bisect.Monotone, List.pairwise_iff_getElem]
    intro i j hi' hj' hij hle
    rw [List.getElem_range] at hle ⊢
    rw [List.length_range] at hi' hj'
    obtain ⟨sb, e, hsb, he⟩ := head_of_getElem h hi'
    obtain ⟨sb', e', hsb', he'⟩ := head_of_getElem h hj'
    rw [hi.firstKeys i sb e hsb he] at hle
    rw [hi.firstKeys j sb' e' hsb' he']
    have hkeys := key_le_of_lt hsorted hij hsb hsb' e (List.mem_of_mem_head? he) e' (List.mem_of_mem_head? he')
    exact decide_eq_true ((of_decide_eq_true hle).trans hkeys)
  have hsplit := Bisect.bisect_all SSTableFile.target_middle hmono
  have hle := Bisect.bisect_le (p := fun i => decide (key ≤ firstKeyAt o.firstKeyBuf i)) SSTableFile.target_middle
    (List.range blocks.length) blocks.length 0 blocks.length (Nat.zero_le _)
  rw [List.length_range] at hsplit
  have htarget : seekTarget o key = Bisect.bisect (fun i => decide (key ≤ firstKeyAt o.firstKeyBuf i))
      (fun lo hi => (lo + hi) / 2) (List.range blocks.length) blocks.length 0 blocks.length - 1 := by
    rw [seekTarget, hlen]
  generalize Bisect.bisect (fun i => decide (key ≤ firstKeyAt o.firstKeyBuf i))
      (fun lo hi => (lo + hi) / 2) (List.range blocks.length) blocks.length 0 blocks.length = r at hsplit hle htarget
  have hpos := List.length_pos_iff.mpr hne
  have hlt : seekTarget o key < blocks.length := by omega
  refine ⟨hlt, fun x hx => ?_, fun i sb hti hsb x hx => ?_⟩
  · obtain ⟨sb, hsb, hx⟩ := List.mem_flatMap.mp hx
    obtain ⟨i, hsb⟩ := List.getElem?_of_mem hsb
    rw [List.getElem?_take] at hsb
    split at hsb
    · next hit =>
      obtain ⟨sbt, e, hsbt, he⟩ := head_of_getElem h hlt
      have hfalse : decide (key ≤ firstKeyAt o.firstKeyBuf (seekTarget o key)) = false :=
        hsplit.1 (seekTarget o key) (seekTarget o key) (by omega) (by rw [List.getElem?_range hlt])
      rw [hi.firstKeys _ sbt e hsbt he] at hfalse
      have hkey := key_le_of_lt hsorted hit hsb hsbt x hx e (List.mem_of_mem_head? he)
      exact decide_eq_true (lt_of_le_of_lt hkey (not_le.mp (of_decide_eq_false hfalse)))
    · cases hsb
  · have hilt := (List.getElem?_eq_some_iff.mp hsb).1
    obtain ⟨sb', e, hsb', he⟩ := head_of_getElem h hilt
    rw [hsb, Option.some_inj] at hsb'
    subst hsb'
    have htrue : decide (key ≤ firstKeyAt o.firstKeyBuf i) = true :=
      hsplit.2 i i (by omega) (by rw [List.getElem?_range hilt])
    rw [hi.firstKeys i sb e hsb he] at htrue
    have hkey := key_le_in_block hsorted (List.mem_of_getElem? hsb) he x hx
    exact decide_eq_false (not_lt.mpr ((of_decide_eq_true htrue).trans hkey))

/-! ## Where seeks lead to -/

/-- The seek from `it` ends in `it'`. -/
theorem seeksTo_iff {it' : FileIterator} :
    (∃ fuel, seekToKey o key fuel it = some it') ↔ Ends (isBelow key) (next o) (jump o key it) it' := Iff.rfl

theorem jump_stays (hs : Ready blocks s it) (hnext : s.next = seekTarget o key + 1) : jump o key it = it := by
  rw [jump, if_pos]
  rw [hs.next, hnext, decide_eq_true rfl, Bool.or_true]

/-- A jump puts the stream before the target and begins to count anew. -/
theorem jump_moves (hi : Indexed o blocks) (hs : Ready blocks s it) (hlt : seekTarget o key < blocks.length)
    (hnext : s.next ≠ seekTarget o key + 1) :
    ∃ it', Ready blocks ⟨seekTarget o key, seek (offset blocks (seekTarget o key)) s.file, 0, s.blockData, s.cache⟩ it' ∧
      jump o key it = readNextBlock o it' := by
  have hempty : o.blockOffsets.isEmpty = false := by
    rw [hi.offsets, List.isEmpty_map, List.isEmpty_eq_false_iff]
    rintro hnil
    rw [List.range_eq_nil] at hnil
    omega
  have hoffset : o.blockOffsets.getD (seekTarget o key) 0 = offset blocks (seekTarget o key) := by
    rw [hi.offsets, List.getD_eq_getElem?_getD, List.getElem?_map, List.getElem?_range hlt]
    rfl
  refine ⟨{ it with
    file := seek (offset blocks (seekTarget o key)) s.file
    curBlock := seekTarget o key
    readEntries := 0
    pos := 0
    block := Block.empty }, ⟨hs.total, rfl, rfl, rfl, hs.blockData, hs.cache⟩, ?_⟩
  rw [jump, hempty, Bool.false_or, if_neg, hoffset, hs.file]
  rw [decide_eq_true_eq, hs.next]
  omega

section Seeks

variable {t : ℕ} {sbt sb' : StoredBlock} (h : Stored data blocks rest tail) (ho : o.aborted = [])
  (hi : Indexed o blocks) (ht : seekTarget o key = t) (hsbt : blocks[t]? = some sbt)

/-- The iterator has just taken the target of the seek out of the file. -/
structure AtTarget (o : Options) (data : Bytes) (blocks : List StoredBlock) (t : ℕ) (sbt : StoredBlock) (s : Place)
    (it : FileIterator) : Prop where
  standing : Standing blocks sbt 0 s it
  inStep : InStep o data blocks sbt s
  next : s.next = t + 1
  read : s.read = sbt.pairs.length
  filled : (o.populate && o.reader) = true → s.cache t = some sbt.payload
  kept : (o.populate && o.reader) = false → o.reader = true → ∀ i, s.cache i = none

/-- The iterator stands at the first entry from the key on, in the target of the seek. -/
def Here (o : Options) (data : Bytes) (blocks : List StoredBlock) (t : ℕ) (sbt : StoredBlock) (key : Bytes)
    (it : FileIterator) : Prop :=
  ∃ s p, Standing blocks sbt p s it ∧ InStep o data blocks sbt s ∧ s.next = t + 1 ∧ s.read = sbt.pairs.length ∧
    sbt.pairs.drop p = sbt.pairs.dropWhile (below key) ∧ below key it.current = false

/-- The iterator stands at the first entry of the block behind the target, which it has read from the file. -/
def Behind (o : Options) (data : Bytes) (blocks : List StoredBlock) (t : ℕ) (sbt sb' : StoredBlock)
    (it : FileIterator) : Prop :=
  ∃ s, Standing blocks sb' 0 s it ∧ InStep o data blocks sb' s ∧ s.next = t + 2 ∧
    s.read = sbt.pairs.length + sb'.pairs.length ∧
    ((o.populate && o.reader) = true → s.cache t = some sbt.payload ∧ s.cache (t + 1) = some sb'.payload) ∧
    ((o.populate && o.reader) = false → o.reader = true → ∀ i, s.cache i = none)

/-- The iterator stands there, but it has taken both blocks out of the cache, so that the stream is still before the
target. -/
def Refound (data : Bytes) (blocks : List StoredBlock) (t : ℕ) (sbt sb' : StoredBlock) (it : FileIterator) : Prop :=
  ∃ s, Standing blocks sb' 0 s it ∧ s.next = t + 2 ∧ s.file = before data blocks t ∧
    s.read = sbt.pairs.length + sb'.pairs.length ∧ s.cache t = some sbt.payload ∧
    s.cache (t + 1) = some sb'.payload ∧ s.cache (t + 2) = none

theorem pairs_pos (h : Stored data blocks rest tail) (hsb : sb ∈ blocks) : 0 < sb.pairs.length := by
  rw [StoredBlock.pairs, List.length_map]
  exact List.length_pos_iff.mpr (h.nonempty sb hsb)

/-- The entries of two blocks one after the other are some of all entries. -/
theorem pairs_length_le (hsbt : blocks[t]? = some sbt) :
    sbt.pairs.length + ((blocks.drop (t + 1)).flatMap StoredBlock.pairs).length ≤
      (blocks.flatMap StoredBlock.pairs).length := by
  have hall := congrArg List.length (flatMap_pairs_split blocks t)
  rw [List.length_append, drop_flatMap hsbt, List.length_append] at hall
  omega

theorem takeFile_kept {s₀ : Place} (hcold : o.reader = true → ∀ i, s₀.cache i = none)
    (hput : (o.populate && o.reader) = false) : o.reader = true → ∀ i, (s₀.takeFile o sb).cache i = none := by
  intro hreader i
  rw [Place.takeFile, if_neg (by simp [hput])]
  exact hcold hreader i

theorem takeFile_filled {s₀ : Place} (hput : (o.populate && o.reader) = true) :
    (s₀.takeFile o sb).cache s₀.next = some sb.payload := by
  rw [Place.takeFile, if_pos hput]
  exact if_pos rfl

include h ho in
/-- The target is read out of the file. -/
theorem atTarget_of_file {s₀ : Place} (hsbt : blocks[t]? = some sbt) (hs : Ready blocks s₀ it)
    (hnext : s₀.next = t) (hfile : s₀.file = before data blocks t) (hread : s₀.read = 0)
    (hcold : o.reader = true → ∀ i, t ≤ i → s₀.cache i = none)
    (hkept : (o.populate && o.reader) = false → o.reader = true → ∀ i, s₀.cache i = none) :
    AtTarget o data blocks t sbt (s₀.takeFile o sbt) (readNextBlock o it) := by
  have hmember := List.mem_of_getElem? hsbt
  have hle := pairs_length_le hsbt
  have hpos := pairs_pos h hmember
  have hstand := readNextBlock_file h ho hs (by omega) (fun hreader => hcold hreader _ (Nat.le_of_eq hnext.symm))
    hfile hsbt
  have hin : InStep o data blocks sbt (s₀.takeFile o sbt) :=
    inStep_takeFile (by rw [hfile, hnext]) (by rw [hnext]; exact hcold) (by rw [hnext]; exact hsbt)
  refine ⟨hstand, hin, congrArg (· + 1) hnext, ?_, fun hput => ?_, fun hput => takeFile_kept (hkept hput) hput⟩
  · have hcount := (h.fits sbt hmember).count
    rw [Place.takeFile, hread, StoredBlock.pairs, List.length_map, Nat.zero_add]
    exact Nat.mod_eq_of_lt hcount
  · rw [← hnext]
    exact takeFile_filled hput

include h ho in
/-- From the target the loop of the seek goes to the first entry from the key on. -/
theorem AtTarget.here (hs : AtTarget o data blocks t sbt s it) (hsome : ∃ x ∈ sbt.pairs, below key x = false) :
    ∃ it', Here o data blocks t sbt key it' ∧ ∀ z, Ends (isBelow key) (FileIterator.next o) it z ↔ z = it' := by
  obtain ⟨p, it', hstand, hdrop, hends⟩ := hs.standing.stop h ho hsome
  refine ⟨it', ⟨s, p, hstand, hs.inStep, hs.next, hs.read, hdrop, ?_⟩, hends⟩
  have hhead := List.head?_dropWhile_not (below key) (sbt.pairs.drop 0)
  rw [← hdrop, hstand.drop_eq] at hhead
  simpa using hhead

/-- An entry that is not below the key is where the loop of a seek stops. -/
theorem Standing.stays (hs : Standing blocks sb p s it) (hbelow : below key it.current = false) (z : FileIterator) :
    Ends (isBelow key) (FileIterator.next o) it z ↔ z = it :=
  ends_of_stop (by rw [hs.isBelow_eq]; exact hbelow)

include h ho in
theorem AtTarget.behind (hs : AtTarget o data blocks t sbt s it) (hsb' : blocks[t + 1]? = some sb')
    (hall : ∀ x ∈ sbt.pairs, below key x = true) (hfirst : ∀ x ∈ sb'.pairs, below key x = false)
    (hle : sbt.pairs.length + sb'.pairs.length ≤ (blocks.flatMap StoredBlock.pairs).length) :
    ∃ it', Behind o data blocks t sbt sb' it' ∧ ∀ z, Ends (isBelow key) (FileIterator.next o) it z ↔ z = it' := by
  obtain ⟨it₁, hready, hends⟩ := hs.standing.pass h ho (by rw [List.drop_zero]; exact hall)
  have hpos := pairs_pos h (List.mem_of_getElem? hsb')
  have hnext : blocks[s.next]? = some sb' := by rw [hs.next]; exact hsb'
  have hstand := readNextBlock_file h ho hready (by rw [hs.read]; omega)
    (fun hreader => hs.inStep.cold hreader _ (Nat.le_refl _)) hs.inStep.file hnext
  have hin := inStep_takeFile hs.inStep.file hs.inStep.cold hnext
  have hcurrent : below key (readNextBlock o it₁).current = false :=
    hfirst _ (List.mem_of_getElem? hstand.entry)
  refine ⟨readNextBlock o it₁, ⟨_, hstand, hin, ?_, ?_, fun hput => ⟨?_, ?_⟩, fun hput => takeFile_kept (hs.kept hput) hput⟩,
    fun z => ?_⟩
  · exact congrArg (· + 1) hs.next
  · have hcount := h.count
    rw [Place.takeFile, hs.read]
    simp only []
    rw [show sb'.entries.length = sb'.pairs.length by rw [StoredBlock.pairs, List.length_map]]
    exact Nat.mod_eq_of_lt (by omega)
  · rw [Place.takeFile, if_pos hput]
    simp only []
    rw [if_neg (by rw [hs.next]; omega)]
    exact hs.filled hput
  · rw [← hs.next]
    exact takeFile_filled hput
  · rw [hends, hstand.stays hcurrent]

include ht in
/-- A seek from the first entry in the target leaves the iterator where it is. -/
theorem Here.seek (hs : Here o data blocks t sbt key it) : ∃ fuel, seekToKey o key fuel it = some it := by
  obtain ⟨s, p, hstand, -, hnext, -, -, hbelow⟩ := hs
  rw [seeksTo_iff, jump_stays hstand.toReady (by rw [hnext, ht])]
  exact (hstand.stays hbelow it).mpr rfl

theorem SeekTimes.succ_right {n : ℕ} {it₁ it₂ : FileIterator} (hn : SeekTimes o key n it it₁)
    (hlast : ∃ fuel, seekToKey o key fuel it₁ = some it₂) : SeekTimes o key (n + 1) it it₂ := by
  induction n generalizing it with
  | zero =>
    rw [SeekTimes] at hn
    subst hn
    exact ⟨it₂, hlast, rfl⟩
  | succ n ih =>
    obtain ⟨it', hfirst, hrest⟩ := hn
    exact ⟨it', hfirst, ih hrest⟩

/-- Further seeks keep what one seek keeps. -/
theorem SeekTimes.keeps {P : FileIterator → Prop} (hstep : ∀ it, P it → ∃ it', P it' ∧
    ∃ fuel, seekToKey o key fuel it = some it') (n : ℕ) (hit : P it) : ∃ it', P it' ∧ SeekTimes o key n it it' := by
  induction n with
  | zero => exact ⟨it, hit, rfl⟩
  | succ n ih =>
    obtain ⟨it₁, h₁, hn⟩ := ih
    obtain ⟨it₂, h₂, hlast⟩ := hstep it₁ h₁
    exact ⟨it₂, h₂, hn.succ_right hlast⟩

theorem SeekTimes.unique {n : ℕ} {it₁ it₂ : FileIterator} (h₁ : SeekTimes o key n it it₁)
    (h₂ : SeekTimes o key n it it₂) : it₁ = it₂ := by
  induction n generalizing it with
  | zero => exact h₁.trans h₂.symm
  | succ n ih =>
    obtain ⟨it', hfirst, hrest⟩ := h₁
    obtain ⟨it'', hfirst', hrest'⟩ := h₂
    obtain rfl : it' = it'' := Ends.unique (seeksTo_iff.mp hfirst) (seeksTo_iff.mp hfirst')
    exact ih hrest hrest'

include h ho hi ht in
/-- If nothing is cached, a seek from the block behind the target ends there again. -/
theorem Behind.seek (hs : Behind o data blocks t sbt sb' it) (hsbt : blocks[t]? = some sbt)
    (hsb' : blocks[t + 1]? = some sb') (hput : (o.populate && o.reader) = false)
    (hall : ∀ x ∈ sbt.pairs, below key x = true) (hfirst : ∀ x ∈ sb'.pairs, below key x = false) :
    ∃ it', Behind o data blocks t sbt sb' it' ∧ ∃ fuel, seekToKey o key fuel it = some it' := by
  obtain ⟨s, hstand, hin, hnext, -, -, hkept⟩ := hs
  have hlt := (List.getElem?_eq_some_iff.mp hsbt).1
  obtain ⟨it₁, hready, hjump⟩ := jump_moves hi hstand.toReady (by rw [ht]; exact hlt) (by rw [hnext, ht]; omega)
  rw [ht] at hready
  have hat := atTarget_of_file h ho hsbt hready rfl (by rw [hin.file]; rfl) rfl (fun hreader i _ => hkept hput hreader i) hkept
  have hle := pairs_length_le hsbt
  rw [drop_flatMap hsb', List.length_append] at hle
  obtain ⟨it', hbehind, hends⟩ := hat.behind h ho hsb' hall hfirst (by omega)
  refine ⟨it', hbehind, ?_⟩
  rw [seeksTo_iff, hjump]
  exact (hends it').mpr rfl

/-- The blocks that a repeated seek needs are cached. -/
def Filled (data : Bytes) (blocks : List StoredBlock) (t : ℕ) (sbt sb' : StoredBlock) (it : FileIterator) : Prop :=
  ∃ s q, Standing blocks sb' 0 s it ∧ s.next = t + 2 ∧ s.file = before data blocks q ∧ s.cache t = some sbt.payload ∧
    s.cache (t + 1) = some sb'.payload ∧ s.cache (t + 2) = none

theorem Behind.filled (hs : Behind o data blocks t sbt sb' it) (hput : (o.populate && o.reader) = true) :
    Filled data blocks t sbt sb' it := by
  obtain ⟨s, hstand, hin, hnext, -, hfilled, -⟩ := hs
  obtain ⟨hcache, hcache'⟩ := hfilled hput
  rw [Bool.and_eq_true] at hput
  exact ⟨s, _, hstand, hnext, hin.file, hcache, hcache', hin.cold hput.2 _ (Nat.le_of_eq hnext)⟩

theorem Refound.filled (hs : Refound data blocks t sbt sb' it) : Filled data blocks t sbt sb' it := by
  obtain ⟨s, hstand, hnext, hfile, -, hcache, hcache', hcold⟩ := hs
  exact ⟨s, t, hstand, hnext, hfile, hcache, hcache', hcold⟩

include h ho hi ht in
/-- A repeated seek takes both blocks out of the cache. -/
theorem Filled.seek (hs : Filled data blocks t sbt sb' it) (hsbt : blocks[t]? = some sbt)
    (hsb' : blocks[t + 1]? = some sb') (hreader : o.reader = true)
    (hall : ∀ x ∈ sbt.pairs, below key x = true) (hfirst : ∀ x ∈ sb'.pairs, below key x = false) :
    ∃ it', Refound data blocks t sbt sb' it' ∧ ∃ fuel, seekToKey o key fuel it = some it' := by
  obtain ⟨s, q, hstand, hnext, hfile, hcache, hcache', hcold⟩ := hs
  have hlt := (List.getElem?_eq_some_iff.mp hsbt).1
  have hmember := List.mem_of_getElem? hsbt
  have hmember' := List.mem_of_getElem? hsb'
  have hpos := pairs_pos h hmember
  have hpos' := pairs_pos h hmember'
  have hle := pairs_length_le hsbt
  have hword := h.count
  rw [drop_flatMap hsb', List.length_append] at hle
  have hcount : sbt.entries.length = sbt.pairs.length := by rw [StoredBlock.pairs, List.length_map]
  have hcount' : sb'.entries.length = sb'.pairs.length := by rw [StoredBlock.pairs, List.length_map]
  obtain ⟨it₁, hready, hjump⟩ := jump_moves hi hstand.toReady (by rw [ht]; exact hlt) (by rw [hnext, ht]; omega)
  rw [ht] at hready
  have hstand₁ := readNextBlock_cached h ho hready (by simp only []; omega) hmember hreader hcache
  obtain ⟨it₂, hready₂, hends⟩ := hstand₁.pass h ho (by rw [List.drop_zero]; exact hall)
  have hread : (Place.takeCached ⟨t, InputStream.seek (offset blocks t) s.file, 0, s.blockData, s.cache⟩ sbt).read = sbt.pairs.length := by
    rw [Place.takeCached]
    simp only []
    rw [Nat.zero_add, hcount]
    exact Nat.mod_eq_of_lt (by omega)
  have hstand₂ := readNextBlock_cached h ho hready₂ (by rw [hread]; omega) hmember' hreader hcache'
  have hcurrent : below key (readNextBlock o it₂).current = false := hfirst _ (List.mem_of_getElem? hstand₂.entry)
  refine ⟨readNextBlock o it₂, ⟨_, hstand₂, rfl, by rw [Place.takeCached, Place.takeCached, hfile]; rfl, ?_, hcache, hcache', hcold⟩, ?_⟩
  · rw [Place.takeCached, hread]
    simp only []
    rw [hcount']
    exact Nat.mod_eq_of_lt (by omega)
  · rw [seeksTo_iff, hjump, hends]
    exact (hstand₂.stays hcurrent _).mpr rfl

include h ho in
/-- A file with blocks is opened at its first entry. -/
theorem openFile_atTarget {sb₀ : StoredBlock} (hsb : blocks[0]? = some sb₀) :
    ∃ s, AtTarget o data blocks 0 sb₀ s (openFile o data fun _ => none) := by
  obtain ⟨s₁, s₂, s₃, s₄, h₁, h₂, h₃, h₄, hskip, -⟩ := readHeader_stored h
  have hready : Ready blocks ⟨0, before data blocks 0, 0, [], fun _ => none⟩
      ⟨skip 4 (skip 4 s₄), [], Block.empty, 0, (blocks.flatMap StoredBlock.pairs).length, 0, ⟨[], [], 0, false⟩, 0,
        fun _ => none⟩ := ⟨rfl, rfl, hskip, rfl, rfl, rfl⟩
  have hat := atTarget_of_file h ho hsb hready rfl rfl rfl (fun _ _ _ => rfl) (fun _ _ _ => rfl)
  refine ⟨Place.takeFile o ⟨0, before data blocks 0, 0, [], fun _ => none⟩ sb₀, ?_⟩
  rw [openFile, h₁]
  simp only [h₂, h₃, h₄]
  exact hat

include h ho hi ht hsbt in
/-- The first seek reads the target out of the file. -/
theorem jump_atTarget : ∃ s, AtTarget o data blocks t sbt s (jump o key (openFile o data fun _ => none)) := by
  have hlt := (List.getElem?_eq_some_iff.mp hsbt).1
  have hzero : blocks[0]? = some blocks[0] := List.getElem?_eq_getElem (Nat.zero_lt_of_lt hlt)
  obtain ⟨s, hs⟩ := openFile_atTarget h ho hzero
  by_cases hfirst : t = 0
  · subst hfirst
    rw [hzero, Option.some_inj] at hsbt
    rw [← hsbt, jump_stays hs.standing.toReady (by rw [hs.next, ht])]
    exact ⟨s, hs⟩
  · obtain ⟨it₁, hready, hjump⟩ := jump_moves hi hs.standing.toReady (by rw [ht]; exact hlt)
      (by rw [hs.next, ht]; omega)
    rw [ht] at hready
    rw [hjump]
    have hcold : o.reader = true → ∀ i, t ≤ i → s.cache i = none := by
      intro hreader i hle
      refine hs.inStep.cold hreader i ?_
      rw [hs.next]
      omega
    exact ⟨_, atTarget_of_file h ho hsbt hready rfl (by rw [hs.inStep.file]; rfl) rfl hcold hs.kept⟩

/-! ## What the sought iterator yields -/

include h in
theorem take_pairs_eq_zero (hsbt : blocks[t]? = some sbt) :
    ((blocks.take t).flatMap StoredBlock.pairs).length = 0 ↔ t = 0 := by
  refine ⟨fun hzero => ?_, ?_⟩
  · by_contra hne
    have hlt := (List.getElem?_eq_some_iff.mp hsbt).1
    have hget : (blocks.take t)[0]? = some blocks[0] := by
      rw [List.getElem?_take, if_pos (Nat.pos_of_ne_zero hne)]
      exact List.getElem?_eq_getElem (Nat.zero_lt_of_lt hlt)
    have hpos := pairs_pos h (List.getElem_mem (Nat.zero_lt_of_lt hlt))
    have hsub : (blocks[0]).pairs.length ≤ ((blocks.take t).flatMap StoredBlock.pairs).length := by
      rw [List.flatMap_def]
      exact (List.sublist_flatten_of_mem (List.mem_map_of_mem (List.mem_of_getElem? hget))).length_le
    omega
  · rintro rfl
    rfl

/-- All entries, as those before the target, in it and behind it. -/
theorem pairs_length_eq (hsbt : blocks[t]? = some sbt) : (blocks.flatMap StoredBlock.pairs).length =
    ((blocks.take t).flatMap StoredBlock.pairs).length + (sbt.pairs.length +
      ((blocks.drop (t + 1)).flatMap StoredBlock.pairs).length) := by
  have hall := congrArg List.length (flatMap_pairs_split blocks t)
  rw [List.length_append, drop_flatMap hsbt, List.length_append] at hall
  exact hall.symm

theorem dropWhile_here (hsbt : blocks[t]? = some sbt)
    (hbefore : ∀ x ∈ (blocks.take t).flatMap StoredBlock.pairs, below key x = true)
    (hsome : ∃ x ∈ sbt.pairs, below key x = false) : (blocks.flatMap StoredBlock.pairs).dropWhile (below key) =
      sbt.pairs.dropWhile (below key) ++ (blocks.drop (t + 1)).flatMap StoredBlock.pairs := by
  rw [← flatMap_pairs_split blocks t, List.dropWhile_append_of_pos hbefore, drop_flatMap hsbt, List.dropWhile_append,
    if_neg]
  intro hempty
  obtain ⟨x, hx, hbelow⟩ := hsome
  have htrue := List.dropWhile_eq_nil_iff.mp (List.isEmpty_iff.mp hempty) x hx
  rw [hbelow] at htrue
  cases htrue

theorem dropWhile_behind (hsbt : blocks[t]? = some sbt) (hsb' : blocks[t + 1]? = some sb')
    (hbefore : ∀ x ∈ (blocks.take t).flatMap StoredBlock.pairs, below key x = true)
    (hall : ∀ x ∈ sbt.pairs, below key x = true) (hfirst : ∀ x ∈ sb'.pairs, below key x = false)
    (hne : sb'.pairs ≠ []) : (blocks.flatMap StoredBlock.pairs).dropWhile (below key) =
      sb'.pairs ++ (blocks.drop (t + 2)).flatMap StoredBlock.pairs := by
  obtain ⟨x, xs, hxs⟩ := List.exists_cons_of_ne_nil hne
  rw [← flatMap_pairs_split blocks t, List.dropWhile_append_of_pos hbefore, drop_flatMap hsbt,
    List.dropWhile_append_of_pos hall, drop_flatMap hsb', hxs, List.cons_append, List.dropWhile_cons_of_neg]
  rw [hfirst x (by rw [hxs]; exact List.mem_cons_self)]
  exact Bool.false_ne_true

include h ho hsbt in
theorem Here.yields_iff (hs : Here o data blocks t sbt key it)
    (hbefore : ∀ x ∈ (blocks.take t).flatMap StoredBlock.pairs, below key x = true)
    (hsome : ∃ x ∈ sbt.pairs, below key x = false) :
    Yields FileIterator.valid current (FileIterator.next o) it
        ((blocks.flatMap StoredBlock.pairs).dropWhile (below key)) ↔ (t = 0 ∨ behindCount data blocks = 0) := by
  obtain ⟨s, p, hstand, hin, hnext, hread, hdrop, -⟩ := hs
  have hlt := (List.getElem?_eq_some_iff.mp hsbt).1
  have hcount := pairs_length_eq hsbt
  have hzero := take_pairs_eq_zero h hsbt
  have hyields := hstand.yields_rest h ho (blocks.length - s.next) (by omega) hin (by rw [hread, hnext]; omega)
  rw [dropWhile_here hsbt hbefore hsome, ← hdrop]
  rw [hnext, hread] at hyields
  rw [hyields, ← hzero]
  refine or_congr_left ?_
  omega

include h ho hsbt in
theorem Behind.yields_iff (hs : Behind o data blocks t sbt sb' it) (hsb' : blocks[t + 1]? = some sb')
    (hbefore : ∀ x ∈ (blocks.take t).flatMap StoredBlock.pairs, below key x = true)
    (hall : ∀ x ∈ sbt.pairs, below key x = true) (hfirst : ∀ x ∈ sb'.pairs, below key x = false) :
    Yields FileIterator.valid current (FileIterator.next o) it
        ((blocks.flatMap StoredBlock.pairs).dropWhile (below key)) ↔ (t = 0 ∨ behindCount data blocks = 0) := by
  obtain ⟨s, hstand, hin, hnext, hread, -, -⟩ := hs
  have hlt := (List.getElem?_eq_some_iff.mp hsb').1
  have hcount := pairs_length_eq hsbt
  have hzero := take_pairs_eq_zero h hsbt
  have hpos := pairs_pos h (List.mem_of_getElem? hsb')
  rw [drop_flatMap hsb', List.length_append, show t + 1 + 1 = t + 2 from rfl] at hcount
  have hyields := hstand.yields_rest h ho (blocks.length - s.next) (by omega) hin (by rw [hread, hnext]; omega)
  rw [dropWhile_behind hsbt hsb' hbefore hall hfirst (List.length_pos_iff.mp hpos)]
  rw [hnext, hread, List.drop_zero] at hyields
  rw [hyields, ← hzero]
  refine or_congr_left ?_
  omega

include h ho hsbt in
/-- With both blocks out of the cache the target is read again, unless they are all there is. -/
theorem Refound.yields_iff (hs : Refound data blocks t sbt sb' it) (hsb' : blocks[t + 1]? = some sb')
    (hbefore : ∀ x ∈ (blocks.take t).flatMap StoredBlock.pairs, below key x = true)
    (hall : ∀ x ∈ sbt.pairs, below key x = true)
    (hafter : ∀ i sb, t < i → blocks[i]? = some sb → ∀ x ∈ sb.pairs, below key x = false) :
    Yields FileIterator.valid current (FileIterator.next o) it
        ((blocks.flatMap StoredBlock.pairs).dropWhile (below key)) ↔ (t = 0 ∧ blocks.length = 2) := by
  obtain ⟨s, hstand, hnext, hfile, hread, -, -, hcold⟩ := hs
  have hlt := (List.getElem?_eq_some_iff.mp hsb').1
  have hcount := pairs_length_eq hsbt
  have hzero := take_pairs_eq_zero h hsbt
  have hpos := pairs_pos h (List.mem_of_getElem? hsb')
  have hfirst := hafter (t + 1) sb' (Nat.lt_succ_self t) hsb'
  rw [drop_flatMap hsb', List.length_append, show t + 1 + 1 = t + 2 from rfl] at hcount
  obtain ⟨it', hready, hyields⟩ := hstand.yields h ho
  rw [dropWhile_behind hsbt hsb' hbefore hall hfirst (List.length_pos_iff.mp hpos), hyields, List.drop_zero]
  have hrest : ((blocks.drop (t + 2)).flatMap StoredBlock.pairs).length = 0 ↔ blocks.length ≤ t + 2 := by
    refine ⟨fun hnone => ?_, fun hle => ?_⟩
    · by_contra hmore
      have hget : blocks[t + 2]? = some blocks[t + 2] := List.getElem?_eq_getElem (by omega)
      have hpos := pairs_pos h (List.mem_of_getElem? hget)
      rw [drop_flatMap hget, List.length_append] at hnone
      omega
    · rw [List.drop_eq_nil_of_le hle]
      rfl
  refine ⟨?_, ?_⟩
  · rintro ⟨zs, heq, hzs⟩
    rw [List.append_cancel_left_eq] at heq
    subst heq
    by_contra hmore
    -- not all entries are counted, and the target is read once more
    have hopen : s.read < (blocks.flatMap StoredBlock.pairs).length := by
      rw [hread]
      omega
    have hstand' := readNextBlock_file h ho hready hopen (fun _ => by rw [hnext]; exact hcold)
      hfile hsbt
    obtain ⟨zs, heq, -⟩ := (yields_of_go hstand'.valid).mp hzs
    have htrue : below key (readNextBlock o it').current = true := hall _ (List.mem_of_getElem? hstand'.entry)
    have hmem : (readNextBlock o it').current ∈ (blocks.drop (t + 2)).flatMap StoredBlock.pairs := by
      rw [heq]
      exact List.mem_cons_self
    obtain ⟨sb, hsb, hx⟩ := List.mem_flatMap.mp hmem
    obtain ⟨i, hget⟩ := List.getElem?_of_mem hsb
    rw [List.getElem?_drop] at hget
    rw [hafter (t + 2 + i) sb (by omega) hget _ hx] at htrue
    cases htrue
  · rintro ⟨rfl, hlen⟩
    have hnil := List.length_eq_zero_iff.mp (hrest.mpr (by omega))
    have hended := readNextBlock_ended (o := o) hready (by rw [hread]; omega)
    rw [hnil]
    exact ⟨[], rfl, (yields_of_stop hended).mpr rfl⟩

end Seeks

end Kvdb.SSTableBytes.FileIterator
