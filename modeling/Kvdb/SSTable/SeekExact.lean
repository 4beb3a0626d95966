import Kvdb.SSTable.SoughtFile

/-! # When a seek leaves exactly the entries from the key on

The file is one that `Write` or `WriteFromWalk` has written, opened with its own block index and nothing of it cached.
How often the seek is made matters only with a cache that is filled on the way. -/
namespace Kvdb.SSTableBytes.FileIterator
set_option autoImplicit false

open LittleEndian InputStream
open Loop (Ends Yields ends_of_stop yields_of_stop)
open SSTableIterator (below)

/-- The blocks of the file as they are stored. -/
def storedBlocks (f : SSTableFile) : List StoredBlock := f.blocks.map StoredBlock.ofPairs

/-- An iterator with the block index of the file and no aborted timestamps. -/
def optionsOf (f : SSTableFile) (reader populate : Bool) : Options :=
  ⟨reader, populate, [], blockOffsets f, f.firstKeys.flatMap firstKeyBytes⟩

/-- After so many seeks those of the entries of `ReadAll` are yielded that follow from the key on, and `Valid()` is false
then. -/
def SeeksExactly (f : SSTableFile) (reader populate : Bool) (key : Bytes) (times : ℕ) : Prop :=
  ∃ es it, readAll (f.blocks.length + 1) (fileBytes f) = some (.ok es) ∧
    SeekTimes (optionsOf f reader populate) key times
      (openFile (optionsOf f reader populate) (fileBytes f) fun _ => none) it ∧
    ∃ fuel, drain (optionsOf f reader populate) fuel it = some (es.dropWhile (below key))

/-- The block that a seek to the key begins at. -/
def targetOf (f : SSTableFile) (key : Bytes) : ℕ := seekTarget (optionsOf f false false) key

/-- Nothing but data blocks is read, or the bytes behind them have no count; and a repeated seek that finds its blocks in
the cache has no blocks left to read. -/
def SeekCondition (f : SSTableFile) (reader populate : Bool) (key : Bytes) (times : ℕ) : Prop :=
  f.blocks.length ≤ 1 ∨
    if ∃ x ∈ f.entries, below key x = false then
      if (populate && reader) = true ∧ 1 < times ∧ ∀ x ∈ f.blocks.getD (targetOf f key) [], below key x = true then
        targetOf f key = 0 ∧ f.blocks.length = 2
      else targetOf f key = 0 ∨ behindCount (fileBytes f) (storedBlocks f) = 0
    else times = 1 ∧ behindCount (fileBytes f) (storedBlocks f) = 0

/-! ## The block index of the file -/

theorem firstKeyAt_flatMap (keys : List Bytes) (hkeys : ∀ key ∈ keys, key.length < 2 ^ 16) {i : ℕ} {key : Bytes}
    (hi : keys[i]? = some key) : firstKeyAt (keys.flatMap firstKeyBytes) i = key := by
  induction keys generalizing i with
  | nil => cases hi
  | cons k ks ih =>
    have hk := hkeys k List.mem_cons_self
    have hword : ofLe ((leBytes 2 k.length ++ (k ++ ks.flatMap firstKeyBytes)).take 2) = k.length := by
      rw [List.take_left' (length_leBytes 2 _)]
      exact ofLe_leBytes hk
    rw [List.flatMap_cons, firstKeyBytes_eq hk, List.append_assoc]
    cases i with
    | zero =>
      rw [List.getElem?_cons_zero, Option.some_inj] at hi
      subst hi
      rw [firstKeyAt, hword, List.drop_left' (length_leBytes 2 _), List.take_left]
    | succ i =>
      rw [firstKeyAt, hword, ← List.drop_drop, List.drop_left' (length_leBytes 2 _), List.drop_left]
      exact ih (fun key hkey => hkeys key (List.mem_cons_of_mem _ hkey)) hi

theorem storedBlocks_getElem (f : SSTableFile) (i : ℕ) :
    (storedBlocks f)[i]? = f.blocks[i]?.map StoredBlock.ofPairs := List.getElem?_map

theorem storedBlocks_length (f : SSTableFile) : (storedBlocks f).length = f.blocks.length := List.length_map ..

theorem storedBlocks_pairs (f : SSTableFile) : (storedBlocks f).flatMap StoredBlock.pairs = f.entries := ofPairs_flatMap f

theorem indexed_optionsOf {f : SSTableFile} (hkeys : ∀ x ∈ f.entries, x.key.length < 2 ^ 16) (reader populate : Bool) :
    Indexed (optionsOf f reader populate) (storedBlocks f) := by
  refine ⟨?_, ?_⟩
  · exact blockOffsets_eq f
  · intro i sb e hsb he
    rw [storedBlocks_getElem, Option.map_eq_some_iff] at hsb
    obtain ⟨b, hb, rfl⟩ := hsb
    rw [StoredBlock.ofPairs_pairs] at he
    refine firstKeyAt_flatMap f.firstKeys ?_ ?_
    · intro key hkey
      obtain ⟨b', hb', rfl⟩ := List.mem_map.mp hkey
      cases b' with
      | nil => exact Nat.two_pow_pos 16
      | cons x xs => exact hkeys x (List.mem_flatten.mpr ⟨_, hb', List.mem_cons_self⟩)
    · rw [f.firstKeys_getElem?, hb]
      simp [he]

/-! ## Seeks from the opened file -/

section Exact

variable {f : SSTableFile} {reader populate : Bool} {key : Bytes} {times : ℕ} {it : FileIterator}
  (hf : f.WellFormed) (hl : Limits f) (hsorted : f.entries.Pairwise fun a b => a.key ≤ b.key)
  (hkeys : ∀ x ∈ f.entries, x.key.length < 2 ^ 16)

/-- The opened iterator. -/
def opened (f : SSTableFile) (reader populate : Bool) : FileIterator :=
  openFile (optionsOf f reader populate) (fileBytes f) fun _ => none

include hf hl in
/-- All that matters of the sought iterator is what it yields. -/
theorem seeksExactly_of_seekTimes (h : SeekTimes (optionsOf f reader populate) key times (opened f reader populate) it) :
    SeeksExactly f reader populate key times ↔
      Yields valid current (next (optionsOf f reader populate)) it (f.entries.dropWhile (below key)) := by
  have hall := readAll_fileBytes hf hl (Nat.lt_succ_self f.blocks.length)
  refine ⟨?_, fun hyields => ⟨_, it, hall, h, hyields⟩⟩
  rintro ⟨es, it', hread, hseek, hyields⟩
  rw [hall] at hread
  cases hread
  rw [h.unique hseek]
  exact hyields

theorem storedBlocks_ne_nil (hsome : ∃ x ∈ f.entries, below key x = false) : storedBlocks f ≠ [] := by
  obtain ⟨x, hx, -⟩ := hsome
  obtain ⟨b, hb, -⟩ := List.mem_flatten.mp hx
  exact List.ne_nil_of_mem (List.mem_map_of_mem hb)

/-- An iterator that is not valid, and that a seek does not move, stays where it is. -/
theorem seekTimes_stays {o : Options} (hjump : jump o key it = it) (hvalid : it.valid = false) (n : ℕ) :
    SeekTimes o key n it it := by
  obtain ⟨it', rfl, hseek⟩ := SeekTimes.keeps (P := (it = ·)) (fun it' hit' => ⟨it', hit', seeksTo_iff.mpr (by
    subst hit'
    rw [hjump]
    exact (ends_of_stop (by rw [isBelow, hvalid, Bool.false_and])).mpr rfl)⟩) n rfl
  exact hseek

/-- What `ReadNextBlock` does when all entries are counted. -/
theorem ready_readNextBlock_ended {o : Options} {blocks : List StoredBlock} {s : Place} (hs : Ready blocks s it)
    (hread : (blocks.flatMap StoredBlock.pairs).length ≤ s.read) : Ready blocks s (readNextBlock o it) := by
  rw [readNextBlock, if_pos (by rw [hs.total, hs.read]; exact hread)]
  exact ⟨hs.total, hs.next, hs.file, hs.read, hs.blockData, hs.cache⟩

variable (reader populate)

include hf hl in
/-- A file that holds an entry is opened at its first one, and all of it is yielded. -/
theorem opened_yields (hne : f.entries ≠ []) : (opened f reader populate).valid = true ∧
    Yields valid current (next (optionsOf f reader populate)) (opened f reader populate) f.entries := by
  have h : Stored (fileBytes f) (storedBlocks f) (keyLengths f) (filterArea f ++ footer f) := stored_fileBytes hf hl
  have hentries : (storedBlocks f).flatMap StoredBlock.pairs = f.entries := storedBlocks_pairs f
  obtain ⟨sb, hsb⟩ : ∃ sb, (storedBlocks f)[0]? = some sb := by
    refine ⟨_, List.getElem?_eq_getElem (List.length_pos_iff.mpr fun hnil => hne ?_)⟩
    rw [← hentries, hnil, List.flatMap_nil]
  obtain ⟨s, hat⟩ := openFile_atTarget (o := optionsOf f reader populate) h rfl hsb
  have hcount := pairs_length_eq hsb
  rw [List.take_zero, List.flatMap_nil, List.length_nil] at hcount
  have hlt := (List.getElem?_eq_some_iff.mp hsb).1
  have hrest := hat.standing.yields_rest (o := optionsOf f reader populate) h rfl ((storedBlocks f).length - s.next)
    (by rw [hat.next]; omega) hat.inStep (by rw [hat.read, hat.next]; omega)
  have hall : sb.pairs ++ ((storedBlocks f).drop 1).flatMap StoredBlock.pairs = f.entries := by
    rw [← drop_flatMap hsb, List.drop_zero, hentries]
  rw [hat.next, hat.read, List.drop_zero, hall] at hrest
  exact ⟨hat.standing.valid, hrest.mpr (.inl (by omega))⟩

include hf hl hsorted hkeys

/-- Where the first entry from the key on is: in the target, or at the front of the block behind it. -/
theorem target_of_some (hsome : ∃ x ∈ f.entries, below key x = false) :
    ∃ sbt s, (storedBlocks f)[targetOf f key]? = some sbt ∧ f.blocks.getD (targetOf f key) [] = sbt.pairs ∧
      AtTarget (optionsOf f reader populate) (fileBytes f) (storedBlocks f) (targetOf f key) sbt s
        (jump (optionsOf f reader populate) key (opened f reader populate)) ∧
      (∀ x ∈ ((storedBlocks f).take (targetOf f key)).flatMap StoredBlock.pairs, below key x = true) ∧
      (∀ i sb, targetOf f key < i → (storedBlocks f)[i]? = some sb → ∀ x ∈ sb.pairs, below key x = false) ∧
      ((∃ x ∈ sbt.pairs, below key x = false) ∨
        (∀ x ∈ sbt.pairs, below key x = true) ∧ ∃ sb', (storedBlocks f)[targetOf f key + 1]? = some sb') := by
  have h : Stored (fileBytes f) (storedBlocks f) (keyLengths f) (filterArea f ++ footer f) := stored_fileBytes hf hl
  have hi := indexed_optionsOf hkeys reader populate
  have hentries : (storedBlocks f).flatMap StoredBlock.pairs = f.entries := storedBlocks_pairs f
  have horder : InKeyOrder (storedBlocks f) := by
    rw [InKeyOrder, hentries]
    exact hsorted
  obtain ⟨hlt, hbefore, hafter⟩ := seekTarget_spec h hi horder key (storedBlocks_ne_nil hsome)
  rw [show seekTarget (optionsOf f reader populate) key = targetOf f key from rfl] at hlt hbefore hafter
  rw [storedBlocks_length] at hlt
  have hget : f.blocks[targetOf f key]? = some f.blocks[targetOf f key] := List.getElem?_eq_getElem hlt
  have hsbt : (storedBlocks f)[targetOf f key]? = some (StoredBlock.ofPairs f.blocks[targetOf f key]) := by
    rw [storedBlocks_getElem, hget]
    rfl
  obtain ⟨s, hat⟩ := jump_atTarget (o := optionsOf f reader populate) h rfl hi rfl hsbt
  refine ⟨_, s, hsbt, ?_, hat, hbefore, hafter, ?_⟩
  · rw [StoredBlock.ofPairs_pairs, List.getD_eq_getElem?_getD, hget]
    rfl
  by_cases hhere : ∃ x ∈ (StoredBlock.ofPairs f.blocks[targetOf f key]).pairs, below key x = false
  · exact .inl hhere
  · have hall : ∀ x ∈ (StoredBlock.ofPairs f.blocks[targetOf f key]).pairs, below key x = true := by
      intro x hx
      by_contra hfalse
      exact hhere ⟨x, hx, Bool.eq_false_iff.mpr hfalse⟩
    refine .inr ⟨hall, ?_⟩
    by_contra hlast
    -- all entries would be below the key
    obtain ⟨x, hx, hfalse⟩ := hsome
    have hnone := List.getElem?_eq_none_iff.mp (Option.eq_none_iff_forall_ne_some.mpr fun sb' hsb' => hlast ⟨sb', hsb'⟩)
    have hsplit := flatMap_pairs_split (storedBlocks f) (targetOf f key)
    rw [drop_flatMap hsbt, hentries, List.drop_eq_nil_of_le hnone, List.flatMap_nil, List.append_nil] at hsplit
    rw [← hsplit, List.mem_append] at hx
    rcases hx with hx | hx
    · rw [hbefore x hx] at hfalse
      cases hfalse
    · rw [hall x hx] at hfalse
      cases hfalse

/-- A seek to a key that some entry reaches ends at an entry. -/
theorem exists_sought (hsome : ∃ x ∈ f.entries, below key x = false) :
    ∃ it, (∃ fuel, seekToKey (optionsOf f reader populate) key fuel (opened f reader populate) = some it) ∧
      it.valid = true ∧ it.current ∈ f.entries := by
  have h : Stored (fileBytes f) (storedBlocks f) (keyLengths f) (filterArea f ++ footer f) := stored_fileBytes hf hl
  have hentries : (storedBlocks f).flatMap StoredBlock.pairs = f.entries := storedBlocks_pairs f
  have hmem : ∀ sb ∈ storedBlocks f, ∀ x ∈ sb.pairs, x ∈ f.entries :=
    fun sb hsb x hx => hentries ▸ List.mem_flatMap.mpr ⟨sb, hsb, hx⟩
  obtain ⟨sbt, s, hsbt, -, hat, -, hafter, hhere | ⟨hall, sb', hsb'⟩⟩ :=
    target_of_some reader populate hf hl hsorted hkeys hsome
  · obtain ⟨it, ⟨s', p, hstand, -⟩, hends⟩ := hat.here h rfl hhere
    exact ⟨it, (hends it).mpr rfl, hstand.valid, hmem sbt hstand.member _ (List.mem_of_getElem? hstand.entry)⟩
  · have hle := pairs_length_le hsbt
    rw [drop_flatMap hsb', List.length_append] at hle
    obtain ⟨it, ⟨s', hstand, -⟩, hends⟩ :=
      hat.behind h rfl hsb' hall (hafter _ _ (Nat.lt_succ_self _) hsb') (by omega)
    exact ⟨it, (hends it).mpr rfl, hstand.valid, hmem sb' hstand.member _ (List.mem_of_getElem? hstand.entry)⟩

/-- With an entry from the key on, the seeks end at the first of them, and the condition says what follows. -/
theorem seeksExactly_iff_of_some (hsome : ∃ x ∈ f.entries, below key x = false) (htimes : 0 < times) :
    SeeksExactly f reader populate key times ↔ SeekCondition f reader populate key times := by
  have h : Stored (fileBytes f) (storedBlocks f) (keyLengths f) (filterArea f ++ footer f) := stored_fileBytes hf hl
  have hi := indexed_optionsOf hkeys reader populate
  have hentries : (storedBlocks f).flatMap StoredBlock.pairs = f.entries := storedBlocks_pairs f
  obtain ⟨n, rfl⟩ := Nat.exists_eq_succ_of_ne_zero (Nat.ne_of_gt htimes)
  obtain ⟨sbt, s, hsbt, hpairs, hat, hbefore, hafter, hhere | ⟨hall, sb', hsb'⟩⟩ :=
    target_of_some reader populate hf hl hsorted hkeys hsome
  · -- the first entry from the key on is in the target
    have hlt := (List.getElem?_eq_some_iff.mp hsbt).1
    rw [storedBlocks_length] at hlt
    have hnot : ¬ ∀ x ∈ sbt.pairs, below key x = true := by
      intro hall
      obtain ⟨x, hx, hfalse⟩ := hhere
      rw [hall x hx] at hfalse
      cases hfalse
    rw [SeekCondition, if_pos hsome, hpairs, if_neg fun hc => hnot hc.2.2]
    obtain ⟨it₁, hit₁, hends⟩ := hat.here h rfl hhere
    obtain ⟨it₂, hit₂, hrest⟩ := SeekTimes.keeps (fun it' hit' => ⟨it', hit', hit'.seek rfl⟩) n hit₁
    have htimes : SeekTimes (optionsOf f reader populate) key (n + 1) (opened f reader populate) it₂ :=
      ⟨it₁, (hends it₁).mpr rfl, hrest⟩
    have hyields := hit₂.yields_iff h rfl hsbt hbefore hhere
    rw [hentries] at hyields
    rw [seeksExactly_of_seekTimes hf hl htimes, hyields]
    refine ⟨.inr, fun hcond => ?_⟩
    rcases hcond with hone | hcond
    · exact .inl (by omega)
    · exact hcond
  · -- it is the first entry of the block behind the target
    have hlt := (List.getElem?_eq_some_iff.mp hsb').1
    rw [storedBlocks_length] at hlt
    rw [SeekCondition, if_pos hsome, hpairs]
    have hfirst := hafter _ _ (Nat.lt_succ_self _) hsb'
    have hle := pairs_length_le hsbt
    rw [drop_flatMap hsb', List.length_append] at hle
    obtain ⟨it₁, hit₁, hends⟩ := hat.behind h rfl hsb' hall hfirst (by omega)
    have hstart : ∃ fuel, seekToKey (optionsOf f reader populate) key fuel (opened f reader populate) = some it₁ :=
      (hends it₁).mpr rfl
    cases hput : populate && reader with
    | false =>
      rw [if_neg (by simp)]
      obtain ⟨it₂, hit₂, hrest⟩ := SeekTimes.keeps
        (fun it' hit' => hit'.seek h rfl hi rfl hsbt hsb' hput hall hfirst) n hit₁
      have htimes : SeekTimes (optionsOf f reader populate) key (n + 1) (opened f reader populate) it₂ :=
        ⟨it₁, hstart, hrest⟩
      have hyields := hit₂.yields_iff h rfl hsbt hsb' hbefore hall hfirst
      rw [hentries] at hyields
      rw [seeksExactly_of_seekTimes hf hl htimes, hyields]
      exact ⟨.inr, fun hcond => hcond.resolve_left (by omega)⟩
    | true =>
      cases n with
      | zero =>
        rw [if_neg (by simp)]
        have hyields := hit₁.yields_iff h rfl hsbt hsb' hbefore hall hfirst
        rw [hentries] at hyields
        have htimes : SeekTimes (optionsOf f reader populate) key (0 + 1) (opened f reader populate) it₁ :=
          ⟨it₁, hstart, rfl⟩
        rw [seeksExactly_of_seekTimes hf hl htimes, hyields]
        exact ⟨.inr, fun hcond => hcond.resolve_left (by omega)⟩
      | succ n =>
        rw [if_pos ⟨rfl, by omega, hall⟩]
        have hreader : (optionsOf f reader populate).reader = true := (Bool.and_eq_true _ _ ▸ hput).2
        obtain ⟨it₂, hit₂, hsecond⟩ := (hit₁.filled hput).seek h rfl hi rfl hsbt hsb' hreader hall hfirst
        obtain ⟨it₃, hit₃, hrest⟩ := SeekTimes.keeps
          (fun it' hit' => hit'.filled.seek h rfl hi rfl hsbt hsb' hreader hall hfirst) n hit₂
        have htimes : SeekTimes (optionsOf f reader populate) key (n + 1 + 1) (opened f reader populate) it₃ :=
          ⟨it₁, hstart, it₂, hsecond, hrest⟩
        have hyields := hit₃.yields_iff (o := optionsOf f reader populate) h rfl hsbt hsb' hbefore hall hafter
        rw [hentries, storedBlocks_length] at hyields
        rw [seeksExactly_of_seekTimes hf hl htimes, hyields]
        exact ⟨.inr, fun hcond => hcond.resolve_left (by omega)⟩

/-- Without an entry from the key on, nothing may be read behind the data blocks. -/
theorem seeksExactly_of_none (hnone : ∀ x ∈ f.entries, below key x = true) (htimes : 0 < times)
    (hcond : SeekCondition f reader populate key times) : SeeksExactly f reader populate key times := by
  have h : Stored (fileBytes f) (storedBlocks f) (keyLengths f) (filterArea f ++ footer f) := stored_fileBytes hf hl
  have hi := indexed_optionsOf hkeys reader populate
  have hentries : (storedBlocks f).flatMap StoredBlock.pairs = f.entries := storedBlocks_pairs f
  have hdrop : f.entries.dropWhile (below key) = [] := List.dropWhile_eq_nil_iff.mpr hnone
  -- it is enough that the sought iterator is not valid
  suffices hended : ∃ it, SeekTimes (optionsOf f reader populate) key times (opened f reader populate) it ∧
      it.valid = false by
    obtain ⟨it, hseek, hvalid⟩ := hended
    rw [seeksExactly_of_seekTimes hf hl hseek, hdrop]
    exact (yields_of_stop hvalid).mpr rfl
  obtain ⟨n, rfl⟩ := Nat.exists_eq_succ_of_ne_zero (Nat.ne_of_gt htimes)
  rcases Nat.eq_zero_or_pos f.blocks.length with hempty | hpos
  · -- there is nothing to read
    have hoffsets : (optionsOf f reader populate).blockOffsets.isEmpty = true := by
      rw [hi.offsets, storedBlocks_length, hempty]
      rfl
    obtain ⟨s₁, s₂, s₃, s₄, h₁, h₂, h₃, h₄, -⟩ := readHeader_stored h
    have hzero : ((storedBlocks f).flatMap StoredBlock.pairs).length = 0 := by
      rw [List.length_eq_zero_iff.mp ((storedBlocks_length f).trans hempty)]
      rfl
    have hvalid : (opened f reader populate).valid = false := by
      rw [opened, openFile, h₁]
      simp only [h₂, h₃, h₄, hzero]
      rw [readNextBlock, if_pos (Nat.le_refl 0)]
      rfl
    exact ⟨_, seekTimes_stays (by rw [jump, hoffsets, Bool.true_or, if_pos rfl]) hvalid _, hvalid⟩
  · have hne : storedBlocks f ≠ [] := List.ne_nil_of_length_pos (by rw [storedBlocks_length]; exact hpos)
    have horder : InKeyOrder (storedBlocks f) := by
      rw [InKeyOrder, hentries]
      exact hsorted
    obtain ⟨hlt, -, hafter⟩ := seekTarget_spec h hi horder key hne
    have hbelow : ∀ sb ∈ storedBlocks f, ∀ x ∈ sb.pairs, below key x = true :=
      fun sb hsb x hx => hnone x (hentries ▸ List.mem_flatMap.mpr ⟨sb, hsb, hx⟩)
    obtain ⟨sbt, hsbt⟩ : ∃ sb, (storedBlocks f)[seekTarget (optionsOf f reader populate) key]? = some sb :=
      ⟨_, List.getElem?_eq_getElem hlt⟩
    have hlast : seekTarget (optionsOf f reader populate) key + 1 = (storedBlocks f).length := by
      by_contra hmore
      obtain ⟨sb, hsb⟩ : ∃ sb, (storedBlocks f)[seekTarget (optionsOf f reader populate) key + 1]? = some sb :=
        ⟨_, List.getElem?_eq_getElem (by omega)⟩
      obtain ⟨x, hx⟩ := List.exists_mem_of_length_pos (pairs_pos h (List.mem_of_getElem? hsb))
      have hfalse := hafter _ _ (Nat.lt_succ_self _) hsb x hx
      rw [hbelow _ (List.mem_of_getElem? hsb) x hx] at hfalse
      cases hfalse
    -- the loop of the first seek ends behind the target
    obtain ⟨s, hat⟩ := jump_atTarget h rfl hi rfl hsbt
    obtain ⟨it', hready, hends⟩ := hat.standing.pass (o := optionsOf f reader populate) h rfl
      (by rw [List.drop_zero]; exact hbelow _ (List.mem_of_getElem? hsbt))
    have hcond' : f.blocks.length ≤ 1 ∨ (n = 0 ∧ behindCount (fileBytes f) (storedBlocks f) = 0) := by
      have hno : ¬ ∃ x ∈ f.entries, below key x = false := by
        rintro ⟨x, hx, hfalse⟩
        rw [hnone x hx] at hfalse
        cases hfalse
      rw [SeekCondition, if_neg hno] at hcond
      exact hcond.imp_right fun hc => ⟨Nat.succ.inj hc.1, hc.2⟩
    have hcount := pairs_length_eq hsbt
    rw [List.drop_eq_nil_of_le (Nat.le_of_eq hlast.symm), List.flatMap_nil, List.length_nil, Nat.add_zero] at hcount
    have hzero := take_pairs_eq_zero h hsbt
    have hstart : (readNextBlock (optionsOf f reader populate) it').valid = false →
        ∃ fuel, seekToKey (optionsOf f reader populate) key fuel (opened f reader populate) =
          some (readNextBlock (optionsOf f reader populate) it') := fun hvalid =>
      seeksTo_iff.mpr ((hends _).mpr ((ends_of_stop (by rw [isBelow, hvalid, Bool.false_and])).mpr rfl))
    rw [storedBlocks_length] at hlast
    rcases hcond' with hone | ⟨rfl, hbehind⟩
    · have hread : ((storedBlocks f).flatMap StoredBlock.pairs).length ≤ s.read := by
        rw [hat.read, hcount, hzero.mpr (by omega), Nat.zero_add]
      have hvalid := readNextBlock_ended (o := optionsOf f reader populate) hready hread
      have hready' := ready_readNextBlock_ended (o := optionsOf f reader populate) hready hread
      exact ⟨_, ⟨_, hstart hvalid, seekTimes_stays (jump_stays hready' hat.next) hvalid n⟩, hvalid⟩
    · have hvalid : (readNextBlock (optionsOf f reader populate) it').valid = false := by
        rcases Nat.lt_or_ge s.read ((storedBlocks f).flatMap StoredBlock.pairs).length with hopen | hread
        · rw [readNextBlock_behind rfl hready hopen hat.inStep (by rw [hat.next, storedBlocks_length, hlast]), hbehind]
          rfl
        · exact readNextBlock_ended hready hread
      exact ⟨_, ⟨_, hstart hvalid, rfl⟩, hvalid⟩

/-- The condition is enough, and with an entry from the key on it is what the seeks need. -/
theorem seeksExactly_iff (htimes : 0 < times) :
    (SeekCondition f reader populate key times → SeeksExactly f reader populate key times) ∧
      ((∃ x ∈ f.entries, below key x = false) →
        SeeksExactly f reader populate key times → SeekCondition f reader populate key times) := by
  refine ⟨fun hcond => ?_, fun hsome => (seeksExactly_iff_of_some reader populate hf hl hsorted hkeys hsome htimes).mp⟩
  by_cases hsome : ∃ x ∈ f.entries, below key x = false
  · exact (seeksExactly_iff_of_some reader populate hf hl hsorted hkeys hsome htimes).mpr hcond
  · refine seeksExactly_of_none reader populate hf hl hsorted hkeys (fun x hx => ?_) htimes hcond
    by_contra hfalse
    exact hsome ⟨x, hx, Bool.eq_false_iff.mpr hfalse⟩

end Exact

def smallFile : SSTableFile := SSTableFile.write (fun _ => (64, 1)) [⟨[1], [2], 3, false⟩, ⟨[2], [], 4, true⟩] []

theorem seeksExactly_smallFile : (SeekCondition smallFile true true [2] 2 → SeeksExactly smallFile true true [2] 2) ∧
    ((∃ x ∈ smallFile.entries, below [2] x = false) →
      SeeksExactly smallFile true true [2] 2 → SeekCondition smallFile true true [2] 2) :=
  seeksExactly_iff true true (SSTableFile.write_wellFormed _ _ _) ⟨by decide, by decide, by decide⟩ (by decide) (by decide)
    (by decide)

/-! ## A key that reads as a block -/

/-- As the bytes behind the last block it has four bytes of payload, which say that there is an entry. -/
def blockKey : Bytes := [0, 0, 0, 0, 0, 4, 0, 0, 0, 1, 0, 0, 0]

def largeValue : Bytes := List.replicate 4080 0

theorem largeValue_length : largeValue.length = 4080 := List.length_replicate

def blockEntries : List KeyValuePair :=
  [⟨blockKey, largeValue, 1, false⟩, ⟨[1], [], 2, false⟩, ⟨[2], [], 3, false⟩]

/-- The second block holds two entries, and a seek to the second of them jumps there. -/
def blockKeyFile : SSTableFile := SSTableFile.write (fun _ => (64, 1)) blockEntries []

theorem blockKeyFile_blocks : blockKeyFile.blocks =
    [[⟨blockKey, largeValue, 1, false⟩], [⟨[1], [], 2, false⟩, ⟨[2], [], 3, false⟩]] := by
  simp [largeValue_length, blockKeyFile, blockEntries, blockKey, SSTableFile.write,
    SSTableFile.packBlocks, Pack.pack, Pack.packFrom, SSTableFile.wireSize, Config.sstableBlockSize]

theorem blockKeyFile_entries : blockKeyFile.entries = blockEntries := SSTableFile.entries_write _ _ _

theorem blockKeyFile_limits : Limits blockKeyFile := by
  refine ⟨?_, ?_, ?_⟩
  · rw [blockKeyFile_entries]
    decide
  · rw [blockKeyFile_blocks]
    simp [blockPayload, entryBytes, largeValue_length, blockKey]
  · rw [blockKeyFile_entries]
    simp [blockEntries]

theorem behindCount_blockKeyFile : behindCount (fileBytes blockKeyFile) (storedBlocks blockKeyFile) = 1 := by
  have h : Stored (fileBytes blockKeyFile) (storedBlocks blockKeyFile) (keyLengths blockKeyFile)
      (filterArea blockKeyFile ++ footer blockKeyFile) :=
    stored_fileBytes (SSTableFile.write_wellFormed _ _ _) blockKeyFile_limits
  have hahead := ahead_offset h (storedBlocks blockKeyFile).length
  rw [List.drop_length, List.flatMap_nil, List.nil_append, filterArea] at hahead
  have hkey : blockKeyFile.minKey = [0, 0, 0, 0] ++ (Config.compressionNone ::
      (leBytes 4 [(1 : UInt8), 0, 0, 0].length ++ [1, 0, 0, 0])) := rfl
  rw [hkey] at hahead
  rw [behindCount, behind, readFile_chunk hahead.left.left rfl (by decide)]
  rfl

theorem seek_yields_garbage : ¬ SeeksExactly blockKeyFile false false [2] 1 := by
  have hf : blockKeyFile.WellFormed := SSTableFile.write_wellFormed _ _ _
  have hsorted : blockKeyFile.entries.Pairwise fun a b => a.key ≤ b.key := by
    rw [blockKeyFile_entries]
    simp only [blockEntries, List.pairwise_cons]
    exact ⟨by decide, by decide, by simp, .nil⟩
  have hkeys : ∀ x ∈ blockKeyFile.entries, x.key.length < 2 ^ 16 := by
    rw [blockKeyFile_entries]
    simp [blockEntries, blockKey]
  have hsome : ∃ x ∈ blockKeyFile.entries, below [2] x = false := by
    rw [blockKeyFile_entries]
    exact ⟨⟨[2], [], 3, false⟩, by simp [blockEntries], by decide⟩
  rw [seeksExactly_iff_of_some false false hf blockKeyFile_limits hsorted hkeys hsome Nat.one_pos]
  have htarget : targetOf blockKeyFile [2] ≠ 0 := by
    intro hzero
    have h : Stored (fileBytes blockKeyFile) (storedBlocks blockKeyFile) (keyLengths blockKeyFile)
        (filterArea blockKeyFile ++ footer blockKeyFile) := stored_fileBytes hf blockKeyFile_limits
    have horder : InKeyOrder (storedBlocks blockKeyFile) := by
      rw [InKeyOrder, storedBlocks_pairs]
      exact hsorted
    have hsb : (storedBlocks blockKeyFile)[1]? =
        some (StoredBlock.ofPairs [⟨[1], [], 2, false⟩, ⟨[2], [], 3, false⟩]) := by
      rw [storedBlocks_getElem, blockKeyFile_blocks]
      rfl
    obtain ⟨-, -, hafter⟩ := seekTarget_spec h (indexed_optionsOf hkeys false false) horder [2]
      (storedBlocks_ne_nil hsome)
    rw [← targetOf, hzero] at hafter
    have hfalse := hafter 1 _ Nat.one_pos hsb ⟨[1], [], 2, false⟩ (by rw [StoredBlock.ofPairs_pairs]; exact List.mem_cons_self)
    exact absurd hfalse (by decide)
  rw [SeekCondition, blockKeyFile_blocks, if_pos hsome, if_neg (by simp), behindCount_blockKeyFile]
  simp [htarget]

end Kvdb.SSTableBytes.FileIterator
