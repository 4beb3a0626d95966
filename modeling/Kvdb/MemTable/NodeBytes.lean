import Kvdb.Lib.FixedArray
import Kvdb.Lib.Lexicographic
import Kvdb.Lib.Refines
import Kvdb.MemTable.Heap

/-! # The bytes of an internal node (`bptree.hpp`)

The separators of a node lie one behind the other in `key_data`, in the order of their insertion; `key_offs` and `key_lens`
have their places in the order of the keys. The pointers are in two arrays beside them. A function that would write past
the end of one of these arrays has no result. `store` is the node that `Heap` works on. -/
namespace Kvdb
set_option autoImplicit false

open Region FixedArray
open Nodes (internalFanout)

/-- `StaticVec<T*, kInternalFanout + 1>`. -/
structure StaticVec where
  data : ℕ → Option ℕ
  n : ℕ

namespace StaticVec

def capacity : ℕ := internalFanout + 1

def empty : StaticVec := ⟨fun _ => none, 0⟩

/-- The element at a place, and a null pointer behind the last one. -/
def get (v : StaticVec) (i : ℕ) : Option ℕ := if i < v.n then v.data i else none

/-- `operator[]` on the left of an assignment. -/
def set (v : StaticVec) (i : ℕ) (x : Option ℕ) : StaticVec := { v with data := Function.update v.data i x }

def pushBack (v : StaticVec) (x : Option ℕ) : Option StaticVec :=
  if v.n < capacity then some ⟨Function.update v.data v.n x, v.n + 1⟩ else none

def insert (v : StaticVec) (pos : ℕ) (x : Option ℕ) : Option StaticVec :=
  if v.n < capacity then some ⟨insertAt v.data v.n pos x, v.n + 1⟩ else none

/-- The elements that `begin` and `end` delimit. -/
def toList (v : StaticVec) : List (Option ℕ) := read v.data 0 v.n

/-! ## As a list -/

@[simp] theorem length_toList (v : StaticVec) : v.toList.length = v.n := length_read ..

theorem get_eq (v : StaticVec) (i : ℕ) : v.get i = (v.toList[i]?).join := by
  rw [toList, getElem?_front, get]
  split <;> rfl

theorem toList_set (v : StaticVec) (i : ℕ) (x : Option ℕ) : (v.set i x).toList = v.toList.set i x := read_update ..

theorem pushBack_spec {v : StaticVec} (hroom : v.n < capacity) (x : Option ℕ) :
    ∃ w, v.pushBack x = some w ∧ w.toList = v.toList ++ [x] ∧ w.n = v.n + 1 :=
  ⟨_, if_pos hroom, read_push .., rfl⟩

theorem insert_spec {v : StaticVec} (hroom : v.n < capacity) {pos : ℕ} (hpos : pos ≤ v.n) (x : Option ℕ) :
    ∃ w, v.insert pos x = some w ∧ w.toList = v.toList.insertIdx pos x ∧ w.n = v.n + 1 :=
  ⟨_, if_pos hroom, read_insertAt_self v.data x hpos, rfl⟩

/-- One round of a loop that pushes the elements of another array. -/
theorem toList_pushed {src v w : StaticVec} {i : ℕ} (hw : w.toList = v.toList ++ [src.data i]) (hi : i < src.n) (k : ℕ) :
    w.toList ++ (src.toList.drop (i + 1)).take k = v.toList ++ (src.toList.drop i).take (k + 1) := by
  have hget : src.toList[i]? = some (src.data i) := by rw [toList, getElem?_front, if_pos hi]
  obtain ⟨hlt, hat⟩ := List.getElem?_eq_some_iff.mp hget
  rw [hw, List.append_assoc, List.drop_eq_getElem_cons hlt, List.take_succ_cons, hat]
  rfl

end StaticVec

/-- `InternalNode::Store`. -/
structure NodeBytes where
  keyCount : ℕ
  keyDataEnd : ℕ
  keyOffs : ℕ → ℕ
  keyLens : ℕ → ℕ
  keyData : ℕ → UInt8
  children : StaticVec
  childLeaves : StaticVec

/-- `memcmp` of two regions of one length. -/
def memcmp (xs ys : Bytes) : Ordering := if xs < ys then .lt else if ys < xs then .gt else .eq

namespace NodeBytes

open Heap (keyBufSize)

/-- A new node; what `key_offs`, `key_lens` and `key_data` hold is zero. -/
def empty : NodeBytes := ⟨0, 0, fun _ => 0, fun _ => 0, fun _ => 0, StaticVec.empty, StaticVec.empty⟩

/-- `KeyStr(i)`. -/
def keyStr (s : NodeBytes) (i : ℕ) : Bytes := read s.keyData (s.keyOffs i) (s.keyLens i)

/-- `CompareKey(i, k)`. -/
def compareKey (s : NodeBytes) (i : ℕ) (k : Bytes) : Ordering :=
  let len := s.keyLens i
  let m := if len < k.length % 2 ^ 16 then len else k.length % 2 ^ 16
  match memcmp (read s.keyData (s.keyOffs i) m) (k.take m) with
  | .eq => if len < k.length then .lt else if k.length < len then .gt else .eq
  | c => c

def insKey (s : NodeBytes) (pos : ℕ) (k : Bytes) : Option NodeBytes :=
  let len := k.length % 2 ^ 16
  if s.keyCount < internalFanout ∧ s.keyDataEnd + len ≤ keyBufSize then
    some { s with
      keyOffs := insertAt s.keyOffs s.keyCount pos s.keyDataEnd
      keyLens := insertAt s.keyLens s.keyCount pos len
      keyData := write s.keyData s.keyDataEnd (k.take len)
      keyDataEnd := (s.keyDataEnd + len) % 2 ^ 16
      keyCount := (s.keyCount + 1) % 2 ^ 8 }
  else none

def pushKey (s : NodeBytes) (k : Bytes) : Option NodeBytes := s.insKey s.keyCount k

def resizeKeys (s : NodeBytes) (n : ℕ) : NodeBytes :=
  { s with keyCount := n, keyDataEnd := if 0 < n then s.keyOffs (n - 1) + s.keyLens (n - 1) else 0 }

def copyKeysFrom (s src : NodeBytes) : NodeBytes :=
  { s with
    keyCount := src.keyCount
    keyDataEnd := src.keyDataEnd
    keyOffs := src.keyOffs
    keyLens := src.keyLens
    keyData := write s.keyData 0 (read src.keyData 0 src.keyDataEnd) }

def setChild (s : NodeBytes) (i : ℕ) (c : Option ℕ) : NodeBytes := { s with children := s.children.set i c }
def setLeaf (s : NodeBytes) (i : ℕ) (l : Option ℕ) : NodeBytes := { s with childLeaves := s.childLeaves.set i l }

def insChild (s : NodeBytes) (pos : ℕ) (c : Option ℕ) : Option NodeBytes :=
  (s.children.insert pos c).map fun v => { s with children := v }

def insLeaf (s : NodeBytes) (pos : ℕ) (l : Option ℕ) : Option NodeBytes :=
  (s.childLeaves.insert pos l).map fun v => { s with childLeaves := v }

def pushChild (s : NodeBytes) (c : Option ℕ) : Option NodeBytes :=
  (s.children.pushBack c).map fun v => { s with children := v }

def pushLeaf (s : NodeBytes) (l : Option ℕ) : Option NodeBytes :=
  (s.childLeaves.pushBack l).map fun v => { s with childLeaves := v }

/-- `FindChild`. -/
def findChild (s : NodeBytes) (key : Bytes) : ℕ :=
  Bisect.bisect (fun i => decide (s.compareKey i key = .gt)) (fun lo hi => (lo + hi) / 2) (List.range s.keyCount)
    s.keyCount 0 s.keyCount

/-- The loops of `SplitCoW` that push the separators of a half. -/
def pushKeysFrom (src : NodeBytes) : ℕ → ℕ → NodeBytes → Option NodeBytes
  | 0, _, s => some s
  | k + 1, i, s => (s.pushKey (src.keyStr i)).bind (pushKeysFrom src k (i + 1))

/-- The loops that copy the pointers of a node into another one. -/
def pushChildrenFrom (src : NodeBytes) : ℕ → ℕ → NodeBytes → Option NodeBytes
  | 0, _, s => some s
  | k + 1, i, s => (s.pushChild (src.children.data i)).bind (pushChildrenFrom src k (i + 1))

def pushLeavesFrom (src : NodeBytes) : ℕ → ℕ → NodeBytes → Option NodeBytes
  | 0, _, s => some s
  | k + 1, i, s => (s.pushLeaf (src.childLeaves.data i)).bind (pushLeavesFrom src k (i + 1))

/-- The loops that fill the two arrays of a half together. -/
def pushPointersFrom (src : NodeBytes) : ℕ → ℕ → NodeBytes → Option NodeBytes
  | 0, _, s => some s
  | k + 1, i, s => ((s.pushChild (src.children.data i)).bind fun s' => s'.pushLeaf (src.childLeaves.data i)).bind
      (pushPointersFrom src k (i + 1))

/-- The copy of a node that `SplitCoW` begins with. -/
def copyNode (cp : NodeBytes) : Option NodeBytes :=
  (pushChildrenFrom cp cp.children.n 0 (empty.copyKeysFrom cp)).bind (pushLeavesFrom cp cp.childLeaves.n 0)

/-- The pointers to the pair of pages of a split. -/
def putPair (s : NodeBytes) (idx : ℕ) : Heap.Pair → Option NodeBytes
  | .leaves l r =>
    (((s.setChild idx none).setLeaf idx (some l)).insChild (idx + 1) none).bind fun s' => s'.insLeaf (idx + 1) (some r)
  | .nodes l r =>
    (((s.setChild idx (some l)).setLeaf idx none).insChild (idx + 1) (some r)).bind fun s' => s'.insLeaf (idx + 1) none

/-- The pointers of a new root. -/
def pushPair (s : NodeBytes) : Heap.Pair → Option NodeBytes
  | .leaves l r => (((s.pushChild none).bind (pushLeaf · (some l))).bind (pushChild · none)).bind (pushLeaf · (some r))
  | .nodes l r => (((s.pushChild (some l)).bind (pushLeaf · none)).bind (pushChild · (some r))).bind (pushLeaf · none)

/-- A half of an overfull node: `k` separators from the `i`th on, and the pointers beside them. -/
def half (src : NodeBytes) (i k : ℕ) : Option NodeBytes :=
  (pushKeysFrom src k i (empty.resizeKeys 0)).bind (pushPointersFrom src (k + 1) i)

/-- The node that the pointers and the separators stand for. -/
def store (s : NodeBytes) : Heap.Store :=
  ⟨read s.keyStr 0 s.keyCount, s.keyDataEnd, s.children.toList, s.childLeaves.toList⟩

/-! ## Comparing -/

theorem length_keyStr (s : NodeBytes) (i : ℕ) : (s.keyStr i).length = s.keyLens i := length_read ..

theorem memcmp_eq_gt {xs ys : Bytes} : memcmp xs ys = .gt ↔ ys < xs := by
  unfold memcmp
  split
  · next h => exact iff_of_false nofun (not_lt_of_gt h)
  · split
    · next h => exact iff_of_true rfl h
    · next h => exact iff_of_false nofun h

theorem memcmp_eq_eq {xs ys : Bytes} : memcmp xs ys = .eq ↔ xs = ys := by
  unfold memcmp
  split
  · next h => exact iff_of_false nofun (ne_of_lt h)
  · split
    · next h => exact iff_of_false nofun (ne_of_gt h)
    · next h h' => exact iff_of_true rfl (le_antisymm (not_lt.mp h') (not_lt.mp h))

/-- For a key with a length of 16 bits the test of `FindChild` is that of the order of the strings. -/
theorem compareKey_eq_gt (s : NodeBytes) (i : ℕ) {k : Bytes} (hk : k.length < 2 ^ 16) :
    s.compareKey i k = .gt ↔ k < s.keyStr i := by
  have hm : (if s.keyLens i < k.length % 2 ^ 16 then s.keyLens i else k.length % 2 ^ 16) =
      min k.length (s.keyStr i).length := by
    rw [Nat.mod_eq_of_lt hk, length_keyStr]
    split <;> omega
  have htake : read s.keyData (s.keyOffs i) (min k.length (s.keyStr i).length) =
      (s.keyStr i).take (min k.length (s.keyStr i).length) := by
    refine (take_read s.keyData (s.keyOffs i) ?_).symm
    rw [length_keyStr]
    exact Nat.min_le_right ..
  rw [Lexicographic.lt_iff_take rfl, compareKey]
  simp only [hm, htake]
  generalize hxs : (s.keyStr i).take (min k.length (s.keyStr i).length) = xs
  generalize hys : k.take (min k.length (s.keyStr i).length) = ys
  rw [length_keyStr]
  cases hcmp : memcmp xs ys with
  | lt =>
    have hne : memcmp xs ys ≠ .gt ∧ memcmp xs ys ≠ .eq := by rw [hcmp]; exact ⟨nofun, nofun⟩
    rw [Ne, Ne, memcmp_eq_gt, memcmp_eq_eq] at hne
    exact iff_of_false nofun fun h => h.elim hne.1 fun heq => hne.2 heq.1.symm
  | gt => exact iff_of_true rfl (.inl (memcmp_eq_gt.mp hcmp))
  | eq =>
    have heq := memcmp_eq_eq.mp hcmp
    subst heq
    simp only [lt_irrefl, false_or, true_and]
    split
    · exact iff_of_false nofun (by omega)
    · split
      · exact iff_of_true rfl (by omega)
      · exact iff_of_false nofun (by omega)

theorem findChild_eq (s : NodeBytes) {key : Bytes} (hkey : key.length < 2 ^ 16) :
    s.findChild key = Nodes.findChild s.store.keys key := by
  have hkeys : s.store.keys = (List.range s.keyCount).map s.keyStr := read_zero ..
  have htest : (fun i => decide (s.compareKey i key = .gt)) = fun i => decide (key < s.keyStr i) := by
    funext i
    exact decide_eq_decide.mpr (s.compareKey_eq_gt i hkey)
  rw [Nodes.findChild, hkeys, Bisect.bisect_map, List.length_map, List.length_range, findChild, htest]

/-! ## The buffer of the separators -/

/-- The separators lie in the part of the buffer that is in use. -/
structure Buffered (s : NodeBytes) : Prop where
  keys : ∀ i < s.keyCount, s.keyOffs i + s.keyLens i ≤ s.keyDataEnd
  top : s.keyDataEnd ≤ keyBufSize
  count : s.keyCount ≤ internalFanout

theorem empty_buffered : empty.Buffered :=
  ⟨fun _ hi => absurd hi (Nat.not_lt_zero _), Nat.zero_le _, Nat.zero_le _⟩

theorem length_keys (s : NodeBytes) : s.store.keys.length = s.keyCount := length_read ..

theorem Buffered.keyStr_lt {s : NodeBytes} (hs : s.Buffered) {i : ℕ} (hi : i < s.keyCount) :
    (s.keyStr i).length < 2 ^ 16 := by
  have hkey := hs.keys i hi
  have htop : s.keyDataEnd ≤ 1024 := hs.top
  rw [length_keyStr]
  omega

/-- The string at a place with the same bytes. -/
theorem keyStr_congr {s s' : NodeBytes} {i j : ℕ} (hoff : s'.keyOffs j = s.keyOffs i) (hlen : s'.keyLens j = s.keyLens i)
    (hsame : ∀ x < s.keyOffs i + s.keyLens i, s'.keyData x = s.keyData x) : s'.keyStr j = s.keyStr i := by
  rw [keyStr, keyStr, hoff, hlen]
  exact read_congr fun k hk => hsame _ (by omega)

theorem insKey_refines {s : NodeBytes} (hs : s.Buffered) (hroom : s.keyCount < internalFanout) {pos : ℕ}
    (hpos : pos ≤ s.keyCount) {k : Bytes} (hk : k.length < 2 ^ 16) :
    Refines store (fun s' => s'.Buffered ∧ s'.keyCount = s.keyCount + 1 ∧ s'.children = s.children ∧
      s'.childLeaves = s.childLeaves) (s.insKey pos k) (s.store.insKey pos k) := by
  have htop : s.keyDataEnd ≤ 1024 := hs.top
  have hcount : s.keyCount < 16 := hroom
  have hend : s.store.keyDataEnd = s.keyDataEnd := rfl
  rw [insKey, Heap.Store.insKey, Nat.mod_eq_of_lt hk, List.take_length, hend]
  by_cases hfit : s.keyDataEnd + k.length ≤ keyBufSize
  · rw [if_pos ⟨hroom, hfit⟩, if_pos hfit]
    have hfit' : s.keyDataEnd + k.length ≤ 1024 := hfit
    rw [Nat.mod_eq_of_lt (show s.keyDataEnd + k.length < 2 ^ 16 by omega),
      Nat.mod_eq_of_lt (show s.keyCount + 1 < 2 ^ 8 by omega)]
    generalize hs' : (⟨s.keyCount + 1, s.keyDataEnd + k.length, insertAt s.keyOffs s.keyCount pos s.keyDataEnd,
      insertAt s.keyLens s.keyCount pos k.length, write s.keyData s.keyDataEnd k, s.children, s.childLeaves⟩ : NodeBytes) = s'
    have hdata : ∀ x < s.keyDataEnd, s'.keyData x = s.keyData x := by
      intro x hx
      rw [← hs']
      exact write_before s.keyData k hx
    have hlow : ∀ i < pos, s'.keyOffs i = s.keyOffs i ∧ s'.keyLens i = s.keyLens i := by
      intro i hi
      rw [← hs']
      exact ⟨insertAt_before _ _ hi, insertAt_before _ _ hi⟩
    have hhigh : ∀ i < s.keyCount, pos ≤ i → s'.keyOffs (i + 1) = s.keyOffs i ∧ s'.keyLens (i + 1) = s.keyLens i := by
      intro i hi hle
      rw [← hs']
      exact ⟨insertAt_behind _ _ hle hi, insertAt_behind _ _ hle hi⟩
    have hself : s'.keyOffs pos = s.keyDataEnd ∧ s'.keyLens pos = k.length := by
      rw [← hs']
      exact ⟨insertAt_self .., insertAt_self ..⟩
    have hold : ∀ i < s.keyCount, ∀ j, s'.keyOffs j = s.keyOffs i ∧ s'.keyLens j = s.keyLens i →
        s'.keyStr j = s.keyStr i := fun i hi j hj =>
      keyStr_congr hj.1 hj.2 fun x hx => hdata x (Nat.lt_of_lt_of_le hx (hs.keys i hi))
    have hnew : s'.keyStr pos = k := by
      rw [keyStr, hself.1, hself.2, ← hs']
      exact read_write ..
    have hcount' : s'.keyCount = s.keyCount + 1 := by rw [← hs']
    have hend' : s'.keyDataEnd = s.keyDataEnd + k.length := by rw [← hs']
    refine Refines.pure ?_ ⟨⟨fun i hi => ?_, by rw [hend']; exact hfit, by rw [hcount']; exact hroom⟩, hcount', ?_, ?_⟩
    · have hkeys : read s'.keyStr 0 (s.keyCount + 1) = (read s.keyStr 0 s.keyCount).insertIdx pos k :=
        read_insertAt hpos (fun i hi => hold i (by omega) i (hlow i hi)) hnew
          fun i hi hle => hold i hi (i + 1) (hhigh i hi hle)
      rw [store, hcount', hkeys, hend', ← hs']
      rfl
    · rw [hcount'] at hi
      rw [hend']
      rcases Nat.lt_trichotomy i pos with hlt | rfl | hgt
      · have hkey := hs.keys i (by omega)
        rw [(hlow i hlt).1, (hlow i hlt).2]
        omega
      · rw [hself.1, hself.2]
      · obtain ⟨j, rfl⟩ := Nat.exists_eq_add_one_of_ne_zero (Nat.ne_of_gt (Nat.zero_lt_of_lt hgt))
        have hkey := hs.keys j (by omega)
        rw [(hhigh j (by omega) (by omega)).1, (hhigh j (by omega) (by omega)).2]
        omega
    · rw [← hs']
    · rw [← hs']
  · rw [if_neg fun h => hfit h.2, if_neg hfit]
    exact Refines.none

theorem pushKey_refines {s : NodeBytes} (hs : s.Buffered) (hroom : s.keyCount < internalFanout) {k : Bytes}
    (hk : k.length < 2 ^ 16) : Refines store (fun s' => s'.Buffered ∧ s'.keyCount = s.keyCount + 1 ∧
      s'.children = s.children ∧ s'.childLeaves = s.childLeaves) (s.pushKey k) (s.store.pushKey k) := by
  rw [pushKey, Heap.Store.pushKey, length_keys]
  exact insKey_refines hs hroom (Nat.le_refl _) hk

theorem copyKeysFrom_spec (s : NodeBytes) {src : NodeBytes} (hs : src.Buffered) :
    (s.copyKeysFrom src).Buffered ∧ (s.copyKeysFrom src).store = { s.store with
      keys := src.store.keys, keyDataEnd := src.store.keyDataEnd } := by
  refine ⟨⟨hs.keys, hs.top, hs.count⟩, ?_⟩
  have hkeys : read (s.copyKeysFrom src).keyStr 0 src.keyCount = read src.keyStr 0 src.keyCount := by
    refine read_congr fun i hi => keyStr_congr rfl rfl fun x hx => ?_
    rw [Nat.zero_add] at hx
    have hlt : x < src.keyDataEnd := Nat.lt_of_lt_of_le hx (hs.keys i hi)
    have hin := write_inside s.keyData 0 (show x < (read src.keyData 0 src.keyDataEnd).length by rwa [length_read])
    rw [getElem?_read _ hlt, Nat.zero_add, Option.some_inj] at hin
    exact hin
  rw [store, copyKeysFrom]
  exact congrArg (Heap.Store.mk · _ _ _) hkeys

/-! ## The loops over a node -/

theorem pushChildrenFrom_spec {src s : NodeBytes} {k i : ℕ} (hs : s.Buffered)
    (hroom : s.children.n + k ≤ StaticVec.capacity) (hi : i + k ≤ src.children.n) :
    ∃ s', pushChildrenFrom src k i s = some s' ∧ s'.Buffered ∧ s'.childLeaves = s.childLeaves ∧
      s'.store = { s.store with children := s.store.children ++ (src.store.children.drop i).take k } := by
  induction k generalizing i s with
  | zero => exact ⟨s, rfl, hs, rfl, by rw [List.take_zero, List.append_nil]⟩
  | succ k ih =>
    obtain ⟨v, hv, hlist, hn⟩ := StaticVec.pushBack_spec (v := s.children) (by omega) (src.children.data i)
    obtain ⟨s', hs', hbuf, hleaves, hstore⟩ := @ih { s with children := v } (i + 1) ⟨hs.keys, hs.top, hs.count⟩
      (show v.n + k ≤ _ by omega) (by omega)
    refine ⟨s', ?_, hbuf, hleaves, ?_⟩
    · rw [pushChildrenFrom, pushChild, hv, Option.map_some, Option.bind_some, hs']
    · rw [hstore]
      exact congrArg (Heap.Store.mk _ _ · _) (StaticVec.toList_pushed hlist (by omega) k)

theorem pushLeavesFrom_spec {src s : NodeBytes} {k i : ℕ} (hs : s.Buffered)
    (hroom : s.childLeaves.n + k ≤ StaticVec.capacity) (hi : i + k ≤ src.childLeaves.n) :
    ∃ s', pushLeavesFrom src k i s = some s' ∧ s'.Buffered ∧
      s'.store = { s.store with childLeaves := s.store.childLeaves ++ (src.store.childLeaves.drop i).take k } := by
  induction k generalizing i s with
  | zero => exact ⟨s, rfl, hs, by rw [List.take_zero, List.append_nil]⟩
  | succ k ih =>
    obtain ⟨v, hv, hlist, hn⟩ := StaticVec.pushBack_spec (v := s.childLeaves) (by omega) (src.childLeaves.data i)
    obtain ⟨s', hs', hbuf, hstore⟩ := @ih { s with childLeaves := v } (i + 1) ⟨hs.keys, hs.top, hs.count⟩
      (show v.n + k ≤ _ by omega) (by omega)
    refine ⟨s', ?_, hbuf, ?_⟩
    · rw [pushLeavesFrom, pushLeaf, hv, Option.map_some, Option.bind_some, hs']
    · rw [hstore]
      exact congrArg (Heap.Store.mk _ _ _ ·) (StaticVec.toList_pushed hlist (by omega) k)

theorem pushPointersFrom_spec {src s : NodeBytes} {k i : ℕ} (hs : s.Buffered)
    (hroom : s.children.n + k ≤ StaticVec.capacity) (hroom' : s.childLeaves.n + k ≤ StaticVec.capacity)
    (hi : i + k ≤ src.children.n) (hi' : i + k ≤ src.childLeaves.n) :
    ∃ s', pushPointersFrom src k i s = some s' ∧ s'.Buffered ∧ s'.store = { s.store with
      children := s.store.children ++ (src.store.children.drop i).take k
      childLeaves := s.store.childLeaves ++ (src.store.childLeaves.drop i).take k } := by
  induction k generalizing i s with
  | zero => exact ⟨s, rfl, hs, by rw [List.take_zero, List.take_zero, List.append_nil, List.append_nil]⟩
  | succ k ih =>
    obtain ⟨v, hv, hlist, hn⟩ := StaticVec.pushBack_spec (v := s.children) (by omega) (src.children.data i)
    obtain ⟨w, hw, hlist', hn'⟩ := StaticVec.pushBack_spec (v := s.childLeaves) (by omega) (src.childLeaves.data i)
    obtain ⟨s', hs', hbuf, hstore⟩ := @ih { s with children := v, childLeaves := w } (i + 1) ⟨hs.keys, hs.top, hs.count⟩
      (show v.n + k ≤ _ by omega) (show w.n + k ≤ _ by omega) (by omega) (by omega)
    refine ⟨s', ?_, hbuf, ?_⟩
    · rw [pushPointersFrom, pushChild, hv, Option.map_some, Option.bind_some, pushLeaf, hw, Option.map_some,
        Option.bind_some, hs']
    · rw [hstore]
      exact congrArg₂ (Heap.Store.mk _ _) (StaticVec.toList_pushed hlist (by omega) k)
        (StaticVec.toList_pushed hlist' (by omega) k)

theorem pushKeysFrom_refines {src s : NodeBytes} (hsrc : src.Buffered) {k i : ℕ} (hs : s.Buffered)
    (hroom : s.keyCount + k ≤ internalFanout) (hi : i + k ≤ src.keyCount) :
    Refines store (fun s' => s'.Buffered ∧ s'.children = s.children ∧ s'.childLeaves = s.childLeaves)
      (pushKeysFrom src k i s) (Heap.Store.pushKeys ((src.store.keys.drop i).take k) s.store) := by
  induction k generalizing i s with
  | zero =>
    rw [List.take_zero]
    exact Refines.pure rfl ⟨hs, rfl, rfl⟩
  | succ k ih =>
    have hget : src.store.keys[i]? = some (src.keyStr i) := by
      rw [store, getElem?_front, if_pos (by omega)]
    obtain ⟨hlt, hat⟩ := List.getElem?_eq_some_iff.mp hget
    rw [List.drop_eq_getElem_cons hlt, List.take_succ_cons, hat]
    exact (pushKey_refines hs (by omega) (hsrc.keyStr_lt (by omega))).bind fun s' hs' =>
      (ih hs'.1 (by omega) (by omega)).mono fun s'' hs'' =>
        ⟨hs''.1, hs''.2.1.trans hs'.2.2.1, hs''.2.2.trans hs'.2.2.2⟩

/-! ## The nodes that `SplitCoW` builds -/

theorem copyNode_spec {cp : NodeBytes} (hcp : cp.Buffered) (hchildren : cp.children.n ≤ StaticVec.capacity)
    (hleaves : cp.childLeaves.n ≤ StaticVec.capacity) :
    ∃ s, copyNode cp = some s ∧ s.Buffered ∧ s.store = cp.store := by
  obtain ⟨hkeys, hstore⟩ := copyKeysFrom_spec empty hcp
  obtain ⟨s₁, hs₁, hbuf₁, hl₁, hstore₁⟩ := @pushChildrenFrom_spec cp _ cp.children.n 0 hkeys
    ((Nat.zero_add _).trans_le hchildren) (by omega)
  obtain ⟨s₂, hs₂, hbuf₂, hstore₂⟩ := @pushLeavesFrom_spec cp _ cp.childLeaves.n 0 hbuf₁
    (by rw [hl₁]; exact (Nat.zero_add _).trans_le hleaves) (by omega)
  refine ⟨s₂, by rw [copyNode, hs₁, Option.bind_some, hs₂], hbuf₂, ?_⟩
  have hc : cp.store.children.take cp.children.n = cp.store.children := List.take_of_length_le (by simp [store])
  have hl : cp.store.childLeaves.take cp.childLeaves.n = cp.store.childLeaves := List.take_of_length_le (by simp [store])
  rw [hstore₂, hstore₁, hstore, List.drop_zero, List.drop_zero, hc, hl]
  rfl

theorem putPair_spec {s : NodeBytes} (hs : s.Buffered) {idx : ℕ} (hc : idx < s.children.n) (hl : idx < s.childLeaves.n)
    (hroom : s.children.n < StaticVec.capacity) (hroom' : s.childLeaves.n < StaticVec.capacity) (pair : Heap.Pair) :
    ∃ s', s.putPair idx pair = some s' ∧ s'.Buffered ∧ s'.keyCount = s.keyCount ∧ s'.children.n = s.children.n + 1 ∧
      s'.childLeaves.n = s.childLeaves.n + 1 ∧ s'.store = s.store.putPair idx pair := by
  have hput : ∀ cl cr ll lr : Option ℕ, ∃ s', (((s.setChild idx cl).setLeaf idx ll).insChild (idx + 1) cr).bind
      (fun s' => s'.insLeaf (idx + 1) lr) = some s' ∧ s'.Buffered ∧ s'.keyCount = s.keyCount ∧
        s'.children.n = s.children.n + 1 ∧ s'.childLeaves.n = s.childLeaves.n + 1 ∧
        s'.store = (((s.store.setChild idx cl).setLeaf idx ll).insChild (idx + 1) cr).insLeaf (idx + 1) lr := by
    intro cl cr ll lr
    obtain ⟨v, hv, hlist, hn⟩ := StaticVec.insert_spec (v := s.children.set idx cl) hroom hc cr
    obtain ⟨w, hw, hlist', hn'⟩ := StaticVec.insert_spec (v := s.childLeaves.set idx ll) hroom' hl lr
    refine ⟨{ s with children := v, childLeaves := w }, ?_, ⟨hs.keys, hs.top, hs.count⟩, rfl, hn, hn', ?_⟩
    · simp only [insChild, setLeaf, setChild, hv, Option.map_some, Option.bind_some, insLeaf, hw]
    · rw [StaticVec.toList_set] at hlist hlist'
      exact congrArg₂ (Heap.Store.mk _ _) hlist hlist'
  cases pair with
  | leaves l r => exact hput none none (some l) (some r)
  | nodes l r => exact hput (some l) (some r) none none

theorem pushPair_spec {s : NodeBytes} (hs : s.Buffered) (hc : s.children = StaticVec.empty)
    (hl : s.childLeaves = StaticVec.empty) (pair : Heap.Pair) :
    ∃ s', s.pushPair pair = some s' ∧ s'.Buffered ∧ s'.store = match pair with
      | .leaves l r => (((s.store.pushChild none).pushLeaf (some l)).pushChild none).pushLeaf (some r)
      | .nodes l r => (((s.store.pushChild (some l)).pushLeaf none).pushChild (some r)).pushLeaf none := by
  have hpush : ∀ cl cr ll lr : Option ℕ, ∃ s', (((s.pushChild cl).bind (pushLeaf · ll)).bind (pushChild · cr)).bind
      (pushLeaf · lr) = some s' ∧ s'.Buffered ∧
        s'.store = (((s.store.pushChild cl).pushLeaf ll).pushChild cr).pushLeaf lr := by
    intro cl cr ll lr
    have hcap : 1 < StaticVec.capacity := by decide
    have hnc : s.children.n = 0 := congrArg StaticVec.n hc
    have hnl : s.childLeaves.n = 0 := congrArg StaticVec.n hl
    obtain ⟨v, hv, hlistv, hn⟩ := StaticVec.pushBack_spec (v := s.children) (by omega) cl
    obtain ⟨w, hw, hlistw, hn'⟩ := StaticVec.pushBack_spec (v := s.childLeaves) (by omega) ll
    obtain ⟨v', hv', hlistv', -⟩ := StaticVec.pushBack_spec (v := v) (by omega) cr
    obtain ⟨w', hw', hlistw', -⟩ := StaticVec.pushBack_spec (v := w) (by omega) lr
    refine ⟨{ s with children := v', childLeaves := w' }, ?_, ⟨hs.keys, hs.top, hs.count⟩, ?_⟩
    · simp only [pushChild, pushLeaf, hv, hw, hv', hw', Option.map_some, Option.bind_some]
    · rw [hlistv] at hlistv'
      rw [hlistw] at hlistw'
      exact congrArg₂ (Heap.Store.mk _ _) hlistv' hlistw'
  cases pair with
  | leaves l r => exact hpush none none (some l) (some r)
  | nodes l r => exact hpush (some l) (some r) none none

theorem half_refines {src : NodeBytes} (hsrc : src.Buffered) {i k : ℕ} (hk : k ≤ internalFanout)
    (hi : i + k ≤ src.keyCount) (hc : i + (k + 1) ≤ src.children.n) (hl : i + (k + 1) ≤ src.childLeaves.n) :
    Refines store Buffered (src.half i k) ((Heap.Store.pushKeys ((src.store.keys.drop i).take k) Heap.Store.empty).map
      fun ks => { ks with
        children := (src.store.children.drop i).take (k + 1)
        childLeaves := (src.store.childLeaves.drop i).take (k + 1) }) := by
  have hkeys := pushKeysFrom_refines (s := empty.resizeKeys 0) hsrc (k := k) (i := i) empty_buffered
    (by rw [show (empty.resizeKeys 0).keyCount = 0 from rfl, Nat.zero_add]; exact hk) hi
  rw [half, Option.map_eq_bind]
  refine hkeys.bind fun s hs => ?_
  obtain ⟨hbuf, hchildren, hleaves⟩ := hs
  have hcap : k + 1 ≤ StaticVec.capacity := Nat.succ_le_succ hk
  obtain ⟨s', hs', hbuf', hstore⟩ := @pushPointersFrom_spec src _ (k + 1) i hbuf
    (by rw [hchildren]; exact (Nat.zero_add _).trans_le hcap) (by rw [hleaves]; exact (Nat.zero_add _).trans_le hcap) hc hl
  rw [hs']
  refine Refines.pure ?_ hbuf'
  have hc0 : s.store.children = [] := by rw [store, hchildren]; rfl
  have hl0 : s.store.childLeaves = [] := by rw [store, hleaves]; rfl
  rw [hstore, hc0, hl0]
  rfl

end NodeBytes

end Kvdb
