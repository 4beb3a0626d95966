import Kvdb.Lib.LittleEndian

/-! # Input streams

`std::ifstream` and `std::istringstream` over a fixed content. A read behind the end sets the fail state, which stays:
from then on nothing is read and the position does not move. `get` yields the end-of-file mark then, which is 255 as
a byte. -/
namespace Kvdb
set_option autoImplicit false

open LittleEndian

structure InputStream where
  data : List UInt8
  pos : ℕ
  failed : Bool
  deriving DecidableEq, Repr

namespace InputStream

def ofData (data : List UInt8) : InputStream := ⟨data, 0, false⟩

/-- `get()` as a byte. -/
def get (s : InputStream) : UInt8 × InputStream :=
  if s.failed then (255, s)
  else
    match s.data[s.pos]? with
    | some b => (b, { s with pos := s.pos + 1 })
    | none => (255, { s with failed := true })

/-- `read(p, n)`: the bytes that are stored at `p`, which are fewer at the end of the content. -/
def read (n : ℕ) (s : InputStream) : List UInt8 × InputStream :=
  if s.failed then ([], s)
  else
    let bs := (s.data.drop s.pos).take n
    (bs, { s with pos := s.pos + bs.length, failed := decide (bs.length < n) })

/-- `read` into a buffer of `n` zeros. -/
def readZeroed (n : ℕ) (s : InputStream) : List UInt8 × InputStream :=
  let r := read n s
  (r.1 ++ List.replicate (n - r.1.length) 0, r.2)

/-- `seekg(n, cur)`. -/
def skip (n : ℕ) (s : InputStream) : InputStream := if s.failed then s else { s with pos := s.pos + n }

/-- `seekg(n)`. -/
def seek (n : ℕ) (s : InputStream) : InputStream := if s.failed then s else { s with pos := n }

/-- A word of `k` bytes, least significant first. -/
def getLe : ℕ → InputStream → ℕ × InputStream
  | 0, s => (0, s)
  | k + 1, s =>
    let b := get s
    let r := getLe k b.2
    (b.1.toNat + 256 * r.1, r.2)

/-! ## What stands in front of a stream -/

/-- The stream `k` bytes further on. -/
def advance (k : ℕ) (s : InputStream) : InputStream := { s with pos := s.pos + k }

@[simp] theorem advance_data (k : ℕ) (s : InputStream) : (s.advance k).data = s.data := rfl

@[simp] theorem advance_pos (k : ℕ) (s : InputStream) : (s.advance k).pos = s.pos + k := rfl

@[simp] theorem advance_advance (k l : ℕ) (s : InputStream) : (s.advance k).advance l = s.advance (k + l) := by
  simp [advance, Nat.add_assoc]

/-- The bytes `bs` stand in front of the stream. -/
structure Ahead (s : InputStream) (bs : List UInt8) : Prop where
  good : s.failed = false
  front : bs <+: s.data.drop s.pos

variable {s : InputStream} {bs bs' : List UInt8}

theorem Ahead.left (h : s.Ahead (bs ++ bs')) : s.Ahead bs := ⟨h.good, (List.prefix_append bs bs').trans h.front⟩

theorem Ahead.right (h : s.Ahead (bs ++ bs')) : (s.advance bs.length).Ahead bs' := by
  refine ⟨h.good, ?_⟩
  obtain ⟨rest, hrest⟩ := h.front
  rw [advance_data, advance_pos, ← List.drop_drop, ← hrest, List.append_assoc, List.drop_left]
  exact List.prefix_append bs' rest

theorem Ahead.tail {b : UInt8} (h : s.Ahead (b :: bs)) : (s.advance 1).Ahead bs := by
  rw [← List.singleton_append] at h
  exact h.right

theorem ahead_ofData (data : List UInt8) : (ofData data).Ahead data := ⟨rfl, List.prefix_rfl⟩

theorem Ahead.get {b : UInt8} (h : s.Ahead (b :: bs)) : s.get = (b, s.advance 1) := by
  obtain ⟨rest, hrest⟩ := h.front
  have hb : s.data[s.pos]? = some b := by
    rw [← List.head?_drop, ← hrest]
    rfl
  simp [InputStream.get, h.good, hb, advance]

theorem Ahead.read (h : s.Ahead bs) {n : ℕ} (hn : bs.length = n) : s.read n = (bs, s.advance n) := by
  subst hn
  obtain ⟨rest, hrest⟩ := h.front
  rw [InputStream.read, h.good, ← hrest, List.take_left]
  simp [advance, h.good]

theorem Ahead.readZeroed (h : s.Ahead bs) {n : ℕ} (hn : bs.length = n) : s.readZeroed n = (bs, s.advance n) := by
  rw [InputStream.readZeroed, h.read hn, hn]
  simp

theorem Ahead.skip (h : s.Ahead bs) (n : ℕ) : s.skip n = s.advance n := by
  simp [InputStream.skip, h.good, advance]

theorem Ahead.getLe (h : s.Ahead bs) : s.getLe bs.length = (ofLe bs, s.advance bs.length) := by
  induction bs generalizing s with
  | nil => rfl
  | cons b bs ih =>
    have hrest := h.tail
    rw [List.length_cons, InputStream.getLe, h.get]
    simp only [ih hrest, advance_advance, ofLe]
    rw [Nat.add_comm 1]

/-- A word that fits is read back. -/
theorem Ahead.getLe_leBytes {k n : ℕ} (h : s.Ahead (leBytes k n)) (hn : n < 256 ^ k) :
    s.getLe k = (n, s.advance k) := by
  have hget := h.getLe
  rw [length_leBytes, ofLe_leBytes hn] at hget
  exact hget

/-- A word in front of other bytes. -/
theorem Ahead.word {k n : ℕ} (h : s.Ahead (leBytes k n ++ bs)) (hn : n < 256 ^ k) :
    s.getLe k = (n, s.advance k) ∧ (s.advance k).Ahead bs := by
  have hright := h.right
  rw [length_leBytes] at hright
  exact ⟨h.left.getLe_leBytes hn, hright⟩

/-- As many bytes as are read, in front of others. -/
theorem Ahead.chunk (h : s.Ahead (bs ++ bs')) :
    s.readZeroed bs.length = (bs, s.advance bs.length) ∧ (s.advance bs.length).Ahead bs' :=
  ⟨h.left.readZeroed rfl, h.right⟩

/-! ## What is left of a stream -/

/-- The bytes that can still be read, none in the fail state. -/
def remaining (s : InputStream) : List UInt8 := if s.failed then [] else s.data.drop s.pos

@[simp] theorem remaining_ofData (data : List UInt8) : (ofData data).remaining = data := rfl

theorem get_remaining (s : InputStream) :
    s.get.1 = s.remaining.head?.getD 255 ∧ s.get.2.remaining = s.remaining.tail := by
  rw [InputStream.get, remaining]
  split
  · next h => simp [remaining, h]
  · next h =>
    rw [← List.head?_drop]
    cases hdrop : s.data.drop s.pos with
    | nil => simp [remaining]
    | cons b bs =>
      have htail : s.data.drop (s.pos + 1) = bs := by rw [← List.drop_drop, hdrop, List.drop_one, List.tail_cons]
      simp [remaining, h, htail]

theorem read_remaining (n : ℕ) (s : InputStream) :
    (s.read n).1 = s.remaining.take n ∧ (s.read n).2.remaining = s.remaining.drop n := by
  rw [InputStream.read, remaining]
  split
  · next h => simp [remaining, h]
  · next h =>
    refine ⟨rfl, ?_⟩
    simp only [remaining, List.length_take]
    rcases Nat.lt_or_ge (s.data.drop s.pos).length n with hlt | hle
    · simp only [Nat.min_eq_right (Nat.le_of_lt hlt), hlt, decide_true, if_true]
      exact (List.drop_of_length_le (Nat.le_of_lt hlt)).symm
    · simp only [Nat.min_eq_left hle, Nat.lt_irrefl, decide_false, Bool.false_eq_true, if_false, List.drop_drop]

theorem skip_remaining (n : ℕ) (s : InputStream) : (s.skip n).remaining = s.remaining.drop n := by
  rw [InputStream.skip, remaining]
  split
  · next h => rw [remaining, if_pos h, List.drop_nil]
  · next h => rw [remaining, if_neg h, List.drop_drop]

/-- The word of `k` bytes that is read where `bs` is left: missing bytes count as 255. -/
def wordOf (k : ℕ) (bs : List UInt8) : ℕ := ofLe ((bs ++ List.replicate k 255).take k)

theorem wordOf_succ (k : ℕ) (bs : List UInt8) :
    wordOf (k + 1) bs = (bs.head?.getD 255).toNat + 256 * wordOf k bs.tail := by
  rw [wordOf, wordOf]
  cases bs with
  | nil => simp [ofLe, List.replicate_succ]
  | cons b bs =>
    have hfill : (bs ++ List.replicate (k + 1) (255 : UInt8)).take k = (bs ++ List.replicate k 255).take k := by
      rw [List.take_append, List.take_append, List.take_replicate, List.take_replicate]
      congr 2
      omega
    rw [List.cons_append, List.take_succ_cons, hfill]
    rfl

/-- A word that runs into the end is large. -/
theorem wordOf_short {k : ℕ} {bs : List UInt8} (h : bs.length ≤ k) : 255 * 256 ^ k ≤ wordOf (k + 1) bs := by
  induction k generalizing bs with
  | zero =>
    rw [List.length_eq_zero_iff.mp (Nat.le_zero.mp h)]
    decide
  | succ k ih =>
    have htail : 255 * 256 ^ k ≤ wordOf (k + 1) bs.tail := ih (by rw [List.length_tail]; omega)
    rw [wordOf_succ, Nat.pow_succ]
    omega

theorem getLe_remaining (k : ℕ) (s : InputStream) :
    (s.getLe k).1 = wordOf k s.remaining ∧ (s.getLe k).2.remaining = s.remaining.drop k := by
  induction k generalizing s with
  | zero => exact ⟨rfl, rfl⟩
  | succ k ih =>
    obtain ⟨hbyte, hrest⟩ := s.get_remaining
    obtain ⟨hword, hleft⟩ := ih s.get.2
    rw [hrest] at hword hleft
    refine ⟨?_, ?_⟩
    · rw [wordOf_succ, InputStream.getLe]
      simp only [hbyte, hword]
    · rw [InputStream.getLe]
      simp only [hleft, List.drop_tail]

theorem readZeroed_remaining (n : ℕ) (s : InputStream) :
    (s.readZeroed n).1 = s.remaining.take n ++ List.replicate (n - (s.remaining.take n).length) 0 ∧
      (s.readZeroed n).2.remaining = s.remaining.drop n := by
  obtain ⟨hread, hrest⟩ := s.read_remaining n
  rw [InputStream.readZeroed, hread]
  exact ⟨rfl, hrest⟩

end InputStream

end Kvdb
