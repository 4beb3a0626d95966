import Mathlib.Data.List.Lex
import Mathlib.Algebra.Order.Ring.Nat
import Mathlib.Algebra.BigOperators.Group.List.Basic

/-! # Bytes, key-value pairs and the constants of `config.hpp`

A `std::string` is a list of bytes. `std::string::compare` compares unsigned bytes
lexicographically, which is the order of `List UInt8`. Timestamps, sequence numbers and sizes are
natural numbers. -/
namespace Kvdb
set_option autoImplicit false

instance instLinearOrderUInt8 : LinearOrder UInt8 where
  le_refl := UInt8.le_refl
  le_trans _ _ _ := UInt8.le_trans
  le_antisymm _ _ := UInt8.le_antisymm
  le_total := UInt8.le_total
  lt_iff_le_not_ge a b := by
    rw [UInt8.lt_iff_toNat_lt, UInt8.le_iff_toNat_le, UInt8.le_iff_toNat_le]
    omega
  toDecidableLE := inferInstance
  toDecidableEq := inferInstance
  toDecidableLT := inferInstance

abbrev Bytes := List UInt8

-- A constant for the instance that the decisions on keys use.
instance lawfulBytes : LawfulBEq Bytes := inferInstance

/-- `KeyValuePair` (types.hpp): one version of a key. -/
structure KeyValuePair where
  key : Bytes
  value : Bytes
  timestamp : ℕ
  isTombstone : Bool
  deriving DecidableEq, Repr

namespace Config

def sstableBlockSize : ℕ := 4096
def maxKeyValuePairBytes : ℕ := 4 * 1024 * 1024
def pageSize : ℕ := 4096
def maxKeyBytes : ℕ := 1024
def memTableEntryOverheadBytes : ℕ := 64
def defaultCompactionThreshold : ℕ := 8
def levelSizeMultiplier : ℕ := 10
def levelBaseSSTableSize : ℕ := 4 * 1024 * 1024
def maxLevel : ℕ := 7
def walMinSyncBytes : ℕ := 4 * 1024 * 1024

end Config

end Kvdb
