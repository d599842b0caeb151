import Mathlib.Algebra.Ring.Int.Defs
import Mathlib.Algebra.Ring.Nat

/-! Signed machine integers as integers: sums and differences that do not leave the type are exact, and a
narrowed value depends only on its residue. -/

namespace MachineInts

section Exact

variable {x y : Int32} {a b : Int64}

theorem toInt_add32 (hle : -2 ^ 31 ≤ x.toInt + y.toInt) (hlt : x.toInt + y.toInt < 2 ^ 31) :
    (x + y).toInt = x.toInt + y.toInt := by
  rw [Int32.toInt_add]
  exact Int.bmod_eq_of_le (by omega) (by omega)

theorem toInt_sub32 (hle : -2 ^ 31 ≤ x.toInt - y.toInt) (hlt : x.toInt - y.toInt < 2 ^ 31) :
    (x - y).toInt = x.toInt - y.toInt := by
  rw [Int32.toInt_sub]
  exact Int.bmod_eq_of_le (by omega) (by omega)

theorem toInt_succ32 (hlt : x.toInt + 1 < 2 ^ 31) : (x + 1).toInt = x.toInt + 1 := by
  have hle := x.le_toInt
  have hone : (1 : Int32).toInt = 1 := rfl
  rw [toInt_add32 (by omega) (by omega), hone]

theorem toInt_add64 (hle : -2 ^ 63 ≤ a.toInt + b.toInt) (hlt : a.toInt + b.toInt < 2 ^ 63) :
    (a + b).toInt = a.toInt + b.toInt := by
  rw [Int64.toInt_add]
  exact Int.bmod_eq_of_le (by omega) (by omega)

/-- A nonnegative `int` keeps its value as an unsigned one. -/
theorem toNat_toUInt32 (h : 0 ≤ x.toInt) : (x.toUInt32.toNat : Int) = x.toInt := by
  have hx : 0 ≤ x := Int32.le_iff_toInt_le.2 h
  rw [Int32.toNat_toUInt32_of_le hx, Int32.cast_toNatClampNeg x hx]

/-- The sum of a nonnegative `int` and an unsigned one, as an `int` again, is reduced once. -/
theorem toInt_add_unsigned_eq (c : UInt32) (hx : 0 ≤ x.toInt) :
    (x.toUInt32 + c).toInt32.toInt = (x.toInt + c.toNat).bmod (2 ^ 32) := by
  have hcast : (x.toUInt32 + c).toInt32 = Int32.ofNat (x.toUInt32 + c).toNat := by
    rw [← UInt32.toInt32_ofNat', UInt32.ofNat_toNat]
  rw [hcast, Int32.toInt_ofNat', UInt32.toNat_add, ← toNat_toUInt32 hx, Int.natCast_emod, Int.natCast_add]
  exact Int.emod_bmod _ _

theorem toInt_add_unsigned {c : UInt32} (hx : 0 ≤ x.toInt) (h : x.toInt + c.toNat < 2 ^ 31) :
    (x.toUInt32 + c).toInt32.toInt = x.toInt + c.toNat := by
  rw [toInt_add_unsigned_eq c hx]
  exact Int.bmod_eq_of_le (by omega) (by omega)

end Exact

section Narrow

theorem bmod_pos_iff (x : Int) : 0 < (-x).bmod (2 ^ 32) ↔ 2 ^ 31 < x % 2 ^ 32 := by
  rw [Int.bmod_def]
  split <;> omega

theorem bmod_nonneg_iff (x : Int) : 0 ≤ x.bmod (2 ^ 32) ↔ x % 2 ^ 32 < 2 ^ 31 := by
  rw [Int.bmod_def]
  split <;> omega

theorem toInt32_nonneg_iff (a : Int64) : 0 ≤ a.toInt32.toInt ↔ a.toInt % 2 ^ 32 < 2 ^ 31 := by
  rw [Int64.toInt_toInt32]
  exact bmod_nonneg_iff a.toInt

/-- A difference is narrowed as if it had not overflowed. -/
theorem toInt_toInt32_sub (a b : Int64) : (a - b).toInt32.toInt = (a.toInt - b.toInt).bmod (2 ^ 32) := by
  rw [Int64.toInt_toInt32, Int64.toInt_sub]
  exact Int.bmod_bmod_of_dvd (by decide)

theorem toInt32_sub_pos_iff (a b : Int64) : 0 < (a - b).toInt32.toInt ↔ 2 ^ 31 < (b.toInt - a.toInt) % 2 ^ 32 := by
  have hneg : a.toInt - b.toInt = -(b.toInt - a.toInt) := by omega
  rw [toInt_toInt32_sub, hneg]
  exact bmod_pos_iff _

theorem toInt_toInt32_of_fits {a : Int64} (hle : -2 ^ 31 ≤ a.toInt) (hlt : a.toInt < 2 ^ 31) :
    a.toInt32.toInt = a.toInt := by
  rw [Int64.toInt_toInt32]
  exact Int.bmod_eq_of_le (by omega) (by omega)

theorem toInt_toInt32_sub_of_fits {a b : Int64} (hle : -2 ^ 31 ≤ a.toInt - b.toInt)
    (hlt : a.toInt - b.toInt < 2 ^ 31) : (a - b).toInt32.toInt = a.toInt - b.toInt := by
  rw [toInt_toInt32_sub]
  exact Int.bmod_eq_of_le (by omega) (by omega)

end Narrow

end MachineInts
