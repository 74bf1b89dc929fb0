import Mathlib.Algebra.Group.Nat.Defs
import Mathlib.Tactic.Common

/-! Checked arithmetic on 64-bit integers, specified by the numbers that the operands and the
result stand for. -/
namespace Nigiri.CheckedInt
variable {a b c : UInt64} {v : Int64}

def checkedAdd (a b : UInt64) : Option UInt64 :=
  if a.toNat + b.toNat < 2 ^ 64 then some (a + b) else none

def checkedSub (a b : UInt64) : Option UInt64 :=
  if b ≤ a then some (a - b) else none

def checkedMul (a b : UInt64) : Option UInt64 :=
  if a.toNat * b.toNat < 2 ^ 64 then some (a * b) else none

/-- The signed integer of the same value, where there is one. -/
def toSigned (a : UInt64) : Option Int64 :=
  if a.toNat < 2 ^ 63 then some a.toInt64 else none

/-- The unsigned integer of the same value, where there is one. -/
def toUnsigned (v : Int64) : Option UInt64 :=
  if v < 0 then none else some v.toUInt64

theorem checkedAdd_eq_some_iff :
    checkedAdd a b = some c ↔ c.toNat = a.toNat + b.toNat := by
  have hc := c.toNat_lt
  rw [checkedAdd]
  split
  · rename_i hlt
    rw [Option.some_inj, ← UInt64.toNat_inj, UInt64.toNat_add, Nat.mod_eq_of_lt hlt, eq_comm]
  · refine iff_of_false (Option.some_ne_none _).symm ?_
    omega

theorem checkedSub_eq_some_iff :
    checkedSub a b = some c ↔ a.toNat = b.toNat + c.toNat := by
  rw [checkedSub]
  split
  · rename_i hle
    rw [Option.some_inj, ← UInt64.toNat_inj, UInt64.toNat_sub_of_le _ _ hle]
    have := UInt64.le_iff_toNat_le.mp hle
    omega
  · rename_i hle
    refine iff_of_false (Option.some_ne_none _).symm ?_
    rw [UInt64.le_iff_toNat_le] at hle
    omega

theorem checkedMul_eq_some_iff :
    checkedMul a b = some c ↔ c.toNat = a.toNat * b.toNat := by
  have hc := c.toNat_lt
  rw [checkedMul]
  split
  · rename_i hlt
    rw [Option.some_inj, ← UInt64.toNat_inj, UInt64.toNat_mul, Nat.mod_eq_of_lt hlt, eq_comm]
  · refine iff_of_false (Option.some_ne_none _).symm ?_
    omega

theorem checkedAdd_eq_none_iff : checkedAdd a b = none ↔ 2 ^ 64 ≤ a.toNat + b.toNat := by
  rw [checkedAdd]
  split <;> simp <;> omega

theorem checkedMul_eq_none_iff : checkedMul a b = none ↔ 2 ^ 64 ≤ a.toNat * b.toNat := by
  rw [checkedMul]
  split <;> simp <;> omega

theorem toInt_toInt64 (h : a.toNat < 2 ^ 63) : a.toInt64.toInt = a.toNat := by
  have hsmall : 2 * a.toBitVec.toNat < 2 ^ 64 := by
    have : a.toBitVec.toNat = a.toNat := rfl
    omega
  exact BitVec.toInt_eq_toNat_of_lt hsmall

theorem toNat_toUInt64 (h : 0 ≤ v) : (v.toUInt64.toNat : Int) = v.toInt := by
  rw [Int64.toNat_toUInt64_of_le h, Int64.cast_toNatClampNeg v h]

theorem exists_unsigned (h : 0 ≤ v.toInt) : ∃ a : UInt64, v.toInt = a.toNat :=
  ⟨v.toUInt64, (toNat_toUInt64 (Int64.le_iff_toInt_le.mpr h)).symm⟩

theorem exists_sum (h : a.toNat + b.toNat < 2 ^ 64) : ∃ c : UInt64, c.toNat = a.toNat + b.toNat :=
  ⟨a + b, by rw [UInt64.toNat_add, Nat.mod_eq_of_lt h]⟩

theorem toSigned_eq_some_iff : toSigned a = some v ↔ v.toInt = a.toNat := by
  rw [toSigned]
  split
  · rename_i hlt
    rw [Option.some_inj, ← Int64.toInt_inj, toInt_toInt64 hlt, eq_comm]
  · have hv := v.toInt_lt
    refine iff_of_false (Option.some_ne_none _).symm ?_
    omega

theorem toUnsigned_eq_some_iff : toUnsigned v = some a ↔ v.toInt = a.toNat := by
  rw [toUnsigned]
  split
  · rename_i hneg
    have : v.toInt < 0 := Int64.lt_iff_toInt_lt.mp hneg
    refine iff_of_false (Option.some_ne_none _).symm ?_
    omega
  · rename_i hneg
    rw [Option.some_inj, ← UInt64.toNat_inj, ← toNat_toUInt64 (Int64.not_lt.mp hneg),
      Int.natCast_inj]

end Nigiri.CheckedInt
