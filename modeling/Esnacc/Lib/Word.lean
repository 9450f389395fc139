import Mathlib.Algebra.Group.Int.Defs
import Mathlib.Algebra.Group.Nat.Defs
import Mathlib.Data.Nat.Notation
import Mathlib.Tactic.Common

/-! Conversions between the 32-bit and 64-bit words of a C implementation. -/

namespace Lib

/-- The signed 32-bit word kept when a 64-bit word is narrowed. -/
def intOf (n : UInt64) : Int32 :=
  -- Narrowing keeps the low half and reads its top bit as a sign.
  n.toUInt32.toInt32

/-- The 64-bit word a signed 32-bit word widens to. -/
def ulongOf (i : Int32) : UInt64 :=
  -- Widening copies the sign into every new bit.
  i.toInt64.toUInt64

theorem toInt_intOf (n : UInt64) : (intOf n).toInt = (n.toNat : Int).bmod (2 ^ 32) := by
  -- The signed reading of a bit vector is its balanced residue, and truncation is a residue too.
  have narrowed : (intOf n).toBitVec = n.toBitVec.setWidth 32 := rfl
  rw [Int32.toInt, narrowed, BitVec.toInt_eq_toNat_bmod, BitVec.toNat_setWidth,
    UInt64.toNat_toBitVec, Int.natCast_emod]
  exact Int.emod_bmod ..

theorem toInt_intOf_of_lt {n : UInt64} (small : n.toNat < 2 ^ 31) :
    (intOf n).toInt = n.toNat := by
  rw [toInt_intOf]
  exact Int.bmod_eq_of_le (by omega) (by omega)

theorem toNat_ulongOf (i : Int32) : ((ulongOf i).toNat : Int) = i.toInt % 2 ^ 64 := by
  -- Sign extension keeps the signed value, and the unsigned reading is its residue.
  have widened : (ulongOf i).toBitVec = i.toBitVec.signExtend 64 := rfl
  have value : (i.toBitVec.signExtend 64).toInt = i.toInt := by
    simpa using BitVec.toInt_signExtend_of_le (x := i.toBitVec) (v := 64) (by omega)
  have bound := (i.toBitVec.signExtend 64).isLt
  rw [← UInt64.toNat_toBitVec, widened, ← value, BitVec.toInt_eq_toNat_cond]
  split <;> omega

theorem toNat_ulongOf_of_nonneg {i : Int32} (nonneg : 0 ≤ i.toInt) :
    ((ulongOf i).toNat : Int) = i.toInt := by
  have bound := Int32.toInt_lt i
  rw [toNat_ulongOf]
  omega

theorem ulongOf_intOf {n : UInt64} (small : n.toNat < 2 ^ 31) : ulongOf (intOf n) = n := by
  have narrow := toInt_intOf_of_lt small
  have wide := toNat_ulongOf_of_nonneg (i := intOf n) (by omega)
  exact UInt64.toNat_inj.mp (by omega)

theorem intOf_le_intOf {m n : UInt64} (smallLeft : m.toNat < 2 ^ 31)
    (smallRight : n.toNat < 2 ^ 31) : intOf m ≤ intOf n ↔ m.toNat ≤ n.toNat := by
  rw [Int32.le_iff_toInt_le, toInt_intOf_of_lt smallLeft, toInt_intOf_of_lt smallRight]
  omega

theorem intOf_le_intOf_iff {m n : UInt64} (small : n.toNat < 2 ^ 31)
    (fits : m.toNat < 2 ^ 31 ∨ (n.toNat : Int) < (m.toNat : Int).bmod (2 ^ 32)) :
    intOf m ≤ intOf n ↔ m.toNat ≤ n.toNat := by
  rcases fits with smallLeft | above
  · exact intOf_le_intOf smallLeft small
  · -- The balanced residue of a natural number never exceeds it, so neither comparison holds.
    have below : (m.toNat : Int).bmod (2 ^ 32) ≤ m.toNat := by
      rw [Int.bmod_def]
      split <;> omega
    rw [Int32.le_iff_toInt_le, toInt_intOf, toInt_intOf_of_lt small]
    omega

theorem toInt_intOf_ulongOf_add {i : Int32} {n : UInt64} (nonneg : 0 ≤ i.toInt)
    (room : i.toInt + n.toNat < 2 ^ 31) : (intOf (ulongOf i + n)).toInt = i.toInt + n.toNat := by
  have wide := toNat_ulongOf_of_nonneg nonneg
  have sum : (ulongOf i + n).toNat = (ulongOf i).toNat + n.toNat := by
    rw [UInt64.toNat_add]
    omega
  rw [toInt_intOf_of_lt (by omega), sum]
  omega

theorem toNat_sub_ulongOf {i : Int32} {n : UInt64} (nonneg : 0 ≤ i.toInt)
    (within : i.toInt ≤ n.toNat) : ((n - ulongOf i).toNat : Int) = n.toNat - i.toInt := by
  have wide := toNat_ulongOf_of_nonneg nonneg
  rw [UInt64.toNat_sub_of_le _ _ (by rw [UInt64.le_iff_toNat_le]; omega)]
  omega

/-- Taking away the narrowed part of a word leaves nothing to narrow. -/
theorem intOf_sub_ulongOf_intOf (n : UInt64) : intOf (n - ulongOf (intOf n)) = 0 := by
  have low := toInt_intOf n
  have wide := toNat_ulongOf (intOf n)
  have bound := UInt64.toNat_lt n
  have wideBound := UInt64.toNat_lt (ulongOf (intOf n))
  have rest := UInt64.toNat_sub n (ulongOf (intOf n))
  rw [Int.bmod_def] at low
  -- What is left is a multiple of the narrow word's size.
  have multiple : (n - ulongOf (intOf n)).toNat % 2 ^ 32 = 0 := by
    split at low <;> omega
  rw [← Int32.toInt_inj, toInt_intOf, Int.bmod_def, Int32.toInt_zero]
  split <;> omega

theorem ulongOf_intOf_of_neg {n : UInt64} (negative : (intOf n).toInt < 0)
    (atMost : ulongOf (intOf n) ≤ n) : ulongOf (intOf n) = n := by
  have low := toInt_intOf n
  have wide := toNat_ulongOf (intOf n)
  have bound := UInt64.toNat_lt n
  have least := Int32.le_toInt (intOf n)
  rw [Int.bmod_def] at low
  rw [UInt64.le_iff_toNat_le] at atMost
  rw [← UInt64.toNat_inj]
  split at low <;> omega

theorem intOf_ulongOf (i : Int32) : intOf (ulongOf i) = i := by
  have wide := toNat_ulongOf i
  have least := Int32.le_toInt i
  have most := Int32.toInt_lt i
  rw [← Int32.toInt_inj, toInt_intOf, Int.bmod_def]
  split <;> omega

theorem intOf_sub_ulongOf_nonneg {n : UInt64} {i : Int32} (nonneg : 0 ≤ i.toInt)
    (below : i.toInt ≤ (intOf n).toInt) : 0 ≤ intOf (n - ulongOf i) := by
  have wide := toNat_ulongOf_of_nonneg nonneg
  have low := toInt_intOf n
  have rest := UInt64.toNat_sub n (ulongOf i)
  have bound := UInt64.toNat_lt n
  have most := Int32.toInt_lt (intOf n)
  rw [Int.bmod_def] at low
  rw [Int32.le_iff_toInt_le, toInt_intOf, Int.bmod_def, Int32.toInt_zero]
  split at low <;> split <;> omega

theorem intOf_congr {k l : UInt64} (same : k.toNat % 2 ^ 32 = l.toNat % 2 ^ 32) :
    intOf k = intOf l := by
  apply Int32.toInt_inj.mp
  rw [toInt_intOf, toInt_intOf]
  apply Int.bmod_eq_bmod_iff_bmod_sub_eq_zero.mpr
  apply Int.bmod_eq_zero_of_dvd
  change (4294967296 : Int) ∣ _
  omega

theorem msb_eq_false_of_nonneg {i : Int64} (nonneg : 0 ≤ i.toInt) : i.toBitVec.msb = false := by
  have value : i.toInt = i.toBitVec.toInt := rfl
  rw [value, BitVec.toInt_eq_toNat_cond] at nonneg
  rw [BitVec.msb_eq_false_iff_two_mul_lt]
  split at nonneg <;> omega

theorem toNat_toUInt64_of_nonneg {i : Int64} (nonneg : 0 ≤ i.toInt) :
    (i.toUInt64.toNat : Int) = i.toInt :=
  (BitVec.toInt_eq_toNat_of_msb (msb_eq_false_of_nonneg nonneg)).symm

/-- A number that is not negative is shifted as one without a sign. -/
theorem toUInt64_shiftRight {i : Int64} (nonneg : 0 ≤ i.toInt) {bits : UInt64}
    (within : bits.toNat < 64) : (i >>> bits.toInt64).toUInt64 = i.toUInt64 >>> bits := by
  have bound : bits.toBitVec.toNat < 64 := within
  have clear : bits.toBitVec.msb = false := by
    rw [BitVec.msb_eq_false_iff_two_mul_lt]
    omega
  have amount : (bits.toBitVec.smod 64).toNat = bits.toNat % 64 := by
    have width : (64 : BitVec 64).msb = false := by decide
    rw [BitVec.smod_eq, clear, width]
    rfl
  apply UInt64.eq_of_toBitVec_eq
  change i.toBitVec.sshiftRight (bits.toBitVec.smod 64).toNat = _
  rw [BitVec.sshiftRight_eq_of_msb_false (msb_eq_false_of_nonneg nonneg), amount,
    UInt64.toBitVec_shiftRight]
  apply BitVec.eq_of_toNat_eq
  simp

theorem add_ofNat_add (n : UInt64) (j k : Nat) :
    n + UInt64.ofNat j + UInt64.ofNat k = n + UInt64.ofNat (j + k) := by
  rw [UInt64.ofNat_add, UInt64.add_assoc]

end Lib
