import Esnacc.Cxx.ListSizes
import Esnacc.Cxx.PerInteger
import Esnacc.Cxx.StringRoundTrips
import Mathlib.Logic.Function.Iterate

/-! The widths of the PER fields that the C++ library counts from two bounds. -/

namespace Esnacc.Cxx

open Lib

/-! ## The least width -/

/-- The least number of bits that hold a number; one that is negative needs none. -/
def LeastBits (z : Int) (m : Nat) : Prop :=
  z < 2 ^ m ∧ ∀ k < m, 2 ^ k ≤ z

theorem LeastBits.unique {z : Int} {m m' : Nat} (least : LeastBits z m) (least' : LeastBits z m') :
    m = m' := by
  -- With fewer bits than the other one there would not be room.
  rcases Nat.lt_trichotomy m m' with fewer | same | more
  · exact absurd least.1 (Int.not_lt.mpr (least'.2 m fewer))
  · exact same
  · exact absurd least'.1 (Int.not_lt.mpr (least.2 m' more))

theorem leastBits_size (n : Nat) : LeastBits n n.size := by
  refine ⟨by exact_mod_cast Nat.lt_size_self n, fun k fewer => ?_⟩
  exact_mod_cast Nat.lt_size.mp fewer

theorem leastBits_zero {z : Int} : LeastBits z 0 ↔ z ≤ 0 := by
  constructor
  · intro least
    have below := least.1
    rw [Int.pow_zero] at below
    omega
  · intro none
    exact ⟨by rw [Int.pow_zero]; omega, fun k fewer => absurd fewer (Nat.not_lt_zero k)⟩

/-! ## The loop -/

/-- The loop over the powers of 2 ends, with the least width for a number. -/
def EndsRight (tempRange apart : Int) : Prop :=
  ∃ minBitsNeeded, minBits tempRange 0 = .ok minBitsNeeded ∧ LeastBits apart minBitsNeeded

theorem minBits_least {tempRange : Int} (small : tempRange < 2 ^ 31) :
    ∃ minBitsNeeded, minBits tempRange 0 = .ok minBitsNeeded ∧
      LeastBits tempRange minBitsNeeded := by
  by_cases none : tempRange ≤ 0
  · exact ⟨0, minBits_of_nonpos none, leastBits_zero.mpr none⟩
  · obtain ⟨n, rfl⟩ := Int.eq_ofNat_of_zero_le (show 0 ≤ tempRange by omega)
    exact ⟨n.size, minBits_natCast (by omega), leastBits_size n⟩

theorem endsRight_self_iff (tempRange : Int) :
    EndsRight tempRange tempRange ↔ tempRange < 2 ^ 31 := by
  constructor
  · rintro ⟨m, ran, -⟩
    by_contra large
    rw [minBits_fault (by decide) (by omega)] at ran
    cases ran
  · exact minBits_least

/-- Where the loop starts from another number, it counts right only if both are positive or none. -/
theorem EndsRight.sign {tempRange apart : Int} (right : EndsRight tempRange apart) :
    tempRange ≤ 0 ↔ apart ≤ 0 := by
  -- Numbers that are not positive are the ones that need no bits.
  obtain ⟨m, ran, least⟩ := right
  have small : tempRange < 2 ^ 31 := by
    by_contra large
    rw [minBits_fault (by decide) (by omega)] at ran
    cases ran
  obtain ⟨m', ran', least'⟩ := minBits_least small
  obtain rfl := Except.ok.inj (ran.symm.trans ran')
  constructor
  · intro none
    rw [least'.unique (leastBits_zero.mpr none)] at least
    exact leastBits_zero.mp least
  · intro none
    rw [least.unique (leastBits_zero.mpr none)] at least'
    exact leastBits_zero.mp least'

/-! ### Where the power of 2 is the top bit -/

/-- A turn of the loop on a machine that shifts by the low bits of the count, and where the top bit
of an `int` is its sign. -/
def widthTurn (s : Int × Nat) : Int × Nat :=
  (s.1 - ((1 : UInt32) <<< UInt32.ofNat s.2).toInt32.toInt, s.2 + 1)

theorem toInt_power (q : Nat) {r : Nat} (bit : r < 32) :
    ((1 : UInt32) <<< UInt32.ofNat (32 * q + r)).toInt32.toInt =
      if r = 31 then -2 ^ 31 else 2 ^ r := by
  have same : (1 : UInt32) <<< UInt32.ofNat (32 * q + r) = 1 <<< UInt32.ofNat r := by
    apply UInt32.toNat_inj.mp
    rw [UInt32.toNat_shiftLeft, UInt32.toNat_shiftLeft, UInt32.toNat_ofNat', UInt32.toNat_ofNat']
    congr 2
    omega
  have all : ∀ r : Fin 32, ((1 : UInt32) <<< UInt32.ofNat r).toInt32.toInt =
      if r.val = 31 then -2 ^ 31 else 2 ^ r.val := by
    decide
  rw [same]
  exact all ⟨r, bit⟩

/-- From a number that an `int` does not hold, such a loop never ends. -/
theorem widthTurn_never_ends {tempRange : Int} (large : 2 ^ 31 ≤ tempRange) (turns : Nat) :
    0 < (widthTurn^[turns] (tempRange, 0)).1 := by
  -- Each thirty-two turns add one, as the sign gives back what the other bits take away.
  have cycle : ∃ q r : Nat, r < 32 ∧
      widthTurn^[turns] (tempRange, 0) = (tempRange + q - (2 ^ r - 1), 32 * q + r) := by
    induction turns with
    | zero => exact ⟨0, 0, by decide, by simp⟩
    | succ turns ih =>
      obtain ⟨q, r, bit, here⟩ := ih
      rw [Function.iterate_succ_apply', here, widthTurn]
      dsimp only
      rw [toInt_power q bit]
      by_cases top : r = 31
      · rw [if_pos top, top]
        exact ⟨q + 1, 0, by decide, by push_cast; congr 1; omega⟩
      · rw [if_neg top]
        exact ⟨q, r + 1, by omega, by rw [Int.pow_succ]; congr 1; omega⟩
  obtain ⟨q, r, bit, here⟩ := cycle
  have power : (2 : Int) ^ r ≤ 2 ^ 31 := by
    exact_mod_cast Nat.pow_le_pow_right (n := 2) (by decide) (show r ≤ 31 by omega)
  rw [here]
  dsimp only
  omega

/-! ## The three differences -/

/-- Between two bounds of an integer the loop counts right if their difference fits an `int`. -/
theorem endsRight_rangeOf_iff (lowerBound upperBound : Int32) :
    EndsRight ((rangeOf lowerBound upperBound).toInt64.toInt - 1)
        (upperBound.toInt - lowerBound.toInt) ↔
      upperBound.toInt - lowerBound.toInt < 2 ^ 31 := by
  -- The difference fits a `long`, so that the loop starts from it.
  have low := lowerBound.le_toInt
  have high := lowerBound.toInt_lt
  have low' := upperBound.le_toInt
  have high' := upperBound.toInt_lt
  have read : (rangeOf lowerBound upperBound).toInt64.toInt =
      ((rangeOf lowerBound upperBound).toNat : Int).bmod (2 ^ 64) := BitVec.toInt_eq_toNat_bmod _
  have word : ((rangeOf lowerBound upperBound).toNat : Int) =
      (upperBound.toInt - lowerBound.toInt + 1) % (2 ^ 64 : Nat) := by
    rw [rangeOf, UInt64.ofInt, UInt64.toNat_ofNat']
    omega
  rw [read, word, Int.emod_bmod, Int.bmod_eq_of_le (by omega) (by omega), Int.add_sub_cancel,
    endsRight_self_iff]

/-- Between two bounds of the size of a string the loop counts right if the number of sizes fits an
`int`. -/
theorem endsRight_boundsRange_iff (bounds : Int32 × Int32) :
    EndsRight (boundsRange bounds - 1) (bounds.2.toInt - bounds.1.toInt) ↔
      -2 ^ 31 ≤ bounds.2.toInt - bounds.1.toInt + 1 ∧
        bounds.2.toInt - bounds.1.toInt + 1 < 2 ^ 31 := by
  -- A number of sizes that does not fit turns its sign.
  have low := bounds.1.le_toInt
  have high := bounds.1.toInt_lt
  have low' := bounds.2.le_toInt
  have high' := bounds.2.toInt_lt
  have one : (1 : Int32).toInt = 1 := rfl
  have range : boundsRange bounds = (bounds.2.toInt - bounds.1.toInt + 1).bmod (2 ^ 32) := by
    rw [boundsRange, Int32.toInt_add, Int32.toInt_sub, one, Int.bmod_add_bmod]
  have least : -2 ^ 32 < bounds.2.toInt - bounds.1.toInt := by omega
  have most : bounds.2.toInt - bounds.1.toInt < 2 ^ 32 := by omega
  generalize bounds.2.toInt - bounds.1.toInt = apart at *
  by_cases fits : -2 ^ 31 ≤ apart + 1 ∧ apart + 1 < 2 ^ 31
  · rw [range, Int.bmod_eq_of_le (by omega) (by omega), Int.add_sub_cancel, endsRight_self_iff]
    exact iff_of_true (by omega) fits
  · refine iff_of_false (fun right => ?_) fits
    have sign := right.sign
    rw [range, Int.bmod_def] at sign
    push_cast at sign
    split at sign <;> omega

/-- Between two bounds of the size of a list the loop counts right if their difference fits a
`long`, and an `int` where it is positive. -/
theorem endsRight_range_iff (constraint : AsnList.SizeConstraint) :
    EndsRight constraint.range (constraint.upperBound.toNat - constraint.lowerBound.toNat) ↔
      -2 ^ 63 ≤ (constraint.upperBound.toNat - constraint.lowerBound.toNat : Int) ∧
        (constraint.upperBound.toNat - constraint.lowerBound.toNat : Int) < 2 ^ 31 := by
  -- A difference that does not fit turns its sign.
  have high := constraint.lowerBound.toNat_lt
  have high' := constraint.upperBound.toNat_lt
  have range : constraint.range =
      (constraint.upperBound.toNat - constraint.lowerBound.toNat : Int).bmod (2 ^ 64) := by
    have read : constraint.range =
        ((constraint.upperBound - constraint.lowerBound).toNat : Int).bmod (2 ^ 64) :=
      BitVec.toInt_eq_toNat_bmod _
    have word : ((constraint.upperBound - constraint.lowerBound).toNat : Int) =
        (constraint.upperBound.toNat - constraint.lowerBound.toNat) % (2 ^ 64 : Nat) := by
      rw [UInt64.toNat_sub]
      omega
    rw [read, word, Int.emod_bmod]
  have least : -2 ^ 64 < (constraint.upperBound.toNat - constraint.lowerBound.toNat : Int) := by
    omega
  have most : (constraint.upperBound.toNat - constraint.lowerBound.toNat : Int) < 2 ^ 64 := by
    omega
  generalize (constraint.upperBound.toNat - constraint.lowerBound.toNat : Int) = apart at *
  by_cases fits : -2 ^ 63 ≤ apart ∧ apart < 2 ^ 63
  · rw [range, Int.bmod_eq_of_le (by omega) (by omega), endsRight_self_iff]
    omega
  · refine iff_of_false (fun right => ?_) (by omega)
    have sign := right.sign
    rw [range, Int.bmod_def] at sign
    push_cast at sign
    split at sign <;> omega

/-- For each kind of bounds, the loop ends with the least width exactly where the difference fits. -/
theorem widths_iff (lowerBound upperBound : Int32) (bounds : Int32 × Int32)
    (constraint : AsnList.SizeConstraint) :
    (EndsRight ((rangeOf lowerBound upperBound).toInt64.toInt - 1)
        (upperBound.toInt - lowerBound.toInt) ↔
      upperBound.toInt - lowerBound.toInt < 2 ^ 31) ∧
    (EndsRight (boundsRange bounds - 1) (bounds.2.toInt - bounds.1.toInt) ↔
      -2 ^ 31 ≤ bounds.2.toInt - bounds.1.toInt + 1 ∧
        bounds.2.toInt - bounds.1.toInt + 1 < 2 ^ 31) ∧
    (EndsRight constraint.range (constraint.upperBound.toNat - constraint.lowerBound.toNat) ↔
      -2 ^ 63 ≤ (constraint.upperBound.toNat - constraint.lowerBound.toNat : Int) ∧
        (constraint.upperBound.toNat - constraint.lowerBound.toNat : Int) < 2 ^ 31) :=
  ⟨endsRight_rangeOf_iff lowerBound upperBound, endsRight_boundsRange_iff bounds,
    endsRight_range_iff constraint⟩

/-- The loop does not count right from minus one to the greatest `int`, nor for sizes up to it. -/
theorem not_widths :
    ¬ ∀ (lowerBound upperBound : Int32) (bounds : Int32 × Int32)
      (constraint : AsnList.SizeConstraint),
      EndsRight ((rangeOf lowerBound upperBound).toInt64.toInt - 1)
        (upperBound.toInt - lowerBound.toInt) ∧
      EndsRight (boundsRange bounds - 1) (bounds.2.toInt - bounds.1.toInt) ∧
      EndsRight constraint.range
        (constraint.upperBound.toNat - constraint.lowerBound.toNat) := by
  intro right
  obtain ⟨integer, -⟩ := right (-1) 2147483647 (0, 2147483647) ⟨0, 2147483648, 1⟩
  exact absurd ((endsRight_rangeOf_iff _ _).mp integer) (by decide)

end Esnacc.Cxx
