import Esnacc.Lib.Bits

/-! Contents of any length as parts, each behind its own length. -/

namespace Lib

/-- The octet in front of a fragment of some times 16384 units. -/
def fragmentOctet (k : Nat) : UInt8 := 0xC0 ||| .ofNat k

/--
The parts of contents of a number of units, all of the same number of bits.

Fragments of up to four times 16384 units come first, and a part of fewer than 16384 units last.
-/
def lengthCoded (unit n : Nat) (contents : List Bool) : List Bool :=
  if _more : 16384 ≤ n then
    let k := min (n / 16384) 4
    bitsOf (fragmentOctet k) ++ (contents.take (k * 16384 * unit) ++
      lengthCoded unit (n - k * 16384) (contents.drop (k * 16384 * unit)))
  else if n < 128 then bitsOf (.ofNat n) ++ contents
  else bitsOf (.ofNat (n >>> 8) ||| 0x80) ++ (bitsOf (.ofNat n) ++ contents)
termination_by n
decreasing_by omega

/-- A number of fragments of four times 16384 units. -/
def fragments (unit : Nat) : Nat → List Bool → List Bool
  | 0, _ => []
  | count + 1, contents =>
    bitsOf (fragmentOctet 4) ++ (contents.take (65536 * unit) ++
      fragments unit count (contents.drop (65536 * unit)))

theorem lengthCoded_of_lt_128 {unit n : Nat} {contents : List Bool} (few : n < 128) :
    lengthCoded unit n contents = bitsOf (.ofNat n) ++ contents := by
  rw [lengthCoded, dif_neg (by omega), if_pos few]

theorem lengthCoded_of_lt_16k {unit n : Nat} {contents : List Bool} (least : 128 ≤ n)
    (most : n < 16384) : lengthCoded unit n contents =
      bitsOf (.ofNat (n >>> 8) ||| 0x80) ++ (bitsOf (.ofNat n) ++ contents) := by
  rw [lengthCoded, dif_neg (by omega), if_neg (by omega)]

theorem lengthCoded_of_fragment {unit n k : Nat} {contents : List Bool}
    (some : 1 ≤ k) (size : k = min (n / 16384) 4) : lengthCoded unit n contents =
      bitsOf (fragmentOctet k) ++ (contents.take (k * 16384 * unit) ++
        lengthCoded unit (n - k * 16384) (contents.drop (k * 16384 * unit))) := by
  rw [lengthCoded, dif_pos (by omega), ← size]

/-- Whole fragments of four times 16384 units come in front of what is left. -/
theorem lengthCoded_fragments (unit count n : Nat) (contents : List Bool) :
    lengthCoded unit (count * 65536 + n) contents = fragments unit count contents ++
      lengthCoded unit n (contents.drop (count * 65536 * unit)) := by
  induction count generalizing contents with
  | zero => simp [fragments]
  | succ count ih =>
    -- The first fragment is as long as a fragment can be.
    have longest : 4 = min (((count + 1) * 65536 + n) / 16384) 4 := by omega
    have left : (count + 1) * 65536 + n - 4 * 16384 = count * 65536 + n := by omega
    have behind : (contents.drop (65536 * unit)).drop (count * 65536 * unit) =
        contents.drop ((count + 1) * 65536 * unit) := by
      rw [List.drop_drop, Nat.add_comm, ← Nat.add_mul, ← Nat.succ_mul]
    rw [lengthCoded_of_fragment (by decide) longest, left, ih, fragments, behind]
    simp only [List.append_assoc, Nat.reduceMul]

/-! ## Lengths in octets -/

theorem fragmentOctet_spec {k : Nat} (some : 1 ≤ k) (most : k ≤ 4) :
    fragmentOctet k &&& 0xC0 = 0xC0 ∧ (fragmentOctet k &&& 0x3F).toNat = k := by
  -- There are four of them.
  obtain rfl | rfl | rfl | rfl : k = 1 ∨ k = 2 ∨ k = 3 ∨ k = 4 := by omega
  all_goals exact ⟨rfl, rfl⟩

theorem shortLength_spec {n : Nat} (few : n < 128) :
    UInt8.ofNat n &&& 0xC0 ≠ 0xC0 ∧ UInt8.ofNat n &&& 0xC0 ≠ 0x80 ∧ UInt8.ofNat n &&& 0x80 = 0 ∧
      (UInt8.ofNat n &&& 0x7F).toNat = n := by
  -- Each of the lengths is looked at.
  have all : ∀ i : Fin 128, UInt8.ofNat i.val &&& 0xC0 ≠ 0xC0 ∧ UInt8.ofNat i.val &&& 0xC0 ≠ 0x80 ∧
      UInt8.ofNat i.val &&& 0x80 = 0 ∧ (UInt8.ofNat i.val &&& 0x7F).toNat = i := by decide
  exact all ⟨n, few⟩

theorem longLength_spec {n : Nat} (few : n < 64) :
    (UInt8.ofNat n ||| 0x80) &&& 0xC0 = 0x80 ∧ ((UInt8.ofNat n ||| 0x80) &&& 0x3F).toNat = n := by
  -- Each of the values of these bits is looked at.
  have all : ∀ i : Fin 64, (UInt8.ofNat i.val ||| 0x80) &&& 0xC0 = 0x80 ∧
      ((UInt8.ofNat i.val ||| 0x80) &&& 0x3F).toNat = i := by decide
  exact all ⟨n, few⟩

theorem joinLength (n : Nat) : (n >>> 8) <<< 8 ||| (UInt8.ofNat n).toNat = n := by
  have low : (UInt8.ofNat n).toNat = n % 2 ^ 8 := UInt8.toNat_ofNat'
  have small : n % 2 ^ 8 < 2 ^ 8 := Nat.mod_lt _ (by decide)
  rw [low, ← Nat.shiftLeft_add_eq_or_of_lt small, Nat.shiftLeft_eq, Nat.shiftRight_eq_div_pow]
  omega

end Lib
