import Esnacc.Cxx.PerParts
import Mathlib.Data.Nat.Size

/-! The field of at most fifteen bits in which C++ PER keeps a size over the least one. -/

namespace Esnacc.Cxx

open Lib

/-! ## How many bits are needed -/

/-- Numbers up to an `int` need as many bits as they have digits. -/
theorem minBits_natCast {n : Nat} (small : n < 2 ^ 31) : minBits n 0 = .ok n.size := by
  have left : ((n + 1 : Nat) : Int) = n + 2 ^ 0 := by
    push_cast
    rfl
  obtain ⟨m, ran, -, -, enough, tight⟩ := minBits_spec (by omega) (Nat.zero_le 31) left
  rw [ran]
  congr 1
  apply Nat.le_antisymm
  · -- With a bit less there would not be room for the number.
    by_contra wide
    have more := tight (by omega)
    have fewer := Nat.pow_le_pow_right (n := 2) (by decide) (show n.size ≤ m - 1 by omega)
    have room := Nat.lt_size_self n
    omega
  · exact Nat.size_le.mpr (by omega)

theorem minBits_of_nonpos {tempRange : Int} (none : tempRange ≤ 0) : minBits tempRange 0 = .ok 0 := by
  rw [minBits, if_pos none]
  rfl

/-- No power of 2 that is an `int` is the last one taken away from a number that is not one. -/
theorem minBits_fault {tempRange : Int} {k : Nat} (most : k ≤ 31)
    (large : 2 ^ 31 < tempRange + 2 ^ k) : minBits tempRange k = .error .fault := by
  -- The induction is on the powers that are left to an `int`.
  induction turns : 31 - k generalizing k tempRange with
  | zero =>
    obtain rfl : k = 31 := by omega
    rw [minBits, if_neg (by omega), if_pos (Nat.le_refl _)]
    rfl
  | succ turns ih =>
    have power : (2 : Int) ^ k ≤ 2 ^ 31 := by
      exact_mod_cast Nat.pow_le_pow_right (n := 2) (by decide) most
    rw [minBits, if_neg (by omega), if_neg (by omega)]
    apply ih (by omega) _ (by omega)
    rw [Int.pow_succ]
    omega

/-! ## The field -/

/-- Put a number: its octet in front of the last bits where it needs as many, and its last bits. -/
def putSizeOver (minBitsNeeded : Nat) (size : Int) : BitsM UInt64 := do
  let oddBits := minBitsNeeded % 8
  let len ← (if 0 < minBitsNeeded / 8 then putSeg [.ofInt (size >>> oddBits)] 8 else return 0)
  return len + (← putSeg [shl (.ofInt size) (8 - oddBits)] oddBits)

/-- Get a number that was put so, with the bits decoded so far. -/
def getSizeOver (minBitsNeeded : Nat) (bitsDecoded : AsnLen) : BitsM (Nat × AsnLen) := do
  let (size, bitsDecoded) ← (if 0 < minBitsNeeded / 8 then do
      let pStr ← getBits 8
      return ((pStr.headD 0).toNat, bitsDecoded + 8)
    else return (0, bitsDecoded))
  let oddBits := minBitsNeeded % 8
  let pStr ← getBits (.ofNat oddBits)
  let bitsDecoded := bitsDecoded + .ofNat oddBits
  if 0 < oddBits then
    return (size <<< oddBits ||| (shr (pStr.headD 0) (8 - oddBits)).toNat, bitsDecoded)
  else return (size, bitsDecoded)

/-- The number of bits of the field: at most one octet in front of the last bits. -/
@[grind =] def fieldWidth (minBitsNeeded : Nat) : Nat :=
  (if 0 < minBitsNeeded / 8 then 8 else 0) + minBitsNeeded % 8

theorem fieldWidth_of_lt {minBitsNeeded : Nat} (few : minBitsNeeded < 16) :
    fieldWidth minBitsNeeded = minBitsNeeded := by
  rw [fieldWidth]
  split <;> omega

/-- The bits of the field of a number. -/
@[grind =] def sizeField (minBitsNeeded n : Nat) : List Bool :=
  (if 0 < minBitsNeeded / 8 then bitsOf (.ofNat (n >>> (minBitsNeeded % 8))) else []) ++
    (bitsOf (.ofNat n)).drop (8 - minBitsNeeded % 8)

@[simp] theorem length_sizeField (minBitsNeeded n : Nat) :
    (sizeField minBitsNeeded n).length = fieldWidth minBitsNeeded := by
  have odd : ((bitsOf (.ofNat n)).drop (8 - minBitsNeeded % 8)).length = minBitsNeeded % 8 := by
    rw [List.length_drop, length_bitsOf]
    omega
  rw [sizeField, fieldWidth, List.length_append, odd]
  split <;> rfl

/-- The last bits of an octet write what is left of a number. -/
theorem ofBits_lastBits {n k : Nat} (most : k ≤ 8) :
    ofBits ((bitsOf (.ofNat n)).drop (8 - k)) = n % 2 ^ k := by
  have split := ofBits_append ((bitsOf (.ofNat n)).take (8 - k)) ((bitsOf (.ofNat n)).drop (8 - k))
  have below := ofBits_lt ((bitsOf (.ofNat n)).drop (8 - k))
  have width : ((bitsOf (.ofNat n)).drop (8 - k)).length = k := by
    rw [List.length_drop, length_bitsOf]
    omega
  rw [List.take_append_drop, ofBits_bitsOf, UInt8.toNat_ofNat', width] at split
  rw [width] at below
  -- What is in front of the last bits is a multiple of their power of 2.
  have last := congrArg (· % 2 ^ k) split
  simp only [Nat.mul_add_mod_self_right, Nat.mod_eq_of_lt below] at last
  rw [← last]
  exact Nat.mod_mod_of_dvd n (Nat.pow_dvd_pow 2 most)

theorem joinField (n : Nat) {k : Nat} :
    (UInt8.ofNat (n >>> k)).toNat <<< k ||| n % 2 ^ k = n % 2 ^ (8 + k) := by
  have low : n % 2 ^ k < 2 ^ k := Nat.mod_lt _ (Nat.two_pow_pos k)
  rw [← Nat.shiftLeft_add_eq_or_of_lt low, UInt8.toNat_ofNat', Nat.shiftRight_eq_div_pow,
    Nat.shiftLeft_eq, Nat.add_comm 8 k, Nat.pow_add, Nat.mod_mul, Nat.mul_comm (2 ^ k), Nat.add_comm]

theorem toNat_ofInt_natCast (n : Nat) : UInt8.ofInt n = .ofNat n := by
  apply UInt8.toNat_inj.mp
  rw [UInt8.ofInt, UInt8.toNat_ofNat', UInt8.toNat_ofNat']
  omega

/-- A number that is not negative is put in its field. -/
theorem putSizeOver_puts {b : AsnBufBits} (wellFormed : b.WellFormed) (minBitsNeeded n : Nat) :
    Puts (putSizeOver minBitsNeeded n) b (sizeField minBitsNeeded n) := by
  have few : minBitsNeeded % 8 ≤ 8 := by omega
  have moved : (([shl (.ofNat n) (8 - minBitsNeeded % 8)] : List UInt8).flatMap bitsOf).take
      (minBitsNeeded % 8) = (bitsOf (.ofNat n)).drop (8 - minBitsNeeded % 8) := by
    rw [List.flatMap_singleton, bitsOf_shl (by omega)]
    apply List.take_left'
    rw [List.length_drop, length_bitsOf]
    omega
  have odd : ∀ b' : AsnBufBits, b'.WellFormed →
      Puts (putSeg [shl (.ofInt n) (8 - minBitsNeeded % 8)] (minBitsNeeded % 8)) b'
        ((bitsOf (.ofNat n)).drop (8 - minBitsNeeded % 8)) := by
    intro b' here
    rw [toNat_ofInt_natCast, ← moved]
    exact putSeg_puts here _ (by simpa using few) (by omega)
  rw [putSizeOver, sizeField]
  -- The octet comes in front where the number needs eight bits or more.
  by_cases more : 0 < minBitsNeeded / 8
  · have shifted : (n : Int) >>> (minBitsNeeded % 8) = ((n >>> (minBitsNeeded % 8) : Nat) : Int) := rfl
    have octet : Puts (putSeg [.ofInt ((n : Int) >>> (minBitsNeeded % 8))] 8) b
        (bitsOf (.ofNat (n >>> (minBitsNeeded % 8)))) := by
      rw [shifted, toNat_ofInt_natCast]
      exact putOctet_puts wellFormed _
    simp only [if_pos more]
    exact octet.add fun b' wrote => odd b' wrote.wellFormed
  · simp only [if_neg more]
    exact Puts.add ⟨b, rfl, .refl wellFormed⟩ fun b' wrote => odd b' wrote.wellFormed

/-- What the field has of a number is got from it. -/
theorem getSizeOver_gets (bAlign : Bool) (pos minBitsNeeded n : Nat) :
    Gets bAlign pos (sizeField minBitsNeeded n) (getSizeOver minBitsNeeded)
      (· = n % 2 ^ fieldWidth minBitsNeeded) := by
  intro r rest mode stands countable bitsDecoded
  have width : ((bitsOf (.ofNat n)).drop (8 - minBitsNeeded % 8)).length = minBitsNeeded % 8 := by
    rw [List.length_drop, length_bitsOf]
    omega
  have eight : UInt64.ofNat 8 = 8 := rfl
  rw [getSizeOver]
  by_cases more : 0 < minBitsNeeded / 8
  · -- An octet comes first.
    have field : sizeField minBitsNeeded n = bitsOf (.ofNat (n >>> (minBitsNeeded % 8))) ++
        (bitsOf (.ofNat n)).drop (8 - minBitsNeeded % 8) := by
      rw [sizeField, if_pos more]
    have all : fieldWidth minBitsNeeded = 8 + minBitsNeeded % 8 := by
      rw [fieldWidth, if_pos more]
    rw [field] at stands countable ⊢
    rw [all]
    rw [List.append_assoc] at stands countable
    have behindOctet : ((bitsOf (.ofNat n)).drop (8 - minBitsNeeded % 8) ++ rest).length < 2 ^ 64 := by
      rw [List.length_append] at countable
      omega
    obtain ⟨octets, r₁, ran, first, mode₁, stands₁⟩ := stands.getOctet countable
    obtain ⟨octets', r', ranOdd, front, mode', behind⟩ := stands₁.getBits behindOctet width
    refine ⟨_, r', ?_, rfl, mode'.trans (mode₁.trans mode), ?_⟩
    · simp only [if_pos more, bind_assoc, pure_bind]
      rw [run_bind_of_ok ran, run_bind_of_ok ranOdd, first]
      by_cases odd : 0 < minBitsNeeded % 8
      · have low := toNat_shr_headD odd (by omega) width front
        rw [if_pos odd, low, ofBits_lastBits (by omega), joinField, List.length_append, length_bitsOf,
          width, UInt64.ofNat_add, eight, ← UInt64.add_assoc]
        rfl
      · have even : minBitsNeeded % 8 = 0 := by omega
        rw [if_neg odd, List.length_append, length_bitsOf, width, UInt64.ofNat_add, eight,
          ← UInt64.add_assoc, even, Nat.shiftRight_zero, UInt8.toNat_ofNat']
        rfl
    · rwa [List.length_append, length_bitsOf, width, ← Nat.add_assoc]
  · have field : sizeField minBitsNeeded n =
        (bitsOf (.ofNat n)).drop (8 - minBitsNeeded % 8) := by
      rw [sizeField, if_neg more, List.nil_append]
    have all : fieldWidth minBitsNeeded = minBitsNeeded % 8 := by
      rw [fieldWidth, if_neg more, Nat.zero_add]
    rw [field] at stands countable ⊢
    rw [all]
    obtain ⟨octets', r', ranOdd, front, mode', behind⟩ := stands.getBits countable width
    refine ⟨_, r', ?_, rfl, mode'.trans mode, by rwa [width]⟩
    simp only [if_neg more, pure_bind]
    rw [run_bind_of_ok ranOdd]
    by_cases odd : 0 < minBitsNeeded % 8
    · have low := toNat_shr_headD odd (by omega) width front
      rw [if_pos odd, low, ofBits_lastBits (by omega), width, Nat.zero_shiftLeft, Nat.zero_or]
      rfl
    · have even : minBitsNeeded % 8 = 0 := by omega
      rw [if_neg odd, width, even, Nat.pow_zero, Nat.mod_one]
      rfl

end Esnacc.Cxx
