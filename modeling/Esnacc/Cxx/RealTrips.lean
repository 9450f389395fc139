import Esnacc.Ber.ExactReals
import Esnacc.Cxx.ContentAccounting
import Esnacc.Cxx.ContentTrips
import Esnacc.Cxx.IntOctets
import Mathlib.Data.Nat.Size

/-! REAL contents of the C++ library in exact arithmetic, and which doubles they give back. -/

namespace Esnacc.Cxx

open Lib

/-! ## Encoding -/

/-- The arithmetic of floating-point numbers, with what the C++ REAL uses of the mathematics
library. -/
structure RealLib (R : Type) extends RealArith R where
  isZero : R → Bool
  isInf : R → Bool
  signBit : R → Bool
  fabs : R → R
  /-- The exponent of the highest bit of a number. -/
  ilogb : R → Int32
  /-- A number times two to the power of an exponent. -/
  scalbn : R → Int32 → R

/-- Put the octets of an exponent, the last one first. -/
def putExponentRvs : Nat → Int32 → BufM Unit
  | 0, _ => return
  | i + 1, exponent => do
    putByteRvs exponent.toUInt32.toUInt8
    putExponentRvs i (exponent >>> 8)

namespace AsnReal

variable {R : Type} (A : RealLib R)

/-- Write a number other than zero and the infinities. -/
def bEncBinaryContent (value : R) : BufM AsnLen := do
  let exponent := A.ilogb value
  let mantissa := A.scalbn (A.fabs value) (-exponent - 1)
  let (buf, mantissaLen) := mantissaBuf A.toRealArith 8 0 mantissa [] 1
  let firstOctet := if A.signBit value then REAL_BINARY ||| REAL_SIGN else REAL_BINARY
  -- The mantissa was taken below one, and its octets are read as an integer.
  let exponent := exponent + 1
  let exponent := exponent - Int32.ofNat (mantissaLen * 8)
  let expLen := signedIntOctetLen exponent.toInt64
  let firstOctet := firstOctet ||| expLenBits expLen
  let encLen := mantissaLen + expLen + 1
  putSegRvs (buf.take mantissaLen)
  putExponentRvs expLen exponent
  if expLen > 3 then
    putByteRvs (.ofNat expLen)
    putByteRvs firstOctet
    return .ofNat (encLen + 1)
  else
    putByteRvs firstOctet
    return .ofNat encLen

/-- Write the contents of a real number, of which zero has none. -/
def bEncContent (value : R) : BufM AsnLen := do
  if A.isZero value then return 0
  else if A.isInf value then
    if A.signBit value then putByteRvs ENC_MINUS_INFINITY else putByteRvs ENC_PLUS_INFINITY
    return 1
  else bEncBinaryContent A value

/-! ## The number that octets are decoded to -/

/-- An octet as a `char`, which has a sign. -/
def charOf (c : UInt8) : Int32 :=
  c.toInt8.toInt32

/-- An octet as an `unsigned char`. -/
def ucharOf (c : UInt8) : Int32 :=
  c.toUInt32.toInt32

/-- The exponent that its octets are put together to, with the octet of the length in the long
form. -/
def exponentOf (firstOctet : UInt8) : List UInt8 → Int32
  | [] => 0
  | firstExpOctet :: rest =>
    let exponent : Int32 := if firstExpOctet &&& 0x80 ≠ 0 then -1 else 0
    if firstOctet &&& REAL_EXPLEN_MASK = REAL_EXPLEN_1 then exponent <<< 8 ||| ucharOf firstExpOctet
    else if firstOctet &&& REAL_EXPLEN_MASK = REAL_EXPLEN_2 then
      exponent <<< 16 ||| ucharOf firstExpOctet <<< 8 ||| charOf (rest.getD 0 0)
    else if firstOctet &&& REAL_EXPLEN_MASK = REAL_EXPLEN_3 then
      let exponent := exponent <<< 16 ||| ucharOf firstExpOctet <<< 8 ||| charOf (rest.getD 0 0)
      exponent <<< 8 ||| charOf (rest.getD 1 0)
    else
      let firstExpOctet := rest.headD 0
      let start := if firstExpOctet &&& 0x80 ≠ 0 then (-1 : Int32) <<< 8 ||| ucharOf firstExpOctet
        else ucharOf firstExpOctet
      rest.tail.foldl (fun exponent c => exponent <<< 8 ||| charOf c) start

/-- Two to the power of a number, by doubling one. -/
def doublings : Nat → R → R
  | 0, exp => exp
  | j + 1, exp => doublings j (A.mul exp (A.ofNat 2))

/-- A number times two to the power of another one. -/
def domainExp (i : R) (j : Nat) : R :=
  A.mul i (doublings A j (A.ofNat 1))

/-- How many bits a digit of the base has. -/
def baseF (firstOctet : UInt8) : Int :=
  if firstOctet &&& REAL_BASE_MASK = 0x00 then 1
  else if firstOctet &&& REAL_BASE_MASK = 0x10 then 3
  else 4

/-- The number that is computed from the octets that were read. -/
def value : AsnReal → R
  | .zero => A.zero
  | .plusInfinity => A.plusInfinity
  | .minusInfinity => A.minusInfinity
  | .binary firstOctet exponent mantissa =>
    let mantissa := mantissa.foldl (fun mantissa cValue =>
      A.add (domainExp A mantissa 8) (A.ofNat cValue.toNat)) A.zero
    let scaleF : Nat := 1 <<< ((firstOctet &&& REAL_FACTOR_MASK) >>> 2).toNat
    let value := A.mul mantissa
      (A.pow 2 (baseF firstOctet * (exponentOf firstOctet exponent).toInt))
    let value := A.mul value (A.ofNat scaleF)
    if firstOctet &&& REAL_SIGN ≠ 0 then A.neg value else value

end AsnReal

/-- Exact arithmetic, with exact binary decompositions. -/
def exactLib : RealLib ExactReal where
  toRealArith := exactReals
  isZero x := x == .finite 0
  isInf x := x == .plusInfinity || x == .minusInfinity
  signBit x := decide (x.value < 0) || x == .minusInfinity
  fabs x := .finite |x.value|
  ilogb x := Int32.ofInt (Int.log 2 |x.value|)
  scalbn x n := .finite (x.value * (2 : ℚ) ^ n.toInt)

/-! ## Numbers in whole octets -/

/-- A number is an integer of whole octets, of which the first bit is set and the last octet is not
zero, times a power of two. -/
structure InOctets (q : ℚ) (n : Nat) (z : Int) : Prop where
  value : |q| = n * (2 : ℚ) ^ z
  whole : 8 ∣ n.size
  last : ¬ 256 ∣ n

/-- The highest bit of an integer times a power of two. -/
theorem log_eq_size {q : ℚ} {n : Nat} {z : Int} (nonzero : q ≠ 0)
    (value : |q| = n * (2 : ℚ) ^ z) : Int.log 2 |q| + 1 = n.size + z := by
  -- The bits of the integer bound it by two powers of two, which the factor moves.
  have positive : 0 < |q| := abs_pos.mpr nonzero
  have power : (0 : ℚ) < 2 ^ z := zpow_pos (by norm_num) z
  have some : 0 < n.size := by
    rw [Nat.size_pos, Nat.pos_iff_ne_zero]
    rintro rfl
    rw [value, Nat.cast_zero, zero_mul] at positive
    exact lt_irrefl _ positive
  have above : |q| < (2 : ℚ) ^ ((n.size : Int) + z) := by
    rw [value, zpow_add₀ (by norm_num), zpow_natCast]
    exact mul_lt_mul_of_pos_right (by exact_mod_cast Nat.lt_size_self n) power
  have below : (2 : ℚ) ^ ((n.size - 1 : Nat) + z) ≤ |q| := by
    have bits : 2 ^ (n.size - 1) ≤ n := Nat.lt_size.mp (by omega)
    rw [value, zpow_add₀ (by norm_num), zpow_natCast]
    exact mul_le_mul_of_nonneg_right (by exact_mod_cast bits) power.le
  have most := (Int.lt_zpow_iff_log_lt (b := 2) (by decide) positive).mp (by exact_mod_cast above)
  have least := (Int.zpow_le_iff_le_log (b := 2) (by decide) positive).mp (by exact_mod_cast below)
  omega

/-- Only one exponent puts a number into whole octets. -/
theorem InOctets.le {q : ℚ} {n n' : Nat} {z z' : Int} (nonzero : q ≠ 0) (octets : InOctets q n z)
    (octets' : InOctets q n' z') : z' ≤ z := by
  -- A higher exponent is higher by whole octets, so that the last one would be zero.
  by_contra higher
  have bits := log_eq_size nonzero octets.value
  have bits' := log_eq_size nonzero octets'.value
  obtain ⟨k, size⟩ := octets.whole
  obtain ⟨k', size'⟩ := octets'.whole
  obtain ⟨j, more⟩ : ∃ j : Nat, z' = z + 8 * (j + 1 : Nat) := ⟨(k - k' - 1), by omega⟩
  have moved : (n : ℚ) = n' * 256 ^ (j + 1) := by
    have power : (0 : ℚ) < 2 ^ z := zpow_pos (by norm_num) z
    have same := octets.value.symm.trans octets'.value
    have octet : (2 : ℚ) ^ (8 * (j + 1 : Nat) : Int) = 256 ^ (j + 1) := by
      rw [zpow_mul, zpow_natCast]
      norm_num
    rw [more, zpow_add₀ (by norm_num), octet, mul_left_comm, mul_comm, mul_right_inj' power.ne']
      at same
    exact same
  have whole : n = n' * 256 ^ (j + 1) := by exact_mod_cast moved
  exact octets.last ⟨n' * 256 ^ j, by rw [whole, pow_succ]; ring⟩

theorem InOctets.unique {q : ℚ} {n n' : Nat} {z z' : Int} (nonzero : q ≠ 0)
    (octets : InOctets q n z) (octets' : InOctets q n' z') : z = z' :=
  le_antisymm (octets'.le nonzero octets) (octets.le nonzero octets')

/-! ## What is written -/

theorem putExponentRvs_eq (k : Nat) (exponent : Int32) :
    putExponentRvs k exponent = putEachRvs (lowOctets k exponent.toInt).reverse := by
  induction k generalizing exponent with
  | zero => rfl
  | succ k ih =>
    rw [putExponentRvs, ih, toInt_shiftRight_octet, toUInt8_toUInt32_eq, lowOctets,
      List.reverse_append]
    rfl

/-- A buffer without the octets that end in a zero, and whether it has any. -/
def LastKept (buf : List UInt8) (mantissaLen v : Nat) : Prop :=
  DigitsKept buf mantissaLen v ∧ (mantissaLen = 0 ∨ ¬ 256 ∣ ofOctets (buf.take mantissaLen))

/-- The last digit that is kept is not zero. -/
theorem LastKept.push {buf : List UInt8} {mantissaLen v : Nat} (kept : LastKept buf mantissaLen v)
    (c : UInt8) : LastKept (buf ++ [c]) (if c.toNat ≠ 0 then buf.length + 1 else mantissaLen)
      (256 * v + c.toNat) := by
  obtain ⟨digits, last⟩ := kept
  refine ⟨digits.push c, ?_⟩
  by_cases zero : c.toNat = 0
  · rw [if_neg (not_not.mpr zero), List.take_append_of_le_length digits.within]
    exact last
  · have bound := c.toNat_lt
    have all : (buf ++ [c]).take (buf.length + 1) = buf ++ [c] :=
      List.take_of_length_le (by simp)
    rw [if_pos zero, all, ofOctets_concat]
    exact .inr (by omega)

theorem mantissaBuf_of_high {R : Type} {A : RealArith R} {turns i : Nat} {m : R}
    (high : (A.truncate (A.mul m (A.ofNat (1 <<< 8))) != 0) = true) (buf : List UInt8)
    (mantissaLen mantissaLen' : Nat) :
    mantissaBuf A (turns + 1) i m buf mantissaLen =
      mantissaBuf A (turns + 1) i m buf mantissaLen' := by
  rw [mantissaBuf, mantissaBuf, high]
  rfl

namespace AsnReal

/-- The octets that are put of a number, from its mantissa and exponent. -/
theorem bEncBinaryContent_writes {R : Type} {A : RealLib R} {value : R} {buf : List UInt8}
    {mantissaLen expLen : Nat} {exponent : Int32} {firstOctet : UInt8}
    (ran : mantissaBuf A.toRealArith 8 0 (A.scalbn (A.fabs value) (-A.ilogb value - 1)) [] 1 =
      (buf, mantissaLen))
    (adjusted : A.ilogb value + 1 - Int32.ofNat (mantissaLen * 8) = exponent)
    (length : signedIntOctetLen exponent.toInt64 = expLen) (short : expLen ≤ 3)
    (within : mantissaLen ≤ buf.length)
    (format : formatOctet (A.signBit value) expLen = firstOctet)
    {holds : AsnBuf → List UInt8 → Prop} (kept : KeptByWrites holds) :
    WritesKeeping holds (bEncBinaryContent A value)
      (firstOctet :: (lowOctets expLen exponent.toInt ++ buf.take mantissaLen)) := by
  -- The mantissa is put first, then the exponent from its last octet on, then the first octet.
  intro b data written
  have few : ¬ expLen > 3 := by omega
  obtain ⟨b₁, ran₁, wrote₁⟩ := kept.run_putSegRvs written (buf.take mantissaLen)
  obtain ⟨b₂, ran₂, wrote₂⟩ := kept.run_putEachRvs wrote₁ (lowOctets expLen exponent.toInt).reverse
  rw [← putExponentRvs_eq, List.reverse_reverse] at *
  obtain ⟨b₃, ran₃, wrote₃⟩ := kept.run_putByteRvs wrote₂ firstOctet
  refine ⟨b₃, ?_, ?_⟩
  · have count : mantissaLen + expLen + 1 =
        (firstOctet :: (lowOctets expLen exponent.toInt ++ buf.take mantissaLen)).length := by
      rw [List.length_cons, List.length_append, length_lowOctets, List.length_take,
        Nat.min_eq_left within, Nat.add_comm mantissaLen]
    rw [bEncBinaryContent, ran]
    dsimp only
    rw [adjusted, length, run_bind_of_ok ran₁, run_bind_of_ok ran₂]
    rw [if_neg few, ← count]
    rw [formatOctet] at format
    rw [format, run_bind_of_ok ran₃]
    rfl
  · rw [List.cons_append, List.append_assoc]
    exact wrote₃

/-- A mantissa that is at least a half has a first digit other than zero. -/
theorem truncate_high {q : ℚ} {m : Nat} (nonzero : q ≠ 0) (below : m < 256 ^ 8)
    (mantissa : |q| / (2 : ℚ) ^ ExactReal.binaryExponent q = m / (256 : ℚ) ^ 8) :
    (exactReals.truncate (exactReals.mul (.finite (m / (256 : ℚ) ^ (7 + 1)))
      (exactReals.ofNat (1 <<< 8))) != 0) = true := by
  have exponentOf : ExactReal.binaryExponent q = Int.log 2 |q| + 1 := rfl
  set x := ExactReal.binaryExponent q
  have power : (0 : ℚ) < (2 : ℚ) ^ x := zpow_pos (by norm_num) x
  have positive : 0 < |q| := abs_pos.mpr nonzero
  have half : 256 ^ 7 ≤ m := by
    have least : (2 : ℚ) ^ (x - 1) ≤ |q| := by
      rw [exponentOf, Int.add_sub_cancel]
      exact_mod_cast Int.zpow_log_le_self (b := 2) (by decide) positive
    rw [zpow_sub₀ (by norm_num), zpow_one, div_le_iff₀ (by norm_num)] at least
    have ratio : (1 : ℚ) / 2 ≤ |q| / 2 ^ x := by
      rw [div_le_div_iff₀ (by norm_num) power]
      linarith
    rw [mantissa, div_le_div_iff₀ (by norm_num) (by norm_num)] at ratio
    have scaled : (256 : ℚ) ^ 7 ≤ m := by linarith
    exact_mod_cast scaled
  -- The first digit is the highest octet of the integer.
  have octet : (UInt32.ofNat (m / 256 ^ 7)).toNat = m / 256 ^ 7 :=
    UInt32.toNat_ofNat_of_lt' (by rw [UInt32.size]; omega)
  have one : 1 ≤ m / 256 ^ 7 := (Nat.le_div_iff_mul_le (by decide)).mpr (by omega)
  rw [(exactReals_digit 7 m).1, bne_iff_ne, ne_eq, ← UInt32.toNat_inj, octet]
  intro zero
  rw [zero] at one
  exact absurd one (by decide)

/-- Exponents of doubles are computed without an overflow. -/
theorem toInt_exponents {x : Int} (low : -1073 ≤ x) (high : x ≤ 1024) {mantissaLen : Nat}
    (few : mantissaLen ≤ 8) :
    (-Int32.ofInt (x - 1) - 1).toInt = -x ∧
      (Int32.ofInt (x - 1) + 1 - Int32.ofNat (mantissaLen * 8)).toInt = x - mantissaLen * 8 := by
  have logb : (Int32.ofInt (x - 1)).toInt = x - 1 :=
    Int32.toInt_ofInt_of_le (by omega) (by omega)
  have one : (1 : Int32).toInt = 1 := rfl
  constructor
  · rw [Int32.toInt_sub, Int32.toInt_neg, logb, one,
      Int.bmod_eq_of_le (n := -(x - 1)) (by omega) (by omega),
      Int.bmod_eq_of_le (by omega) (by omega)]
    omega
  · rw [Int32.toInt_sub, Int32.toInt_add, logb, one, Int32.toInt_ofNat_of_lt (by omega),
      Int.bmod_eq_of_le (n := x - 1 + 1) (by omega) (by omega),
      Int.bmod_eq_of_le (by omega) (by omega)]
    push_cast
    omega

/-- A double is written as its format, its exponent in as few octets as hold it, and its mantissa. -/
theorem bEncContent_writes {q : ℚ} (double : IsDouble q) (nonzero : q ≠ 0) :
    ∃ digits expLen z, RealDigits q digits expLen z ∧ InOctets q (ofOctets digits) z ∧
      ∀ {holds : AsnBuf → List UInt8 → Prop}, KeptByWrites holds →
        WritesKeeping holds (bEncContent exactLib (.finite q))
          (formatOctet (decide (q < 0)) expLen :: (lowOctets expLen z ++ digits)) := by
  -- The octets of the mantissa are kept by the loop, and the exponent makes up for them.
  obtain ⟨low, high, m, below, mantissa⟩ := double.digits nonzero
  have digit := truncate_high nonzero below mantissa
  have exponentOf : ExactReal.binaryExponent q = Int.log 2 |q| + 1 := rfl
  set x := ExactReal.binaryExponent q
  obtain ⟨buf, mantissaLen, ran, length, kept, last⟩ :=
    mantissaBuf_along (P := LastKept) (fun _ _ _ c before => before.push c) 8 m
      (⟨⟨Nat.le_refl 0, rfl, rfl⟩, .inl rfl⟩ : LastKept [] 0 0) below
  rw [List.length_nil, Nat.zero_add] at length
  rw [Nat.mul_zero, Nat.zero_add] at kept
  have few : mantissaLen ≤ 8 := kept.within.trans_eq length
  have value := kept.value_eq length mantissa
  have inOctets : InOctets q (ofOctets (buf.take mantissaLen)) (x - mantissaLen * 8) := by
    have bits := log_eq_size nonzero value
    refine ⟨value, ⟨mantissaLen, by omega⟩, last.resolve_left ?_⟩
    rintro rfl
    rw [List.take_zero, show ofOctets [] = 0 from rfl, Nat.cast_zero, zero_mul] at value
    exact nonzero (abs_eq_zero.mp value)
  obtain ⟨down, exponent⟩ := toInt_exponents low high few
  have logb : exactLib.ilogb (.finite q) = Int32.ofInt (x - 1) := by
    rw [exponentOf, Int.add_sub_cancel]
    rfl
  have scaled : exactLib.scalbn (exactLib.fabs (.finite q)) (-exactLib.ilogb (.finite q) - 1) =
      .finite (m / (256 : ℚ) ^ 8) := by
    rw [logb]
    change ExactReal.finite (|q| * (2 : ℚ) ^ (-Int32.ofInt (x - 1) - 1).toInt) = _
    rw [down, zpow_neg, ← div_eq_mul_inv, mantissa]
  have loop : mantissaBuf exactLib.toRealArith 8 0
      (exactLib.scalbn (exactLib.fabs (.finite q)) (-exactLib.ilogb (.finite q) - 1)) [] 1 =
        (buf, mantissaLen) := by
    rw [scaled, ← ran]
    exact mantissaBuf_of_high digit [] 1 0
  have least := signedIntOctetLen_least
    (Int32.ofInt (x - 1) + 1 - Int32.ofNat (mantissaLen * 8)).toInt64
  rw [Int32.toInt_toInt64, exponent] at least
  have short := least.least (show 0 < 2 by decide) ⟨by omega, by omega⟩
  have eight : (buf.take mantissaLen).length ≤ 8 := by
    rw [List.length_take]
    omega
  refine ⟨buf.take mantissaLen, _, x - mantissaLen * 8, ⟨eight, short, least, value⟩, inOctets, ?_⟩
  have sign : exactLib.signBit (.finite q) = decide (q < 0) := by
    change (decide (q < 0) || false) = _
    rw [Bool.or_false]
  have encodes : bEncContent exactLib (.finite q) = bEncBinaryContent exactLib (.finite q) := by
    have notZero : exactLib.isZero (.finite q) = false := by
      simpa [exactLib] using nonzero
    rw [bEncContent, notZero]
    rfl
  have format : formatOctet (exactLib.signBit (.finite q)) (signedIntOctetLen
      (Int32.ofInt (x - 1) + 1 - Int32.ofNat (mantissaLen * 8)).toInt64) = _ := rfl
  intro holds keptByWrites
  have written := bEncBinaryContent_writes loop (by rw [logb]) rfl (by omega) kept.within format
    keptByWrites
  rw [exponent, sign] at written
  rw [encodes]
  exact written

/-! ## What is read back -/

/-- An octet joined behind an exponent is its low digit. -/
theorem toInt_shiftLeft_ucharOf {w : Int32} (low : -2 ^ 23 ≤ w.toInt) (high : w.toInt < 2 ^ 23)
    (c : UInt8) : (w <<< 8 ||| ucharOf c).toInt = 256 * w.toInt + c.toNat := by
  -- As words without a sign they are joined modulo 2^32, which is no less than what is needed.
  have word : (w <<< 8 ||| ucharOf c).toUInt32 = w.toUInt32 <<< 8 ||| c.toUInt32 := rfl
  have signed : ∀ v : Int32, v.toInt = (v.toUInt32.toNat : Int).bmod (2 ^ 32) :=
    fun v => BitVec.toInt_eq_toNat_bmod _
  have digit := c.toNat_lt
  have bound := w.toUInt32.toNat_lt
  rw [signed w] at low high ⊢
  rw [signed, word, toNat_or_octet, Int.natCast_emod]
  simp only [Int.bmod_def] at low high ⊢
  push_cast
  split at low <;> split <;> omega

/-- Every octet is looked at as a `char` and as an exponent. -/
theorem charOf_each (c : Fin 256) :
    (0x80 ≤ UInt8.ofFin c →
      charOf (.ofFin c) = (-1 : Int32) <<< 8 ||| ucharOf (.ofFin c) ∧
        (charOf (.ofFin c)).toInt = (UInt8.ofFin c).toNat - 256) ∧
      (UInt8.ofFin c < 0x80 → charOf (.ofFin c) = ucharOf (.ofFin c)) ∧
      ((if UInt8.ofFin c &&& 0x80 ≠ 0 then (-1 : Int32) else 0) <<< 8 |||
        ucharOf (.ofFin c)).toInt = signedOf [.ofFin c] := by
  revert c
  decide +kernel

theorem shiftLeft_or_charOf (w : Int32) {c : UInt8} (high : 0x80 ≤ c) :
    w <<< 8 ||| charOf c = charOf c := by
  have same : charOf c = (-1 : Int32) <<< 8 ||| ucharOf c := ((charOf_each c.toFin).1 high).1
  rw [same, ← Int32.or_assoc, ← Int32.shiftLeft_or, Int32.or_neg_one]

theorem toInt_charOf_of_high {c : UInt8} (high : 0x80 ≤ c) :
    (charOf c).toInt = c.toNat - 256 :=
  ((charOf_each c.toFin).1 high).2

theorem charOf_of_low {c : UInt8} (low : c < 0x80) : charOf c = ucharOf c :=
  (charOf_each c.toFin).2.1 low

theorem toInt_firstExpOctet (c : UInt8) :
    ((if c &&& 0x80 ≠ 0 then (-1 : Int32) else 0) <<< 8 ||| ucharOf c).toInt = signedOf [c] :=
  (charOf_each c.toFin).2.2

/-- An exponent that needs just one octet, or of which the last octet is no negative `char`. -/
def ExponentKept (z : Int) : Prop :=
  -128 ≤ z ∧ z < 128 ∨ z % 256 < 128

/-- Of the exponents of one or two octets, the ones that are kept are put together as they were. -/
theorem exponentOf_eq_iff {z : Int} {expLen : Nat} (least : LeastOctets z expLen)
    (short : expLen ≤ 2) (negative : Bool) :
    (exponentOf (formatOctet negative expLen) (lowOctets expLen z)).toInt = z ↔
      ExponentKept z := by
  have some := least.some
  obtain ⟨-, form, -⟩ := formatOctet_parts negative some short
  have shortest := least.shortestSigned
  have length := length_lowOctets expLen z
  have number := shortest.signed
  obtain ⟨c, more, octets⟩ := List.exists_cons_of_ne_nil shortest.some
  rw [octets] at length number ⊢
  have first := toInt_firstExpOctet c
  have bounds := fitsOctets_signedOf (List.cons_ne_nil c [])
  obtain ⟨lower, upper⟩ := bounds
  rw [List.length_singleton] at lower upper
  rw [exponentOf, form]
  rw [List.length_cons] at length
  obtain rfl | rfl : expLen = 1 ∨ expLen = 2 := by omega
  · -- One octet has a sign of its own.
    obtain rfl : more = [] := List.length_eq_zero_iff.mp (by omega)
    rw [← number]
    refine iff_of_true first (.inl ?_)
    omega
  · obtain ⟨d, rfl⟩ : ∃ d, more = [d] := List.length_eq_one_iff.mp (by omega)
    have whole := signedOf_concat (List.cons_ne_nil c []) d
    rw [List.singleton_append, number] at whole
    have digit := d.toNat_lt
    have two : expLenBits 2 ≠ REAL_EXPLEN_1 := by decide
    have form' : expLenBits 2 = REAL_EXPLEN_2 := rfl
    have joined : (if c &&& 0x80 ≠ 0 then (-1 : Int32) else 0) <<< 16 ||| ucharOf c <<< 8 =
        ((if c &&& 0x80 ≠ 0 then (-1 : Int32) else 0) <<< 8 ||| ucharOf c) <<< 8 := by
      have twice : (if c &&& 0x80 ≠ 0 then (-1 : Int32) else 0) <<< 16 =
          (if c &&& 0x80 ≠ 0 then (-1 : Int32) else 0) <<< 8 <<< 8 := by
        split_ifs <;> rfl
      rw [twice, Int32.shiftLeft_or]
    dsimp only
    rw [if_neg two, if_pos form', joined, List.getD_cons_zero]
    rcases UInt8.lt_or_le d 0x80 with below | top
    · have small : d.toNat < 128 := UInt8.lt_iff_toNat_lt.mp below
      rw [charOf_of_low below, toInt_shiftLeft_ucharOf (by omega) (by omega), first, ← whole]
      exact iff_of_true rfl (.inr (by omega))
    · -- The first octet is lost, and it was needed.
      have large : 128 ≤ d.toNat := UInt8.le_iff_toNat_le.mp top
      have needed : ¬ (-128 ≤ z ∧ z < 128) := by
        rintro ⟨low, high⟩
        have one := least.least (show 0 < 1 by decide) ⟨by omega, by omega⟩
        omega
      rw [shiftLeft_or_charOf _ top, toInt_charOf_of_high top]
      refine iff_of_false (fun same => needed (by omega)) ?_
      rintro (few | below)
      · exact needed few
      · omega

/-- The octets of a mantissa are put together as the digits of an integer. -/
theorem foldl_mantissa (digits : List UInt8) (a : ℚ) :
    digits.foldl (fun mantissa cValue => exactLib.add (domainExp exactLib mantissa 8)
      (exactLib.ofNat cValue.toNat)) (ExactReal.finite a) =
        ExactReal.finite (a * 256 ^ digits.length + ofOctets digits) := by
  induction digits generalizing a with
  | nil => simp
  | cons c rest ih =>
    have eight : domainExp exactLib (ExactReal.finite a) 8 = ExactReal.finite (a * 256) := by
      change ExactReal.finite (a * (((1 : Nat) : ℚ) * ((2 : Nat) : ℚ) * ((2 : Nat) : ℚ) *
        ((2 : Nat) : ℚ) * ((2 : Nat) : ℚ) * ((2 : Nat) : ℚ) * ((2 : Nat) : ℚ) * ((2 : Nat) : ℚ) *
          ((2 : Nat) : ℚ))) = _
      norm_num
    rw [List.foldl_cons, eight]
    change rest.foldl _ (ExactReal.finite (a * 256 + (c.toNat : ℚ))) = _
    rw [ih, ofOctets_cons, List.length_cons]
    congr 1
    push_cast
    ring

/-- A binary real of base two is the integer of its mantissa times a power of two. -/
theorem value_binary (negative : Bool) {expLen : Nat} (some : 0 < expLen) (short : expLen ≤ 2)
    (exponent digits : List UInt8) :
    (binary (formatOctet negative expLen) exponent digits).value exactLib =
      .finite ((if negative then -1 else 1) * (ofOctets digits *
        (2 : ℚ) ^ (exponentOf (formatOctet negative expLen) exponent).toInt)) := by
  -- The base is two, and the scaling factor one.
  obtain ⟨-, -, factor, base, sign⟩ := formatOctet_parts negative some short
  have two : baseF (formatOctet negative expLen) = 1 := by
    clear sign factor base
    interval_cases expLen <;> cases negative <;> decide
  have whole := foldl_mantissa digits 0
  rw [zero_mul, zero_add] at whole
  have product : exactLib.mul (exactLib.mul (ExactReal.finite (ofOctets digits))
      (exactLib.pow 2 (1 * (exponentOf (formatOctet negative expLen) exponent).toInt)))
        (exactLib.ofNat (1 <<< UInt8.toNat 0)) = .finite (ofOctets digits *
          (2 : ℚ) ^ (exponentOf (formatOctet negative expLen) exponent).toInt) := by
    change ExactReal.finite (ofOctets digits * ((2 : Nat) : ℚ) ^ (1 * _) * ((1 : Nat) : ℚ)) = _
    rw [Int.one_mul, Nat.cast_one, mul_one]
    rfl
  have zero : exactLib.zero = ExactReal.finite 0 := rfl
  rw [value, zero, whole, factor, two, product]
  cases negative with
  | true =>
    rw [if_pos (bne_iff_ne.mp sign), if_pos rfl, neg_one_mul]
    rfl
  | false =>
    have positive : ¬ formatOctet false expLen &&& REAL_SIGN ≠ 0 := by
      rw [← bne_iff_ne, sign]
      exact Bool.false_ne_true
    rw [if_neg positive, if_neg Bool.false_ne_true, one_mul]

/-- Octets of a binary real are read as they are. -/
theorem bDecContent_binary {b : AsnBuf} (sound : b.Sound) {negative : Bool} {expLen : Nat}
    (some : 0 < expLen) (short : expLen ≤ 2) {exponent digits data : List UInt8}
    (length : exponent.length = expLen) (few : digits.length ≤ 8) {octets : List UInt8}
    (written : octets = formatOctet negative expLen :: (exponent ++ digits))
    (unread : b.unread = octets ++ data) (n : AsnLen) :
    ∃ b', (bDecContent (.ofNat octets.length) n).run b =
        .ok (.binary (formatOctet negative expLen) exponent digits, n + .ofNat octets.length) b' ∧
      b'.unread = data := by
  -- The length covers the first octet, the exponent and the mantissa.
  subst written
  obtain ⟨binary, form, -, base, -⟩ := formatOctet_parts negative some short
  obtain ⟨c, more, rfl⟩ : ∃ c more, exponent = c :: more :=
    List.exists_cons_of_ne_nil (List.length_pos_iff.mp (by omega))
  rw [List.length_cons] at length
  have size : (formatOctet negative expLen :: (c :: more ++ digits)).length =
      1 + expLen + digits.length := by
    rw [List.length_cons, List.length_append, List.length_cons]
    omega
  rw [size]
  obtain ⟨len, total⟩ : ∃ len, UInt64.ofNat (1 + expLen + digits.length) = len := ⟨_, rfl⟩
  have count : len.toNat = 1 + expLen + digits.length := by
    rw [← total, UInt64.toNat_ofNat_of_lt' (by rw [UInt64.size]; omega)]
  rw [total]
  have notEmpty : len ≠ 0 := by
    rintro rfl
    rw [UInt64.toNat_zero] at count
    omega
  have notSingle : len ≠ 1 := by
    rintro rfl
    rw [UInt64.toNat_one] at count
    omega
  have definite : len ≠ INDEFINITE_LEN := by
    rintro rfl
    have value : INDEFINITE_LEN.toNat = 2 ^ 64 - 1 := rfl
    omega
  have supported : formatOctet negative expLen &&& 0x30 ≠ 0x30 := by
    clear form base binary size
    interval_cases expLen <;> cases negative <;> decide
  have lens : Cxx.expLen (formatOctet negative expLen) c = expLen ∧
      expRest (formatOctet negative expLen) c = expLen - 1 := by
    clear supported form base binary size length total count
    interval_cases expLen <;> cases negative <;> exact ⟨rfl, rfl⟩
  have behind : b.unread = formatOctet negative expLen :: c :: (more ++ (digits ++ data)) := by
    rw [unread, List.cons_append, List.cons_append, List.cons_append, List.append_assoc]
  have turns : digits.length =
      ((intOf len).toInt - (1 + Cxx.expLen (formatOctet negative expLen) c : Nat)).toNat := by
    rw [lens.1, toInt_intOf_of_lt (by omega), count]
    omega
  have enough : more.length + digits.length ≤ (more ++ (digits ++ data)).length := by
    rw [List.length_append, List.length_append]
    omega
  obtain ⟨b', ran, left, -⟩ := bDecContent_acts (n := n) sound behind notEmpty notSingle definite
    binary supported (by rw [lens.2]; omega) turns enough
  rw [List.take_left, List.drop_left, List.take_left] at ran
  rw [List.drop_left, List.drop_left] at left
  exact ⟨b', ran, left⟩

/-- A double is written as octets that are read back as exactly it. -/
def Exact (q : ℚ) : Prop :=
  ∃ octets, WritesFront (bEncContent exactLib (.finite q)) octets ∧
    ∀ (b : AsnBuf) (data : List UInt8) (n : AsnLen), b.Sound → b.unread = octets ++ data →
      ∃ v b', (bDecContent (.ofNat octets.length) n).run b = .ok (v, n + .ofNat octets.length) b' ∧
        b'.unread = data ∧ v.value exactLib = .finite q

/-- A double in whole octets makes the round trip exactly if its exponent is kept. -/
theorem exact_iff_kept {q : ℚ} (double : IsDouble q) (nonzero : q ≠ 0) :
    ∃ n z, InOctets q n z ∧ (Exact q ↔ ExponentKept z) := by
  obtain ⟨digits, expLen, z, parts, inOctets, keeping⟩ := bEncContent_writes double nonzero
  have writes : WritesFront (bEncContent exactLib (.finite q))
      (formatOctet (decide (q < 0)) expLen :: (lowOctets expLen z ++ digits)) :=
    keeping written_keptByWrites
  refine ⟨_, z, inOctets, ?_⟩
  rw [← exponentOf_eq_iff parts.least parts.short (decide (q < 0))]
  have number := value_binary (decide (q < 0)) parts.least.some parts.short (lowOctets expLen z)
    digits
  have length := length_lowOctets expLen z
  have signed : q = (if decide (q < 0) then -1 else 1) * |q| := by
    by_cases negative : q < 0
    · rw [if_pos (decide_eq_true negative), abs_of_neg negative, neg_one_mul, neg_neg]
    · rw [if_neg (by simpa using negative), abs_of_nonneg (not_lt.mp negative), one_mul]
  constructor
  · rintro ⟨octets, writes', reads⟩
    obtain rfl := writes'.unique writes
    have small : (formatOctet (decide (q < 0)) expLen ::
        (lowOctets expLen z ++ digits)).length < 2 ^ 31 := by
      have few := parts.few
      have short := parts.short
      rw [List.length_cons, List.length_append, length]
      omega
    have sound := AsnBuf.ofSeg_sound (List.cons_ne_nil _ _) small
    have unread : (AsnBuf.ofSeg (formatOctet (decide (q < 0)) expLen ::
        (lowOctets expLen z ++ digits))).unread = formatOctet (decide (q < 0)) expLen ::
          (lowOctets expLen z ++ digits) ++ [] := rfl
    obtain ⟨v, b', ran, -, value⟩ := reads _ [] 0 sound unread
    obtain ⟨b'', ran', -⟩ := bDecContent_binary sound parts.least.some parts.short length parts.few
      rfl unread 0
    -- What is read is the same, so that the two powers of two are.
    obtain ⟨same, -⟩ := EStateM.Result.ok.inj (ran.symm.trans ran')
    rw [(Prod.mk.inj same).1, number] at value
    have numbers := (ExactReal.finite.inj value).trans signed
    have one : (if decide (q < 0) then (-1 : ℚ) else 1) ≠ 0 := by
      split_ifs <;> norm_num
    have positive : (ofOctets digits : ℚ) ≠ 0 := by
      intro zero
      have none := parts.value
      rw [zero, zero_mul, abs_eq_zero] at none
      exact nonzero none
    rw [parts.value, mul_right_inj' one, mul_right_inj' positive] at numbers
    exact zpow_right_injective₀ (by norm_num) (by norm_num) numbers
  · intro same
    refine ⟨_, writes, fun b data n sound unread => ?_⟩
    obtain ⟨b', ran, left⟩ := bDecContent_binary sound parts.least.some parts.short length parts.few
      rfl unread n
    refine ⟨_, b', ran, left, ?_⟩
    rw [number, same, ← parts.value, ← signed]

/-- A double makes the round trip exactly if the exponent that it has in whole octets is kept. -/
theorem exact_iff {q : ℚ} (double : IsDouble q) (nonzero : q ≠ 0) :
    Exact q ↔ ∃ n z, InOctets q n z ∧ ExponentKept z := by
  obtain ⟨n, z, inOctets, kept⟩ := exact_iff_kept double nonzero
  rw [kept]
  constructor
  · intro yes
    exact ⟨n, z, inOctets, yes⟩
  · rintro ⟨n', z', inOctets', yes⟩
    rwa [inOctets.unique nonzero inOctets']

/-- One is written with an exponent of one octet. -/
theorem exact_iff_one : Exact 1 := by
  have double : IsDouble 1 := ⟨1, 0, by decide, by decide, by decide, by norm_num⟩
  refine (exact_iff double one_ne_zero).mpr ⟨128, -7, ⟨by norm_num, by decide, by decide⟩, .inl ?_⟩
  decide

/-- Two to the power of two hundred is written with an exponent that is read as another one. -/
theorem not_exact : ¬ ∀ q, IsDouble q → q ≠ 0 → Exact q := by
  intro exact
  have double : IsDouble (2 ^ 200) := ⟨1, 200, by decide, by decide, by decide, by norm_num⟩
  have nonzero : (2 : ℚ) ^ 200 ≠ 0 := by norm_num
  have octets : InOctets (2 ^ 200) 128 193 := ⟨by norm_num, by decide, by decide⟩
  obtain ⟨n, z, inOctets, kept⟩ := exact_iff_kept double nonzero
  rw [inOctets.unique nonzero octets] at kept
  rcases kept.mp (exact _ double nonzero) with ⟨-, few⟩ | low
  · exact absurd few (by decide)
  · exact absurd low (by decide)

end AsnReal

end Esnacc.Cxx
