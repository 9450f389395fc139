import Esnacc.Ber.Numbers
import Mathlib.Data.Int.Log
import Mathlib.Data.Rat.Floor
import Mathlib.Algebra.Order.Floor.Semifield
import Mathlib.Tactic.FieldSimp
import Mathlib.Tactic.Ring
import Mathlib.Tactic.Positivity

/-! REAL contents in exact arithmetic: the octets of a double denote the number itself. -/

namespace Esnacc

open Lib

/-! ## The length of an exponent -/

theorem fitsOctets_complement {z : Int} {k : Nat} (some : 0 < k) :
    FitsOctets (-z - 1) k ↔ FitsOctets z k := by
  obtain ⟨m, rfl⟩ := Nat.exists_eq_succ_of_ne_zero some.ne'
  rw [FitsOctets, FitsOctets, Int.pow_succ]
  omega

/-- The mask over the bits of a word finds the least number of octets, for a negative number by its
complement. -/
theorem signedIntOctetLen_least (val : Int64) : LeastOctets val.toInt (signedIntOctetLen val) := by
  have low := Int64.le_toInt val
  have high := Int64.toInt_lt val
  have spec : ∀ w : Int64, 0 ≤ w.toInt →
      LeastOctets w.toInt (octetLenLoop w.toUInt64 8 ((0x7f80 : UInt64) <<< 48)) := by
    intro w nonneg
    have below := Int64.toInt_lt w
    have value : (w.toUInt64.toNat : Int) = w.toInt := by
      have bound := w.toBitVec.isLt
      have signed : w.toInt = _ := BitVec.toInt_eq_toNat_cond w.toBitVec
      rw [← UInt64.toNat_toBitVec, Int64.toBitVec_toUInt64]
      split at signed <;> omega
    rw [← value]
    refine octetLenLoop_spec (by decide) ?_ (by omega)
    intro m size
    obtain rfl : m = 6 := by omega
    rfl
  rw [signedIntOctetLen]
  by_cases negative : val < 0
  · rw [if_pos negative, Int64.xor_neg_one]
    rw [Int64.lt_iff_toInt_lt, show (0 : Int64).toInt = 0 from rfl] at negative
    have value : (~~~val).toInt = -val.toInt - 1 := by
      rw [Int64.toInt_not, Int.bmod_eq_of_le (by omega) (by omega)]
    have least := spec (~~~val) (by omega)
    rw [value] at least
    exact ⟨least.some, (fitsOctets_complement least.some).mp least.fits, fun positive fits =>
      least.least positive ((fitsOctets_complement positive).mpr fits)⟩
  · rw [if_neg negative]
    rw [Int64.lt_iff_toInt_lt, show (0 : Int64).toInt = 0 from rfl] at negative
    exact spec val (by omega)

theorem toInt_shiftRight_octet (exponent : Int32) :
    (exponent >>> 8).toInt = exponent.toInt / 256 := by
  rw [Int32.toInt, Int32.toBitVec_shiftRight, BitVec.sshiftRight_eq', BitVec.toInt_sshiftRight,
    Int.shiftRight_eq_div_pow]
  rfl

theorem toUInt8_toUInt32_eq (exponent : Int32) :
    exponent.toUInt32.toUInt8 = UInt8.ofNat (exponent.toInt % 256).toNat := by
  apply UInt8.toNat_inj.mp
  have bound := exponent.toBitVec.isLt
  rw [UInt32.toNat_toUInt8, ← UInt32.toNat_toBitVec, Int32.toBitVec_toUInt32, Int32.toInt,
    BitVec.toInt_eq_toNat_cond, UInt8.toNat_ofNat']
  split <;> omega

theorem run_putExponent (k : Nat) (exponent : Int32) (held : List UInt8) :
    (putExponent k exponent).run held = ((), lowOctets k exponent.toInt ++ held) := by
  induction k generalizing exponent held with
  | zero => rfl
  | succ k ih =>
    change (putExponent k (exponent >>> 8)).run (exponent.toUInt32.toUInt8 :: held) = _
    rw [ih, toInt_shiftRight_octet, lowOctets, List.append_assoc, toUInt8_toUInt32_eq]
    rfl

/-! ## Exact arithmetic -/

/-- A floating-point number read exactly. -/
inductive ExactReal where
  | finite (q : ℚ)
  | plusInfinity
  | minusInfinity
  deriving DecidableEq

namespace ExactReal

/-- An operation on finite numbers; the code asks for none on an infinity. -/
def map₂ (f : ℚ → ℚ → ℚ) : ExactReal → ExactReal → ExactReal
  | finite x, finite y => finite (f x y)
  | _, _ => plusInfinity

/-- The finite number, where it is one. -/
def value : ExactReal → ℚ
  | finite q => q
  | _ => 0

/-- The exponent of two that takes a number to a mantissa from a half up to one. -/
def binaryExponent (q : ℚ) : Int :=
  Int.log 2 |q| + 1

end ExactReal

/-- Exact arithmetic. -/
def exactReals : RealArith ExactReal where
  zero := .finite 0
  plusInfinity := .plusInfinity
  minusInfinity := .minusInfinity
  ofNat n := .finite n
  neg x := .finite (-x.value)
  add := .map₂ (· + ·)
  sub := .map₂ (· - ·)
  mul := .map₂ (· * ·)
  pow base exponent := .finite ((base : ℚ) ^ exponent)
  equal x y := x == y
  less x y := x.value < y.value
  frexp x := (.finite (x.value / 2 ^ ExactReal.binaryExponent x.value),
    Int32.ofInt (ExactReal.binaryExponent x.value))
  truncate x := UInt32.ofNat ⌊x.value⌋₊

/-! ## The octets of a mantissa -/

/-- A buffer, and its first octets with zeros behind them, stand for a number. -/
structure DigitsKept (buf : List UInt8) (mantissaLen v : Nat) : Prop where
  within : mantissaLen ≤ buf.length
  whole : ofOctets buf = v
  kept : ofOctets (buf.take mantissaLen) * 256 ^ (buf.length - mantissaLen) = v

/-- One more digit is kept, with all those before it, unless it is zero. -/
theorem DigitsKept.push {buf : List UInt8} {mantissaLen v : Nat} (kept : DigitsKept buf mantissaLen v)
    (c : UInt8) :
    DigitsKept (buf ++ [c]) (if c.toNat ≠ 0 then buf.length + 1 else mantissaLen)
      (256 * v + c.toNat) := by
  have whole : ofOctets (buf ++ [c]) = 256 * v + c.toNat := by rw [ofOctets_concat, kept.whole]
  have length : (buf ++ [c]).length = buf.length + 1 := by
    rw [List.length_append, List.length_singleton]
  by_cases zero : c.toNat = 0
  · rw [if_neg (not_not.mpr zero)]
    refine ⟨by have := kept.within; omega, whole, ?_⟩
    rw [List.take_append_of_le_length kept.within, length, Nat.sub_add_comm kept.within, Nat.pow_succ,
      ← Nat.mul_assoc, kept.kept, zero, Nat.mul_comm, Nat.add_zero]
  · rw [if_pos zero]
    refine ⟨length.ge, whole, ?_⟩
    rw [← length, List.take_length, Nat.sub_self, Nat.pow_zero, Nat.mul_one, whole]

/-- The octets that are kept stand for the number that the mantissa is of. -/
theorem DigitsKept.value_eq {buf : List UInt8} {mantissaLen m : Nat} (kept : DigitsKept buf mantissaLen m)
    (length : buf.length = 8) {r : ℚ} {x : Int} (mantissa : r / (2 : ℚ) ^ x = m / (256 : ℚ) ^ 8) :
    r = ofOctets (buf.take mantissaLen) * (2 : ℚ) ^ (x - mantissaLen * 8) := by
  have few : mantissaLen ≤ 8 := kept.within.trans_eq length
  have power : (0 : ℚ) < (2 : ℚ) ^ x := zpow_pos (by norm_num) x
  have whole : (ofOctets (buf.take mantissaLen) : ℚ) * 256 ^ (8 - mantissaLen) = m := by
    have digits := kept.kept
    rw [length] at digits
    exact_mod_cast digits
  have octets : (2 : ℚ) ^ (mantissaLen * 8 : Int) = 256 ^ mantissaLen := by
    rw [mul_comm, zpow_mul, zpow_natCast]
    norm_num
  have parts : (256 : ℚ) ^ 8 = 256 ^ (8 - mantissaLen) * 256 ^ mantissaLen := by
    rw [← pow_add, Nat.sub_add_cancel few]
  rw [div_eq_iff power.ne', ← whole, parts] at mantissa
  rw [mantissa, zpow_sub₀ (by norm_num), octets]
  field_simp

/-- A turn of the loop takes the highest digit of a mantissa. -/
theorem exactReals_digit (turns m : Nat) :
    let tmpMantissa := exactReals.mul (.finite (m / (256 : ℚ) ^ (turns + 1))) (exactReals.ofNat (1 <<< 8))
    exactReals.truncate tmpMantissa = UInt32.ofNat (m / 256 ^ turns) ∧
      exactReals.sub tmpMantissa (exactReals.ofNat (m / 256 ^ turns)) =
        .finite ((m % 256 ^ turns : Nat) / (256 : ℚ) ^ turns) := by
  have power : ((256 ^ turns : Nat) : ℚ) = (256 : ℚ) ^ turns := by
    push_cast
    rfl
  have nonzero : (256 : ℚ) ^ turns ≠ 0 := by positivity
  have shifted : (m : ℚ) / (256 : ℚ) ^ (turns + 1) * ((1 <<< 8 : Nat) : ℚ) = m / (256 : ℚ) ^ turns := by
    have octet : ((1 <<< 8 : Nat) : ℚ) = (256 : ℚ) := rfl
    rw [octet, pow_succ (256 : ℚ), div_mul_eq_mul_div, mul_div_mul_right _ _ (by norm_num)]
  intro tmpMantissa
  have value : tmpMantissa = .finite (m / (256 : ℚ) ^ turns) := congrArg ExactReal.finite shifted
  rw [value]
  constructor
  · change UInt32.ofNat ⌊(m : ℚ) / (256 : ℚ) ^ turns⌋₊ = _
    rw [← power, Nat.floor_div_eq_div]
  · change ExactReal.finite ((m : ℚ) / (256 : ℚ) ^ turns - (m / 256 ^ turns : Nat)) = _
    have whole : (m : ℚ) =
        (256 : ℚ) ^ turns * (m / 256 ^ turns : Nat) + (m % 256 ^ turns : Nat) := by
      rw [← power]
      exact_mod_cast (Nat.div_add_mod m (256 ^ turns)).symm
    congr 1
    field_simp
    linarith

/-- What each digit keeps, the loop keeps for all digits of a mantissa that it has turns enough
for. -/
theorem mantissaBuf_along {P : List UInt8 → Nat → Nat → Prop}
    (push : ∀ (buf : List UInt8) (mantissaLen v : Nat) (c : UInt8), P buf mantissaLen v →
      P (buf ++ [c]) (if c.toNat ≠ 0 then buf.length + 1 else mantissaLen) (256 * v + c.toNat))
    (turns : Nat) {buf : List UInt8} {mantissaLen v : Nat} (m : Nat) (kept : P buf mantissaLen v)
    (below : m < 256 ^ turns) :
    ∃ buf' mantissaLen', mantissaBuf exactReals turns buf.length (.finite (m / (256 : ℚ) ^ turns)) buf
        mantissaLen = (buf', mantissaLen') ∧ buf'.length = buf.length + turns ∧
      P buf' mantissaLen' (256 ^ turns * v + m) := by
  -- The induction is on the turns; each takes the highest digit of what is left.
  induction turns generalizing buf mantissaLen v m with
  | zero =>
    obtain rfl : m = 0 := by
      rw [Nat.pow_zero] at below
      omega
    refine ⟨buf, mantissaLen, rfl, rfl, ?_⟩
    rwa [Nat.pow_zero, Nat.one_mul]
  | succ turns ih =>
    have power : 0 < 256 ^ turns := Nat.pow_pos (by decide)
    have digit : m / 256 ^ turns < 256 := by
      rw [Nat.div_lt_iff_lt_mul power, Nat.mul_comm, ← Nat.pow_succ]
      exact below
    have octet : (UInt32.ofNat (m / 256 ^ turns)).toNat = m / 256 ^ turns :=
      UInt32.toNat_ofNat_of_lt' (by rw [UInt32.size]; omega)
    obtain ⟨truncated, left⟩ := exactReals_digit turns m
    have pushed := push _ _ _ (UInt32.ofNat (m / 256 ^ turns)).toUInt8 kept
    have low : (UInt32.ofNat (m / 256 ^ turns)).toUInt8.toNat = m / 256 ^ turns := by
      rw [UInt32.toNat_toUInt8, octet]
      omega
    rw [low] at pushed
    obtain ⟨buf', mantissaLen', ran, length, kept'⟩ := ih (m % 256 ^ turns) pushed
      (Nat.mod_lt _ power)
    refine ⟨buf', mantissaLen', ?_, ?_, ?_⟩
    · have zero : (UInt32.ofNat (m / 256 ^ turns) != 0) = true ↔ m / 256 ^ turns ≠ 0 := by
        rw [bne_iff_ne, ne_eq, ← UInt32.toNat_inj, octet]
        rfl
      rw [mantissaBuf, truncated, octet, left, ← ran, List.length_append, List.length_singleton,
        if_congr zero rfl rfl]
    · rw [length, List.length_append, List.length_singleton]
      omega
    · have whole := Nat.div_add_mod m (256 ^ turns)
      convert kept' using 1
      rw [pow_succ]
      linarith

theorem mantissaBuf_keeps (turns : Nat) {buf : List UInt8} {mantissaLen v : Nat} (m : Nat)
    (kept : DigitsKept buf mantissaLen v) (below : m < 256 ^ turns) :
    ∃ buf' mantissaLen', mantissaBuf exactReals turns buf.length (.finite (m / (256 : ℚ) ^ turns)) buf
        mantissaLen = (buf', mantissaLen') ∧ buf'.length = buf.length + turns ∧
      DigitsKept buf' mantissaLen' (256 ^ turns * v + m) :=
  mantissaBuf_along (fun _ _ _ c before => before.push c) turns m kept below

/-! ## Doubles -/

/-- A finite double: 53 bits, moved by an exponent of two that a double can have. -/
def IsDouble (q : ℚ) : Prop :=
  ∃ m e : Int, |m| < 2 ^ 53 ∧ -1074 ≤ e ∧ e ≤ 971 ∧ q = m * (2 : ℚ) ^ e

/-- The exponent of a double that is not zero is that of its bits and how many there are. -/
theorem IsDouble.digits {q : ℚ} (double : IsDouble q) (nonzero : q ≠ 0) :
    -1073 ≤ ExactReal.binaryExponent q ∧ ExactReal.binaryExponent q ≤ 1024 ∧
      ∃ m : Nat, m < 256 ^ 8 ∧ |q| / (2 : ℚ) ^ ExactReal.binaryExponent q = m / (256 : ℚ) ^ 8 := by
  obtain ⟨m, e, bits, low, high, rfl⟩ := double
  set x := ExactReal.binaryExponent (m * (2 : ℚ) ^ e)
  have power : (0 : ℚ) < 2 ^ e := zpow_pos (by norm_num) e
  have some : m ≠ 0 := by
    rintro rfl
    exact nonzero (by simp)
  have size : |(m : ℚ) * (2 : ℚ) ^ e| = (m.natAbs : ℚ) * (2 : ℚ) ^ e := by
    rw [abs_mul, abs_of_pos power, ← Int.cast_abs, Int.abs_eq_natAbs, Int.cast_natCast]
  have positive : (0 : ℚ) < |(m : ℚ) * (2 : ℚ) ^ e| := abs_pos.mpr nonzero
  -- The number lies below the power of two of its exponent, and not below the one before it.
  have above : |(m : ℚ) * (2 : ℚ) ^ e| < (2 : ℚ) ^ x := Int.lt_zpow_succ_log_self (by decide) _
  have lower : e < x := by
    have least : (2 : ℚ) ^ e ≤ (m.natAbs : ℚ) * (2 : ℚ) ^ e := by
      have one : (1 : ℚ) ≤ m.natAbs := by exact_mod_cast Int.natAbs_pos.mpr some
      exact le_mul_of_one_le_left power.le one
    rw [size] at above
    exact (zpow_lt_zpow_iff_right₀ (by norm_num)).mp (least.trans_lt above)
  have upper : x ≤ e + 53 := by
    have most : (m.natAbs : ℚ) < 2 ^ (53 : Int) := by
      rw [Int.abs_eq_natAbs] at bits
      exact_mod_cast bits
    have below : |(m : ℚ) * (2 : ℚ) ^ e| < (2 : ℚ) ^ (e + 53) := by
      rw [size, zpow_add₀ (by norm_num), mul_comm]
      exact mul_lt_mul_of_pos_left most power
    have less := (Int.lt_zpow_iff_log_lt (by decide) positive).mp below
    exact less
  have shift : (2 : ℚ) ^ (e - x + 64).toNat = (2 : ℚ) ^ e / (2 : ℚ) ^ x * (256 : ℚ) ^ 8 := by
    rw [← zpow_natCast, Int.toNat_of_nonneg (by omega), zpow_add₀ (by norm_num),
      zpow_sub₀ (by norm_num)]
    norm_num
  have value : |(m : ℚ) * (2 : ℚ) ^ e| / (2 : ℚ) ^ x =
      (m.natAbs * 2 ^ (e - x + 64).toNat : Nat) / (256 : ℚ) ^ 8 := by
    push_cast
    rw [size, shift]
    field_simp
  refine ⟨by omega, by omega, m.natAbs * 2 ^ (e - x + 64).toNat, ?_, value⟩
  have below : |(m : ℚ) * (2 : ℚ) ^ e| / (2 : ℚ) ^ x < 1 := by
    rwa [div_lt_one (zpow_pos (by norm_num) x)]
  rw [value, div_lt_one (by norm_num)] at below
  exact_mod_cast below

/-! ## What is written -/

/-- The first octet of a binary real of base two. -/
def formatOctet (negative : Bool) (expLen : Nat) : UInt8 :=
  (if negative then REAL_BINARY ||| REAL_SIGN else REAL_BINARY) ||| expLenBits expLen

/-- A number is written from its mantissa and an exponent that needs no octet of length. -/
theorem run_bEncBinaryReal {R : Type} {A : RealArith R} {value mantissa : R} {exponent : Int32}
    {negative : Bool} {buf : List UInt8} {mantissaLen expLen : Nat}
    (split : A.frexp value = (mantissa, exponent)) (sign : A.less mantissa A.zero = negative)
    (ran : mantissaBuf A 8 0
      (if negative then A.mul mantissa (A.neg (A.ofNat 1)) else mantissa) [] 0 = (buf, mantissaLen))
    (length : signedIntOctetLen (exponent - Int32.ofNat (mantissaLen * 8)).toInt64 = expLen)
    (short : expLen ≤ 3) (held : List UInt8) :
    (bEncBinaryReal A value).run held = (UInt64.ofNat (mantissaLen + expLen + 1),
      formatOctet negative expLen ::
        (lowOctets expLen (exponent - Int32.ofNat (mantissaLen * 8)).toInt ++
          (buf.take mantissaLen ++ held))) := by
  have notLong : ¬ expLen > 3 := by omega
  rw [bEncBinaryReal, split]
  dsimp only
  rw [sign, ran]
  dsimp only
  rw [length]
  simp only [if_neg notLong]
  change (fun p : Unit × List UInt8 => (_, _ :: p.2))
    ((putExponent _ _).run (buf.take mantissaLen ++ held)) = _
  rw [run_putExponent]
  rfl

/-- The octets of an integer times a power of two stand for a number, apart from its sign. -/
structure RealDigits (q : ℚ) (digits : List UInt8) (expLen : Nat) (z : Int) : Prop where
  few : digits.length ≤ 8
  short : expLen ≤ 2
  least : LeastOctets z expLen
  value : |q| = ofOctets digits * (2 : ℚ) ^ z

/-- A double is written as its format, its exponent in as few octets as hold it, and its mantissa. -/
theorem bEncAsnRealContent_writes {q : ℚ} (double : IsDouble q) (nonzero : q ≠ 0) :
    ∃ digits expLen z, RealDigits q digits expLen z ∧
      (bEncAsnRealContent exactReals (.finite q)).Writes
        (formatOctet (decide (q < 0)) expLen :: (lowOctets expLen z ++ digits)) := by
  obtain ⟨low, high, m, below, mantissa⟩ := double.digits nonzero
  obtain ⟨buf, mantissaLen, ran, length, kept⟩ :=
    mantissaBuf_keeps 8 m (⟨Nat.le_refl 0, rfl, rfl⟩ : DigitsKept [] 0 0) below
  rw [List.length_nil, Nat.zero_add] at length
  have few : mantissaLen ≤ 8 := kept.within.trans_eq length
  set x := ExactReal.binaryExponent q
  have exponent : (Int32.ofInt x - Int32.ofNat (mantissaLen * 8)).toInt = x - mantissaLen * 8 := by
    rw [Int32.toInt_sub, Int32.toInt_ofInt_of_le (by omega) (by omega),
      Int32.toInt_ofNat_of_lt (by omega), Int.bmod_eq_of_le (by omega) (by omega)]
    push_cast
    rfl
  have least := signedIntOctetLen_least (Int32.ofInt x - Int32.ofNat (mantissaLen * 8)).toInt64
  rw [Int32.toInt_toInt64, exponent] at least
  have short := least.least (show 0 < 2 by decide) ⟨by omega, by omega⟩
  refine ⟨buf.take mantissaLen, _, x - mantissaLen * 8, ⟨?_, short, least, ?_⟩, ?_⟩
  · rw [List.length_take]
    omega
  · rw [Nat.mul_zero, Nat.zero_add] at kept
    exact kept.value_eq length mantissa
  · intro held
    have notZero : exactReals.equal (.finite q) exactReals.zero = false := by
      simpa [exactReals] using nonzero
    have power : (0 : ℚ) < (2 : ℚ) ^ x := zpow_pos (by norm_num) x
    -- The mantissa has the sign of the number, which is taken off it.
    have sign : exactReals.less (.finite (q / 2 ^ x)) exactReals.zero = decide (q < 0) := by
      have less : q / 2 ^ x < 0 ↔ q < 0 := by rw [div_lt_iff₀ power, zero_mul]
      exact decide_eq_decide.mpr less
    have absolute : (if decide (q < 0) then exactReals.mul (.finite (q / 2 ^ x))
        (exactReals.neg (exactReals.ofNat 1)) else .finite (q / 2 ^ x)) =
          .finite (m / (256 : ℚ) ^ 8) := by
      by_cases negative : q < 0
      · rw [if_pos (decide_eq_true negative), ← mantissa, abs_of_neg negative]
        change ExactReal.finite (q / 2 ^ x * -((1 : Nat) : ℚ)) = _
        rw [Nat.cast_one, mul_neg_one, neg_div]
      · rw [if_neg (by simpa using negative), ← mantissa, abs_of_nonneg (not_lt.mp negative)]
    have split : exactReals.frexp (.finite q) = (.finite (q / 2 ^ x), Int32.ofInt x) := rfl
    have encodes : bEncAsnRealContent exactReals (.finite q) =
        bEncBinaryReal exactReals (.finite q) := by
      rw [bEncAsnRealContent, notZero]
      rfl
    have loop : mantissaBuf exactReals 8 0 (if decide (q < 0) then exactReals.mul
        (.finite (q / 2 ^ x)) (exactReals.neg (exactReals.ofNat 1)) else .finite (q / 2 ^ x)) [] 0 =
          (buf, mantissaLen) := by
      rw [absolute]
      exact ran
    have total : mantissaLen + signedIntOctetLen
        (Int32.ofInt x - Int32.ofNat (mantissaLen * 8)).toInt64 + 1 =
          1 + (signedIntOctetLen (Int32.ofInt x - Int32.ofNat (mantissaLen * 8)).toInt64 +
            mantissaLen) := by omega
    rw [encodes, run_bEncBinaryReal split sign loop rfl (by omega), exponent, total,
      List.length_cons, List.length_append, length_lowOctets, List.length_take, length,
      Nat.min_eq_left few, Nat.add_comm 1, List.cons_append, List.append_assoc]

/-! ## What is read back -/

theorem toInt_extended (c : UInt8) :
    ((if c &&& 0x80 != 0 then (0xffffffffffffffff : UInt64) else 0) <<< 8 |||
      c.toUInt64).toInt64.toInt = signedOf [c] := by
  have all : ∀ k : Fin 256, ((if UInt8.ofNat k &&& 0x80 != 0 then (0xffffffffffffffff : UInt64)
      else 0) <<< 8 ||| (UInt8.ofNat k).toUInt64).toInt64.toInt = signedOf [UInt8.ofNat k] := by
    decide +kernel
  have here := all ⟨c.toNat, c.toNat_lt⟩
  rwa [show UInt8.ofNat (⟨c.toNat, c.toNat_lt⟩ : Fin 256) = c from UInt8.ofNat_toNat] at here

theorem toInt_shiftLeft_or {w : UInt64} (small : FitsOctets w.toInt64.toInt 7) (c : UInt8) :
    (w <<< 8 ||| c.toUInt64).toInt64.toInt = 256 * w.toInt64.toInt + c.toNat := by
  have digit := c.toNat_lt
  have bound := w.toNat_lt
  have signed : ∀ v : UInt64, v.toInt64.toInt = (v.toNat : Int).bmod (2 ^ 64) := fun v => by
    rw [Int64.toInt, UInt64.toBitVec_toInt64, BitVec.toInt_eq_toNat_bmod, UInt64.toNat_toBitVec]
  rw [signed] at small
  rw [shiftLeft_or_byte, signed, signed, UInt64.toNat_ofNat', Int.natCast_emod, Int.emod_bmod]
  simp only [FitsOctets, Int.bmod_def] at small ⊢
  push_cast
  split at small <;> split <;> omega

section

variable {β : Type} [GenBuf β] {inv : β → Prop} {handles : UInt64 → Prop}
  {unread : β → List UInt8}

/-- The octets of a mantissa are read as the digits of an integer. -/
theorem InOrder.mantissaOctetsOver_held (inOrder : InOrder inv handles unread) (digits : List UInt8)
    (a : ℚ) {s : DecState β} {rest : List UInt8} (valid : (decTape inv unread).valid s)
    (held : unread s.buf = digits ++ rest) :
    ∃ s', (mantissaOctetsOver exactReals digits.length (.finite a)).run s =
        .ok (.finite (a * 256 ^ digits.length + ofOctets digits)) s' ∧
      (decTape inv unread).valid s' ∧ unread s'.buf = rest := by
  induction digits generalizing a s with
  | nil => exact ⟨s, by simp [mantissaOctetsOver], valid, held⟩
  | cons c digits ih =>
    obtain ⟨octet, valid', left⟩ := inOrder.getByte_held valid held
    obtain ⟨s', ran, done⟩ := ih (a * ((1 <<< 8 : Nat) : ℚ) + c.toNat) valid' left
    refine ⟨s', ?_, done⟩
    have digit : (a * ((1 <<< 8 : Nat) : ℚ) + c.toNat) * 256 ^ digits.length + ofOctets digits =
        a * 256 ^ (digits.length + 1) + ofOctets (c :: digits) := by
      rw [ofOctets_cons, show ((1 <<< 8 : Nat) : ℚ) = (256 : ℚ) from rfl]
      push_cast
      ring
    rw [digit] at ran
    rw [List.length_cons, mantissaOctetsOver, EStateM.run_bind, run_bufGetByte]
    dsimp only
    rw [octet]
    exact ran

/-- An exponent of one or two octets is read as their number. -/
theorem InOrder.decExponent_held (inOrder : InOrder inv handles unread) (fuel : Nat)
    {firstOctet c : UInt8} {more : List UInt8} (short : more.length ≤ 1)
    (form : firstOctet &&& REAL_EXPLEN_MASK = expLenBits (more.length + 1)) {s : DecState β}
    {rest : List UInt8} (valid : (decTape inv unread).valid s) (held : unread s.buf = more ++ rest) :
    ∃ w s', (decExponent fuel firstOctet c).run s =
        .ok (UInt32.ofNat (more.length + 1), w) s' ∧ w.toInt64.toInt = signedOf (c :: more) ∧
      (decTape inv unread).valid s' ∧ unread s'.buf = rest := by
  have extended := toInt_extended c
  simp only [decExponent, form, beq_iff_eq]
  cases more with
  | nil =>
    rw [if_pos (show expLenBits ([].length + 1) = REAL_EXPLEN_1 from rfl)]
    exact ⟨_, s, rfl, extended, valid, held⟩
  | cons b more =>
    obtain rfl : more = [] := List.length_eq_zero_iff.mp (by simpa using short)
    obtain ⟨octet, valid', left⟩ := inOrder.getByte_held valid held
    have two : expLenBits ([b].length + 1) = REAL_EXPLEN_2 := rfl
    rw [two, if_neg (show ¬ REAL_EXPLEN_2 = REAL_EXPLEN_1 by decide), if_pos rfl, EStateM.run_bind,
      run_bufGetByte]
    dsimp only
    rw [octet]
    refine ⟨_, _, rfl, ?_, valid', left⟩
    have small : FitsOctets (signedOf [c]) 7 :=
      (fitsOctets_signedOf (List.cons_ne_nil c [])).mono (show 1 ≤ 7 by decide)
    rw [← extended] at small
    rw [show [c, b] = [c] ++ [b] from rfl, signedOf_concat (List.cons_ne_nil c []), ← extended,
      ← toInt_shiftLeft_or small, UInt64.shiftLeft_or]
    split_ifs <;> rfl

theorem formatOctet_parts (negative : Bool) {expLen : Nat} (one : 0 < expLen) (short : expLen ≤ 2) :
    formatOctet negative expLen &&& REAL_BINARY ≠ 0 ∧
      formatOctet negative expLen &&& REAL_EXPLEN_MASK = expLenBits expLen ∧
      (formatOctet negative expLen &&& REAL_FACTOR_MASK) >>> 2 = 0 ∧
      realBase (formatOctet negative expLen) = some 2 ∧
      (formatOctet negative expLen &&& REAL_SIGN != 0) = negative := by
  interval_cases expLen <;> cases negative <;> decide

/-- A binary real of base two is read as an integer times a power of two. -/
theorem InOrder.bDecBinaryRealOver_held (inOrder : InOrder inv handles unread) (fuel : Nat)
    {negative : Bool} {c : UInt8} {more digits : List UInt8} (short : more.length ≤ 1) {len : AsnLen}
    (turns : turnsUpTo len (1 + (more.length + 1)) = digits.length) (n : AsnLen) {s : DecState β}
    {rest : List UInt8} (valid : (decTape inv unread).valid s)
    (held : unread s.buf = c :: (more ++ (digits ++ rest))) :
    ∃ s', (bDecBinaryRealOver exactReals fuel (formatOctet negative (more.length + 1)) len n).run s =
        .ok (.finite ((if negative then -1 else 1) *
          (ofOctets digits * (2 : ℚ) ^ signedOf (c :: more))), n + len) s' ∧
      (decTape inv unread).valid s' ∧ unread s'.buf = rest := by
  obtain ⟨-, form, factor, base, sign⟩ :=
    formatOctet_parts negative (Nat.succ_pos more.length) (by omega)
  have length : (UInt32.ofNat (more.length + 1)).toNat = more.length + 1 :=
    UInt32.toNat_ofNat_of_lt' (by rw [UInt32.size]; omega)
  obtain ⟨octet, valid', left⟩ := inOrder.getByte_held valid held
  obtain ⟨w, s₁, exponent, value, valid'', left'⟩ :=
    inOrder.decExponent_held fuel (c := c) short form valid' left
  obtain ⟨s₂, mantissa, done⟩ := inOrder.mantissaOctetsOver_held digits 0 valid'' left'
  refine ⟨s₂, ?_, done⟩
  rw [bDecBinaryRealOver, EStateM.run_bind, run_bufGetByte]
  dsimp only
  rw [octet, run_bind_of_ok exponent]
  dsimp only
  rw [length, turns, show exactReals.zero = .finite 0 from rfl, run_bind_of_ok mantissa, base, factor,
    sign, value]
  dsimp only
  have product : exactReals.mul (exactReals.mul
      (.finite (0 * 256 ^ digits.length + ofOctets digits)) (exactReals.ofNat (1 <<< UInt8.toNat 0)))
        (exactReals.pow 2 (signedOf (c :: more))) =
          .finite (ofOctets digits * (2 : ℚ) ^ signedOf (c :: more)) := by
    change ExactReal.finite ((0 * 256 ^ digits.length + ofOctets digits) * ((1 : Nat) : ℚ) *
      ((2 : Nat) : ℚ) ^ signedOf (c :: more)) = _
    rw [zero_mul, zero_add, Nat.cast_one, mul_one]
    rfl
  rw [product]
  cases negative with
  | true =>
    rw [if_pos rfl, if_pos rfl, neg_one_mul]
    rfl
  | false =>
    rw [if_neg Bool.false_ne_true, if_neg Bool.false_ne_true, one_mul]
    rfl

/-- What is written for a double is read back as it. -/
theorem InOrder.bDecAsnRealContent_takes (inOrder : InOrder inv handles unread) {q : ℚ}
    {digits : List UInt8} {expLen : Nat} {z : Int} (parts : RealDigits q digits expLen z)
    {octets : List UInt8}
    (written : octets = formatOctet (decide (q < 0)) expLen :: (lowOctets expLen z ++ digits))
    (fuel : Nat) (tag : AsnTag) :
    (decTape inv unread).Takes
      (bDecAsnRealContentOver exactReals fuel tag (UInt64.ofNat octets.length)) octets
      (ExactReal.finite q) := by
  intro s rest valid held n
  have short := parts.short
  have few := parts.few
  -- The exponent has a first octet.
  obtain ⟨c, more, exponent⟩ : ∃ c more, lowOctets expLen z = c :: more :=
    List.exists_cons_of_ne_nil parts.least.shortestSigned.some
  obtain rfl : expLen = more.length + 1 := by
    rw [← length_lowOctets expLen z, exponent, List.length_cons]
  have signed : signedOf (c :: more) = z := by
    rw [← exponent]
    exact parts.least.shortestSigned.signed
  rw [exponent] at written
  subst written
  have size : (formatOctet (decide (q < 0)) (more.length + 1) :: (c :: more ++ digits)).length =
      more.length + 2 + digits.length := by
    rw [List.length_cons, List.length_append, List.length_cons]
    omega
  rw [size]
  obtain ⟨len, total⟩ : ∃ len, UInt64.ofNat (more.length + 2 + digits.length) = len := ⟨_, rfl⟩
  have count : len.toNat = more.length + 2 + digits.length := by
    rw [← total, UInt64.toNat_ofNat_of_lt' (by rw [UInt64.size]; omega)]
  rw [total]
  have binary := (formatOctet_parts (decide (q < 0)) (Nat.succ_pos more.length) short).1
  have notEmpty : len ≠ 0 := by
    rintro rfl
    rw [UInt64.toNat_zero] at count
    omega
  have notSingle : len ≠ 1 := by
    rintro rfl
    rw [UInt64.toNat_one] at count
    omega
  have definite : len ≠ INDEFINITE_LEN := by
    rintro rfl
    have value : INDEFINITE_LEN.toNat = 2 ^ 64 - 1 := rfl
    omega
  have turns : turnsUpTo len (1 + (more.length + 1)) = digits.length := by
    rw [turnsUpTo, toInt_intOf_of_lt (by omega), count]
    omega
  obtain ⟨octet, valid', left⟩ := inOrder.getByte_held valid held
  have behind : unread (GenBuf.getByte s.buf).2 = c :: (more ++ (digits ++ rest)) := by
    rw [left]
    exact congrArg (c :: ·) (List.append_assoc more digits rest)
  obtain ⟨s', ran, done⟩ : ∃ s', (bDecBinaryRealOver exactReals fuel
      (formatOctet (decide (q < 0)) (more.length + 1)) len n).run _ = .ok _ s' ∧ _ :=
    inOrder.bDecBinaryRealOver_held fuel (Nat.le_of_succ_le_succ short) turns n valid' behind
  refine ⟨s', ?_, done⟩
  have number : (if decide (q < 0) then (-1 : ℚ) else 1) *
      (ofOctets digits * (2 : ℚ) ^ signedOf (c :: more)) = q := by
    rw [signed, ← parts.value]
    by_cases negative : q < 0
    · rw [if_pos (decide_eq_true negative), abs_of_neg negative, neg_one_mul, neg_neg]
    · rw [if_neg (by simpa using negative), abs_of_nonneg (not_lt.mp negative), one_mul]
  rw [number] at ran
  rw [bDecAsnRealContentOver, if_neg (fun h => notEmpty (beq_iff_eq.mp h)),
    if_neg (fun h => definite (beq_iff_eq.mp h)), EStateM.run_bind, run_bufGetByte]
  dsimp only
  rw [octet, if_neg (fun h => notSingle (beq_iff_eq.mp h)),
    if_pos (bne_iff_ne.mpr binary), ran, ← total]
  rfl

end

/-- The octets written for a number are read back as exactly it, from simple buffers and from chains. -/
def RealRoundTrips (q : ℚ) : Prop :=
  ∃ octets, (bEncAsnRealContent exactReals (.finite q)).Writes octets ∧ ∀ fuel tag,
    (decTape (fun _ => True) SBuf.unread).Takes
        (bDecAsnRealContentOver exactReals fuel tag (UInt64.ofNat octets.length)) octets
        (ExactReal.finite q) ∧
      (decTape ExpBufRef.Steady ExpBufRef.unread).Takes
        (bDecAsnRealContentOver exactReals fuel tag (UInt64.ofNat octets.length)) octets
        (ExactReal.finite q)

/-- In exact arithmetic, every double but zero makes the round trip, and exponents are measured by the
least number of octets that hold them. -/
theorem realContents_exact :
    (∀ q, IsDouble q → q ≠ 0 → RealRoundTrips q) ∧
      ∀ val, LeastOctets val.toInt (signedIntOctetLen val) := by
  refine ⟨?_, signedIntOctetLen_least⟩
  intro q double nonzero
  obtain ⟨digits, expLen, z, parts, writes⟩ := bEncAsnRealContent_writes double nonzero
  exact ⟨_, writes, fun fuel tag =>
    ⟨sBuf_inOrder.bDecAsnRealContent_takes parts rfl fuel tag,
      expBuf_inOrder.bDecAsnRealContent_takes parts rfl fuel tag⟩⟩

/-- The least double above zero. -/
theorem realContents_exact_least : RealRoundTrips (1 * (2 : ℚ) ^ (-1074 : Int)) :=
  realContents_exact.1 _ ⟨1, -1074, by decide, by decide, by decide, by norm_num⟩
    (mul_ne_zero one_ne_zero (zpow_ne_zero _ two_ne_zero))

end Esnacc
