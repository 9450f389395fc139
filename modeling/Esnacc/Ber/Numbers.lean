import Esnacc.Ber.Lengths
import Esnacc.Ber.Primitives
import Esnacc.Lib.TwosComplement

/-! BER of the C integers and reals: the loops that write and read their octets. -/

namespace Esnacc

open Lib

/-! ## Source -/

/-- The bits of an INTEGER that its first octet could do without. -/
def INT_MASK : UInt64 :=
  (0x7f80 : UInt64) <<< 16

/-- The loop that finds how many octets a number needs: while the bits under the mask are clear, the
mask slides down an octet. -/
def octetLenLoop (val : UInt64) : Nat → UInt64 → Nat
  | len + 2, mask => if val &&& mask == 0 then octetLenLoop val (len + 1) (mask >>> 8) else len + 2
  | len, _ => len

/-- Put the low octets of a number, the last one first. -/
def putOctets : Nat → UInt64 → Enc Unit
  | 0, _ => return
  | i + 1, dataCpy => do
    bufPutByteRvs dataCpy.toUInt8
    putOctets i (dataCpy >>> 8)

/-- Write the content of an INTEGER that is never negative. -/
def bEncUAsnIntContent (data : UInt32) : Enc AsnLen := do
  let dataCpy := data.toUInt64
  -- The copy is wider than the number, so its sign bit is never set.
  if dataCpy.toInt64 < 0 then
    putOctets 4 dataCpy
    bufPutByteRvs 0
    return 5
  else
    let len := octetLenLoop dataCpy 4 INT_MASK
    putOctets len dataCpy
    return UInt64.ofNat len

/-! ## What is written -/

/-- The octets that are put one after the other are the low ones of the number. -/
theorem run_putOctets (k : Nat) (word : UInt64) (held : List UInt8) :
    (putOctets k word).run held = ((), lowOctets k word.toNat ++ held) := by
  induction k generalizing word held with
  | zero => rfl
  | succ k ih =>
    have shifted : ((word >>> 8).toNat : Int) = (word.toNat : Int) / 256 := by
      rw [UInt64.toNat_shiftRight, show (8 : UInt64).toNat % 64 = 8 from rfl,
        Nat.shiftRight_eq_div_pow]
      rfl
    have low : word.toUInt8 = UInt8.ofNat ((word.toNat : Int) % 256).toNat := by
      apply UInt8.toNat_inj.mp
      rw [UInt64.toNat_toUInt8, UInt8.toNat_ofNat']
      omega
    change (putOctets k (word >>> 8)).run (word.toUInt8 :: held) = _
    rw [ih, shifted, lowOctets, List.append_assoc, low]
    rfl

theorem octetLenLoop_le (val : UInt64) (len : Nat) (mask : UInt64) :
    octetLenLoop val len mask ≤ len := by
  fun_induction octetLenLoop val len mask with
  | case1 len mask _ ih => omega
  | case2 => omega
  | case3 => omega

theorem twice_lt_iff {v k : Nat} : 2 * v < 256 ^ (k + 1) ↔ v < 2 ^ (8 * k + 7) := by
  have power : 256 ^ (k + 1) = 2 * 2 ^ (8 * k + 7) := by
    rw [← Nat.pow_succ', show 256 = 2 ^ 8 from rfl, ← Nat.pow_mul]
    rfl
  rw [power]
  omega

theorem fitsOctets_natCast {v k : Nat} : FitsOctets v k ↔ 2 * v < 256 ^ k := by
  have cast : ((256 ^ k : Nat) : Int) = 256 ^ k := by
    push_cast
    rfl
  rw [FitsOctets, ← cast]
  omega

/-- The loop finds the least number of octets whose top bit a number leaves clear. -/
theorem octetLenLoop_spec {val : UInt64} {len : Nat} {mask : UInt64} (some : 0 < len)
    (masked : ∀ m, len = m + 2 → mask.toNat = 0xFF <<< (8 * m + 7))
    (below : 2 * val.toNat < 256 ^ len) :
    LeastOctets val.toNat (octetLenLoop val len mask) := by
  -- The induction is the loop, whose mask covers what the first octet could do without.
  fun_induction octetLenLoop val len mask with
  | case1 len mask clear ih =>
    have bits := masked len rfl
    have within := (twice_lt_iff (k := len + 1)).mp below
    rw [show 8 * (len + 1) + 7 = 8 * len + 7 + 8 by omega] at within
    have zero : val.toNat &&& 0xFF <<< (8 * len + 7) = 0 := by
      rw [beq_iff_eq] at clear
      rw [← bits, ← UInt64.toNat_and, clear]
      rfl
    rw [and_octet_shiftLeft_eq_zero within] at zero
    refine ih (Nat.succ_pos len) ?_ ((twice_lt_iff (k := len)).mpr zero)
    rintro m size
    obtain rfl : len = m + 1 := Nat.succ.inj size
    rw [UInt64.toNat_shiftRight, bits, show (8 : UInt64).toNat % 64 = 8 from rfl,
      show 8 * (m + 1) + 7 = 8 * m + 7 + 8 by omega, Nat.shiftLeft_add, Nat.shiftLeft_shiftRight]
  | case2 len mask set =>
    have bits := masked len rfl
    have within := (twice_lt_iff (k := len + 1)).mp below
    rw [show 8 * (len + 1) + 7 = 8 * len + 7 + 8 by omega] at within
    have nonzero : ¬ val.toNat &&& 0xFF <<< (8 * len + 7) = 0 := by
      intro zero
      rw [← bits, ← UInt64.toNat_and] at zero
      exact set (beq_iff_eq.mpr (UInt64.toNat_inj.mp zero))
    rw [and_octet_shiftLeft_eq_zero within] at nonzero
    refine ⟨some, fitsOctets_natCast.mpr below, ?_⟩
    intro j _ enough
    by_contra fewer
    have more := fitsOctets_natCast.mp (enough.mono (show j ≤ len + 1 by omega))
    exact nonzero ((twice_lt_iff (k := len)).mp more)
  | case3 len mask notMore =>
    refine ⟨some, fitsOctets_natCast.mpr below, ?_⟩
    intro j positive _
    by_contra fewer
    exact notMore (len - 2) (by omega)

/-- The low octets that the loop asks for are written, and are as short as can be below 2³¹. -/
theorem bEncUAsnIntContent_writes (v : UInt32) :
    ∃ octets, (bEncUAsnIntContent v).Writes octets ∧ octets.length ≤ 4 ∧
      (v.toNat < 2 ^ 31 → ShortestSigned v.toNat octets) := by
  have notNegative : ¬ v.toUInt64.toInt64 < 0 := by
    have value : v.toUInt64.toInt64.toInt = v.toNat := by
      have bound := v.toNat_lt
      rw [Int64.toInt, UInt64.toBitVec_toInt64, BitVec.toInt_eq_toNat_bmod, UInt64.toNat_toBitVec,
        UInt32.toNat_toUInt64, Int.bmod_eq_of_le (by omega) (by omega)]
    rw [Int64.lt_iff_toInt_lt, value, show (0 : Int64).toInt = 0 from rfl]
    omega
  have few := octetLenLoop_le v.toUInt64 4 INT_MASK
  refine ⟨lowOctets (octetLenLoop v.toUInt64 4 INT_MASK) v.toNat, ?_, by rwa [length_lowOctets], ?_⟩
  · intro held
    rw [bEncUAsnIntContent]
    simp only [if_neg notNegative]
    change (fun p : Unit × List UInt8 => (UInt64.ofNat _, p.2)) ((putOctets _ _).run held) = _
    rw [run_putOctets, length_lowOctets, UInt32.toNat_toUInt64]
  · intro small
    have least : LeastOctets v.toUInt64.toNat (octetLenLoop v.toUInt64 4 INT_MASK) := by
      refine octetLenLoop_spec (by decide) ?_ ?_
      · intro m size
        obtain rfl : m = 2 := by omega
        rfl
      · rw [UInt32.toNat_toUInt64]
        omega
    rw [UInt32.toNat_toUInt64] at least
    exact least.shortestSigned

/-! ## What is read back -/

section

variable {β : Type} [GenBuf β] {inv : β → Prop} {handles : UInt64 → Prop}
  {unread : β → List UInt8}

/-- At most four octets that stand for a number without a sign are read as it. -/
theorem InOrder.bDecUAsnIntContent_takes (inOrder : InOrder inv handles unread) (tag : AsnTag)
    {octets : List UInt8} {v : UInt32} (some : octets ≠ []) (few : octets.length ≤ 4)
    (signed : signedOf octets = v.toNat) :
    (decTape inv unread).Takes (bDecUAsnIntContent tag (UInt64.ofNat octets.length)) octets v := by
  intro s rest valid held n
  obtain ⟨first, more, rfl⟩ := List.exists_cons_of_ne_nil some
  rw [List.length_cons] at few
  have count : (UInt64.ofNat (more.length + 1)).toNat = more.length + 1 :=
    UInt64.toNat_ofNat_of_lt' (by rw [UInt64.size]; omega)
  -- A number that is not negative leaves the top bit of the first octet clear.
  have positive : first < 0x80 := by
    by_contra negative
    have below := ofOctets_lt (first :: more)
    rw [signedOf, if_neg negative] at signed
    have cast : ((256 ^ (first :: more).length : Nat) : Int) = 256 ^ (first :: more).length := by
      push_cast
      rfl
    omega
  have clear : ¬ (first &&& 0x80 != 0) = true := by
    have all : ∀ k : Fin 128, UInt8.ofNat k &&& 0x80 = 0 := by decide
    have here := all ⟨first.toNat, UInt8.lt_iff_toNat_lt.mp positive⟩
    rw [show UInt8.ofNat (⟨first.toNat, UInt8.lt_iff_toNat_lt.mp positive⟩ : Fin 128) = first from
      UInt8.ofNat_toNat] at here
    simp [here]
  have number : ofOctets (first :: more) = v.toNat := by
    rw [signedOf, if_pos positive] at signed
    exact_mod_cast signed
  have notBig : ¬ UInt64.ofNat (more.length + 1) > 5 := by
    rw [gt_iff_lt, UInt64.lt_iff_toNat_lt, count, show (5 : UInt64).toNat = 5 from rfl]
    omega
  have notFive : ¬ (UInt64.ofNat (more.length + 1) == 5 && first != 0) = true := by
    intro both
    rw [Bool.and_eq_true, beq_iff_eq] at both
    have five := congrArg UInt64.toNat both.1
    rw [count, show (5 : UInt64).toNat = 5 from rfl] at five
    omega
  have turns : turnsUpTo (UInt64.ofNat (more.length + 1)) 1 = more.length := by
    rw [turnsUpTo, toInt_intOf_of_lt (by rw [count]; omega), count]
    omega
  obtain ⟨octet, valid', left⟩ := inOrder.getByte_held valid held
  obtain ⟨s', ran, valid'', left'⟩ := inOrder.shiftOctetsIn_held first.toUInt64 valid' left
  have value : (UInt64.ofNat (first.toUInt64.toNat * 256 ^ more.length + ofOctets more)).toUInt32 =
      v := by
    rw [UInt8.toNat_toUInt64, ← ofOctets_cons, number]
    apply UInt32.toNat_inj.mp
    have bound := v.toNat_lt
    rw [UInt64.toNat_toUInt32, UInt64.toNat_ofNat']
    omega
  refine ⟨s', ?_, valid'', left'⟩
  simp only [bDecUAsnIntContent, List.length_cons, EStateM.run_bind (x := bufGetByte),
    run_bufGetByte, octet, if_neg notBig, if_neg clear, if_neg notFive, turns]
  rw [run_bind_of_ok ran, checked_eq_ok, value]
  exact ⟨rfl, valid''.2, rfl⟩

end

/-- The shortest octets of a number are written for it, and are read back as it from simple buffers and
from chains. -/
def UIntRoundTrips (v : UInt32) : Prop :=
  ∃ octets, (bEncUAsnIntContent v).Writes octets ∧ ShortestSigned v.toNat octets ∧ ∀ tag,
    (decTape (fun _ => True) SBuf.unread).Takes
        (bDecUAsnIntContent tag (UInt64.ofNat octets.length)) octets v ∧
      (decTape ExpBufRef.Steady ExpBufRef.unread).Takes
        (bDecUAsnIntContent tag (UInt64.ofNat octets.length)) octets v

theorem lt_of_uIntRoundTrips {v : UInt32} (roundTrips : UIntRoundTrips v) : v.toNat < 2 ^ 31 := by
  obtain ⟨octets, writes, shortest, -⟩ := roundTrips
  obtain ⟨octets', writes', few, -⟩ := bEncUAsnIntContent_writes v
  obtain rfl := writes.unique writes'
  have fits := fitsOctets_signedOf shortest.some
  rw [shortest.signed] at fits
  have four := fitsOctets_natCast.mp (fits.mono few)
  omega

/-- An INTEGER that is never negative makes the round trip exactly below 2³¹. -/
theorem uIntRoundTrips_iff (v : UInt32) : UIntRoundTrips v ↔ v.toNat < 2 ^ 31 := by
  constructor
  · exact lt_of_uIntRoundTrips
  · intro small
    obtain ⟨octets, writes, few, least⟩ := bEncUAsnIntContent_writes v
    have shortest := least small
    exact ⟨octets, writes, shortest, fun tag =>
      ⟨sBuf_inOrder.bDecUAsnIntContent_takes tag shortest.some few shortest.signed,
        expBuf_inOrder.bDecUAsnIntContent_takes tag shortest.some few shortest.signed⟩⟩

/-- The number with only the top bit set is written as zero. -/
theorem not_uIntRoundTrips : ¬ ∀ v, UIntRoundTrips v := by
  intro roundTrips
  exact absurd (lt_of_uIntRoundTrips (roundTrips 0x80000000)) (by decide)

section

/-- The arithmetic of floating-point numbers that the code of REAL uses. -/
structure RealArith (R : Type) where
  zero : R
  plusInfinity : R
  minusInfinity : R
  /-- The value of an unsigned integer. -/
  ofNat : Nat → R
  neg : R → R
  add : R → R → R
  sub : R → R → R
  mul : R → R → R
  /-- A base to the power of an exponent. -/
  pow : Nat → Int → R
  /-- Equality, as `==` has it. -/
  equal : R → R → Bool
  /-- The order, as `<` has it. -/
  less : R → R → Bool
  /-- A mantissa from a half up to one, and an exponent of two. -/
  frexp : R → R × Int32
  /-- The conversion to `unsigned int`, which cuts the fraction off. -/
  truncate : R → UInt32

/-- The arithmetic of doubles. -/
def doubles : RealArith AsnReal where
  zero := 0.0
  plusInfinity := PLUS_INFINITY
  minusInfinity := MINUS_INFINITY
  ofNat := Float.ofNat
  neg x := -x
  add x y := x + y
  sub x y := x - y
  mul x y := x * y
  pow base exponent := Float.pow (Float.ofNat base) (Float.ofInt exponent)
  equal x y := x == y
  less x y := x < y
  frexp x := (x.frExp.1, Int32.ofInt x.frExp.2)
  truncate x := x.toUInt32

variable {R : Type} (A : RealArith R)

/-! ## Encoding -/

def REAL_EXPLEN_LONG : UInt8 := 0x03

/-- How many octets a signed number needs. -/
def signedIntOctetLen (val : Int64) : Nat :=
  let mask := (0x7f80 : UInt64) <<< 48
  let val := if val < 0 then val ^^^ -1 else val
  octetLenLoop val.toUInt64 8 mask

/-- BufPutSegRvs. -/
def bufPutSegRvs (seg : List UInt8) : Enc Unit :=
  modify (seg ++ ·)

/-- The loop that turns a mantissa below one into octets, and keeps track of the last one that is not
zero. -/
def mantissaBuf : Nat → Nat → R → List UInt8 → Nat → List UInt8 × Nat
  | 0, _, _, buf, mantissaLen => (buf, mantissaLen)
  | turns + 1, i, tmpMantissa, buf, mantissaLen =>
    let tmpMantissa := A.mul tmpMantissa (A.ofNat (1 <<< 8))
    let truncatedMantissa := A.truncate tmpMantissa
    let tmpMantissa := A.sub tmpMantissa (A.ofNat truncatedMantissa.toNat)
    mantissaBuf turns (i + 1) tmpMantissa (buf ++ [truncatedMantissa.toUInt8])
      (if truncatedMantissa != 0 then i + 1 else mantissaLen)

/-- Put the octets of an exponent, the last one first. -/
def putExponent : Nat → Int32 → Enc Unit
  | 0, _ => return
  | i + 1, exponent => do
    bufPutByteRvs exponent.toUInt32.toUInt8
    putExponent i (exponent >>> 8)

/-- The bits of the first octet that tell how long the exponent is. -/
def expLenBits : Nat → UInt8
  | 1 => REAL_EXPLEN_1
  | 2 => REAL_EXPLEN_2
  | 3 => REAL_EXPLEN_3
  | _ => REAL_EXPLEN_LONG

/-- Write a number other than zero and the infinities. -/
def bEncBinaryReal (value : R) : Enc AsnLen := do
  let (mantissa, exponent) := A.frexp value
  let negative := A.less mantissa A.zero
  let mantissa := if negative then A.mul mantissa (A.neg (A.ofNat 1)) else mantissa
  let (buf, mantissaLen) := mantissaBuf A 8 0 mantissa [] 0
  let firstOctet := if negative then REAL_BINARY ||| REAL_SIGN else REAL_BINARY
  -- The octets of the mantissa are read as an integer, so the exponent makes up for them.
  let exponent := exponent - Int32.ofNat (mantissaLen * 8)
  let expLen := signedIntOctetLen exponent.toInt64
  let firstOctet := firstOctet ||| expLenBits expLen
  let encLen := mantissaLen + expLen + 1
  bufPutSegRvs (buf.take mantissaLen)
  putExponent expLen exponent
  if expLen > 3 then
    bufPutByteRvs (UInt8.ofNat expLen)
    bufPutByteRvs firstOctet
    return UInt64.ofNat (encLen + 1)
  else
    bufPutByteRvs firstOctet
    return UInt64.ofNat encLen

/-- Write the contents of a REAL, of which zero has none. -/
def bEncAsnRealContent (value : R) : Enc AsnLen :=
  if A.equal value A.zero then return 0
  else if A.equal value A.minusInfinity then do
    bufPutByteRvs ENC_MINUS_INFINITY
    return 1
  else if A.equal value A.plusInfinity then do
    bufPutByteRvs ENC_PLUS_INFINITY
    return 1
  else bEncBinaryReal A value

/-! ## Decoding -/

section

variable {β : Type} [GenBuf β]

/-- Read the octets of a mantissa. -/
def mantissaOctetsOver : Nat → R → Dec β R
  | 0, mantissa => return mantissa
  | n + 1, mantissa => do
    let byte ← bufGetByte
    mantissaOctetsOver n (A.add (A.mul mantissa (A.ofNat (1 <<< 8))) (A.ofNat byte.toNat))

/-- Read what follows the first octet of a binary real. -/
def bDecBinaryRealOver (fuel : Nat) (firstOctet : UInt8) (len bytesDecoded : AsnLen) :
    Dec β (R × AsnLen) := do
  let firstExpOctet ← bufGetByte
  let (expLen, exponent) ← decExponent fuel firstOctet firstExpOctet
  let mantissa ← mantissaOctetsOver A (turnsUpTo len (1 + expLen.toNat)) A.zero
  -- Adjust by the scaling factor.
  let factor := (firstOctet &&& REAL_FACTOR_MASK) >>> 2
  let mantissa := A.mul mantissa (A.ofNat (1 <<< factor.toNat))
  match realBase firstOctet with
  | none =>
    asn1Error "BDecAsnRealContent: ERROR - unsupported base for a binary real number.\n" (-23)
  | some base =>
    let result := A.mul mantissa (A.pow base exponent.toInt64.toInt)
    let result := if firstOctet &&& REAL_SIGN != 0 then A.neg result else result
    return (result, bytesDecoded + len)

/-- Read the contents of a REAL, of which only the binary form is supported. -/
def bDecAsnRealContentOver (fuel : Nat) : ContentDecoder β R := fun _tagId len bytesDecoded =>
  if len == 0 then return (A.zero, bytesDecoded)
  else if len == INDEFINITE_LEN then
    asn1Error "BDecAsnRealContent: ERROR - indefinite length on primitive.\n" (-67)
  else do
    let firstOctet ← bufGetByte
    if len == 1 then
      if firstOctet == ENC_PLUS_INFINITY then return (A.plusInfinity, bytesDecoded + 1)
      else if firstOctet == ENC_MINUS_INFINITY then return (A.minusInfinity, bytesDecoded + 1)
      else
        asn1Error "BDecAsnRealContent: ERROR - unrecognized real number of length 1 octet.\n" (-22)
    else if firstOctet &&& REAL_BINARY != 0 then
      bDecBinaryRealOver A fuel firstOctet len bytesDecoded
    else
      asn1Error "BDecAsnRealContent: ERROR - decimal REAL form is not currently supported\n" (-24)

theorem mantissaOctetsOver_doubles (n : Nat) (mantissa : AsnReal) :
    (mantissaOctetsOver doubles n mantissa : Dec β AsnReal) = mantissaOctets n mantissa := by
  induction n generalizing mantissa with
  | zero => rfl
  | succ n ih =>
    simp only [mantissaOctetsOver, mantissaOctets, ih]
    rfl

theorem bDecAsnRealContentOver_doubles :
    (bDecAsnRealContentOver doubles : Nat → ContentDecoder β AsnReal) = bDecAsnRealContent := by
  funext fuel tagId len bytesDecoded
  simp only [bDecAsnRealContentOver, bDecAsnRealContent, bDecBinaryRealOver, bDecBinaryReal,
    mantissaOctetsOver_doubles]
  rfl

end

end

end Esnacc
