import Esnacc.Ber.Decoding

/-! Content decoders of the primitive types that keep no pieces. -/

namespace Esnacc

open Lib

/-- A floating-point number of the C implementation, which is an IEEE double. -/
abbrev AsnReal := Float

/-- An octet string and its length; the octets are the allocated ones the length covers. -/
structure AsnOcts where
  octetLen : UInt64
  octs : List UInt8
  deriving DecidableEq

/-- An object identifier is kept encoded. -/
abbrev AsnOid := AsnOcts

/-- The infinities `InitAsnInfinity` sets up from their IEEE bits. -/
def PLUS_INFINITY : AsnReal := Float.ofBits 0x7ff0000000000000
def MINUS_INFINITY : AsnReal := -PLUS_INFINITY

def ENC_PLUS_INFINITY : UInt8 := 0x40
def ENC_MINUS_INFINITY : UInt8 := 0x41
def REAL_BINARY : UInt8 := 0x80
def REAL_SIGN : UInt8 := 0x40
def REAL_EXPLEN_MASK : UInt8 := 0x03
def REAL_EXPLEN_1 : UInt8 := 0x00
def REAL_EXPLEN_2 : UInt8 := 0x01
def REAL_EXPLEN_3 : UInt8 := 0x02
def REAL_FACTOR_MASK : UInt8 := 0x0c
def REAL_BASE_MASK : UInt8 := 0x30
def REAL_BASE_2 : UInt8 := 0x00
def REAL_BASE_8 : UInt8 := 0x10
def REAL_BASE_16 : UInt8 := 0x20

/-- A decoder of contents, given the tag, the length and the count of octets decoded before. -/
abbrev ContentDecoder (β α : Type) := AsnTag → AsnLen → AsnLen → Dec β (α × AsnLen)

variable {β : Type} [GenBuf β]

/-- Read the contents of a BOOLEAN. -/
def bDecAsnBoolContent : ContentDecoder β Bool := fun _tagId len bytesDecoded =>
  if len != 1 then asn1Error "BDecAsnBoolContent: ERROR - BOOLEAN length must be 1\n" (-5)
  else do
    let byte ← bufGetByte
    if ← bufReadError then
      asn1Error "BDecAsnBoolContent: ERROR - decoded past end of data\n" (-6)
    else return (byte != 0, bytesDecoded + 1)

/-- Read the contents of a NULL, of which there are none. -/
def bDecAsnNullContent : ContentDecoder β Unit := fun _tagId len bytesDecoded =>
  if len != 0 then asn1Error "BDecAsnNullContent: ERROR - NULL type's len must be 0\n" (-17)
  else return ((), bytesDecoded)

/-- How many turns a loop makes that counts an `int` from `start` up to a length. -/
def turnsUpTo (len : AsnLen) (start : Nat) : Nat :=
  ((intOf len).toInt - start).toNat

/-- Read the contents of an INTEGER. -/
def bDecAsnIntContent : ContentDecoder β Int32 := fun _tagId len bytesDecoded =>
  if len > 4 then asn1Error "BDecAsnIntContent: ERROR - integer to big to decode.\n" (-7)
  else do
    let byte ← bufGetByte
    -- The mask of the sign is an `unsigned int`, so it does not reach the upper half of the word.
    let retVal := if byte &&& 0x80 != 0 then 0xffffff00 ||| byte.toUInt64 else byte.toUInt64
    let retVal ← shiftOctetsIn (turnsUpTo len 1) retVal
    if ← bufReadError then
      asn1Error "BDecAsnIntContent: ERROR - decoded past end of data \n" (-8)
    else return (intOf retVal, bytesDecoded + len)

/-- Read the contents of an INTEGER that is never negative. -/
def bDecUAsnIntContent : ContentDecoder β UInt32 := fun _tag len bytesDecoded => do
  let byte ← bufGetByte
  if len > 5 then asn1Error "BDecUAsnIntContent: ERROR - integer to big to decode.\n" (-9)
  else if byte &&& 0x80 != 0 then
    asn1Error "BDecUAsnIntContent: ERROR - integer is negative.\n" (-10)
  else if len == 5 && byte != 0 then
    asn1Error "BDecUAsnIntContent: ERROR - integer is negative.\n" (-11)
  else
    let retVal ← shiftOctetsIn (turnsUpTo len 1) byte.toUInt64
    if ← bufReadError then
      asn1Error "BDecUIntegerContent: ERROR - decoded past end of data\n" (-12)
    else return (retVal.toUInt32, bytesDecoded + len)

/-- Read the contents of an OBJECT IDENTIFIER. -/
def bDecAsnOidContent : ContentDecoder β AsnOid := fun _tagId len bytesDecoded =>
  if len == INDEFINITE_LEN then
    asn1Error "BDecAsnOidContent: ERROR - indefinite length on primitive\n" (-66)
  else do
    let size ← asn1Alloc len
    let octs ← bufCopy size len
    if ← bufReadError then
      asn1Error "BDecAsnOidContent: ERROR - decoded past end of data\n" (-21)
    else return (⟨len, octs.take len.toNat⟩, bytesDecoded + len)

/--
The loop over the octets of a long exponent.

The loop counts down `firstExpOctet`, while its test is on `i`, which no turn changes.
-/
def expOctetsLoop (i : Int32) : Nat → UInt64 → Dec β UInt64
  | 0, _ => throw .outOfTurns
  | fuel + 1, exponent =>
    if i > 0 then do
      let byte ← bufGetByte
      expOctetsLoop i fuel (exponent <<< 8 ||| byte.toUInt64)
    else return exponent

/-- Read an exponent whose first octet is given; returns the octets it counts for and its value. -/
def decExponent (fuel : Nat) (firstOctet firstExpOctet : UInt8) : Dec β (UInt32 × UInt64) :=
  let exponent : UInt64 := if firstExpOctet &&& 0x80 != 0 then 0xffffffffffffffff else 0
  let explen := firstOctet &&& REAL_EXPLEN_MASK
  if explen == REAL_EXPLEN_1 then return (1, exponent <<< 8 ||| firstExpOctet.toUInt64)
  else if explen == REAL_EXPLEN_2 then do
    let byte ← bufGetByte
    return (2, exponent <<< 16 ||| firstExpOctet.toUInt64 <<< 8 ||| byte.toUInt64)
  else if explen == REAL_EXPLEN_3 then do
    let byte ← bufGetByte
    let exponent := exponent <<< 16 ||| firstExpOctet.toUInt64 <<< 8 ||| byte.toUInt64
    let byte ← bufGetByte
    return (3, exponent <<< 8 ||| byte.toUInt64)
  else do
    -- The long form: the octet read before holds the length of the exponent.
    let expLen := firstExpOctet.toUInt32 + 1
    let i := firstExpOctet.toUInt32.toInt32 - 1
    let firstExpOctet ← bufGetByte
    let exponent : UInt64 :=
      if firstExpOctet &&& 0x80 != 0 then 0xffffffffffffff00 ||| firstExpOctet.toUInt64
      else firstExpOctet.toUInt64
    let exponent ← expOctetsLoop i fuel exponent
    return (expLen, exponent)

/-- Read the octets of a mantissa. -/
def mantissaOctets : Nat → Float → Dec β Float
  | 0, mantissa => return mantissa
  | n + 1, mantissa => do
    let byte ← bufGetByte
    mantissaOctets n (mantissa * Float.ofNat (1 <<< 8) + Float.ofNat byte.toNat)

/-- The base of a binary real, if it is a supported one. -/
def realBase (firstOctet : UInt8) : Option Nat :=
  let base := firstOctet &&& REAL_BASE_MASK
  if base == REAL_BASE_2 then some 2
  else if base == REAL_BASE_8 then some 8
  else if base == REAL_BASE_16 then some 16
  else none

/-- Read what follows the first octet of a binary real. -/
@[grind =] def bDecBinaryReal (fuel : Nat) (firstOctet : UInt8) (len bytesDecoded : AsnLen) :
    Dec β (AsnReal × AsnLen) := do
  let firstExpOctet ← bufGetByte
  let (expLen, exponent) ← decExponent fuel firstOctet firstExpOctet
  let mantissa ← mantissaOctets (turnsUpTo len (1 + expLen.toNat)) 0.0
  -- Adjust by the scaling factor.
  let factor := (firstOctet &&& REAL_FACTOR_MASK) >>> 2
  let mantissa := mantissa * Float.ofNat (1 <<< factor.toNat)
  match realBase firstOctet with
  | none =>
    asn1Error "BDecAsnRealContent: ERROR - unsupported base for a binary real number.\n" (-23)
  | some base =>
    let result := mantissa * Float.pow (Float.ofNat base) (Float.ofInt exponent.toInt64.toInt)
    let result := if firstOctet &&& REAL_SIGN != 0 then -result else result
    return (result, bytesDecoded + len)

/-- Read the contents of a REAL, of which only the binary form is supported. -/
def bDecAsnRealContent (fuel : Nat) : ContentDecoder β AsnReal := fun _tagId len bytesDecoded =>
  if len == 0 then return (0.0, bytesDecoded)
  else if len == INDEFINITE_LEN then
    asn1Error "BDecAsnRealContent: ERROR - indefinite length on primitive.\n" (-67)
  else do
    let firstOctet ← bufGetByte
    if len == 1 then
      if firstOctet == ENC_PLUS_INFINITY then return (PLUS_INFINITY, bytesDecoded + 1)
      else if firstOctet == ENC_MINUS_INFINITY then return (MINUS_INFINITY, bytesDecoded + 1)
      else
        asn1Error "BDecAsnRealContent: ERROR - unrecognized real number of length 1 octet.\n" (-22)
    else if firstOctet &&& REAL_BINARY != 0 then bDecBinaryReal fuel firstOctet len bytesDecoded
    else
      asn1Error "BDecAsnRealContent: ERROR - decimal REAL form is not currently supported\n" (-24)

end Esnacc
