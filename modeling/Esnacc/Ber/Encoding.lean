import Esnacc.Ber.Tag

/-! Encoding from the back: octets are put in front of those that a buffer holds. -/

namespace Esnacc

/-- An encoder, over the octets that its buffer holds. -/
abbrev Enc := StateM (List UInt8)

/-- BufPutByteRvs. -/
def bufPutByteRvs (octet : UInt8) : Enc Unit :=
  modify (octet :: ·)

/-! ## Lengths -/

/-- Encode a definite length, unrolled for each number of octets. -/
def bEncDefLen (len : AsnLen) : Enc AsnLen := do
  if len < 128 then
    bufPutByteRvs len.toUInt8
    return 1
  else if len < 256 then
    bufPutByteRvs len.toUInt8
    bufPutByteRvs 0x81
    return 2
  else if len < 65536 then
    bufPutByteRvs len.toUInt8
    bufPutByteRvs (len >>> 8).toUInt8
    bufPutByteRvs 0x82
    return 3
  else if len < 16777126 then
    bufPutByteRvs len.toUInt8
    bufPutByteRvs (len >>> 8).toUInt8
    bufPutByteRvs (len >>> 16).toUInt8
    bufPutByteRvs 0x83
    return 4
  else
    bufPutByteRvs len.toUInt8
    bufPutByteRvs (len >>> 8).toUInt8
    bufPutByteRvs (len >>> 16).toUInt8
    bufPutByteRvs (len >>> 24).toUInt8
    bufPutByteRvs 0x84
    return 5

/-- The loop of `BEncDefLen2`: put the octets of a number, the last one first, and count them. -/
def bEncLenOctets (i : UInt32) (j : UInt64) : Enc UInt32 :=
  if j > 0 then do
    bufPutByteRvs j.toUInt8
    bEncLenOctets (i + 1) (j >>> 8)
  else return i
termination_by j.toNat
decreasing_by
  rename_i more
  have some : 0 < j.toNat := UInt64.lt_iff_toNat_lt.mp more
  rw [UInt64.toNat_shiftRight, show (8 : UInt64).toNat % 64 = 8 from rfl,
    Nat.shiftRight_eq_div_pow]
  omega

/-- Encode a definite length, by a loop. -/
def bEncDefLen2 (len : Int64) : Enc AsnLen := do
  if len < 128 then
    bufPutByteRvs len.toUInt64.toUInt8
    return 1
  else
    let i ← bEncLenOctets 0 len.toUInt64
    bufPutByteRvs (0x80 ||| i).toUInt8
    return (i + 1).toUInt64

/-! ## Tags -/

/-- BEncTag1. -/
def bEncTag1 (cls form code : UInt32) : Enc AsnLen := do
  bufPutByteRvs (cls ||| form ||| code).toUInt8
  return 1

/-- BEncTag2. -/
def bEncTag2 (cls form code : UInt32) : Enc AsnLen := do
  bufPutByteRvs code.toUInt8
  bufPutByteRvs (cls ||| form ||| 31).toUInt8
  return 2

/-- BEncTag3. -/
def bEncTag3 (cls form code : UInt32) : Enc AsnLen := do
  bufPutByteRvs (code &&& 0x7F).toUInt8
  bufPutByteRvs ((0x80 : UInt32) ||| code >>> 7).toUInt8
  bufPutByteRvs (cls ||| form ||| 31).toUInt8
  return 3

/-- BEncTag4. -/
def bEncTag4 (cls form code : UInt32) : Enc AsnLen := do
  bufPutByteRvs (code &&& 0x7F).toUInt8
  bufPutByteRvs ((0x80 : UInt32) ||| code >>> 7).toUInt8
  bufPutByteRvs ((0x80 : UInt32) ||| code >>> 14).toUInt8
  bufPutByteRvs (cls ||| form ||| 31).toUInt8
  return 4

/-- The macro that the compiler prints for a code below 2^21. -/
def bEncTag (cls form code : UInt32) : Enc AsnLen :=
  if code < 31 then bEncTag1 cls form code
  else if code < 128 then bEncTag2 cls form code
  else if code < 16384 then bEncTag3 cls form code
  else bEncTag4 cls form code

end Esnacc
