import Esnacc.Cxx.BitBuf
import Esnacc.Lib.BigEndian

/-! The C++ INTEGER: the octets it keeps, the number they stand for, and its fully constrained PER. -/

namespace Esnacc.Cxx

open Lib

/-- An INTEGER, kept as octets in two's complement. -/
structure AsnInt where
  mBytes : List UInt8
  deriving DecidableEq

/-! ## Octets and numbers -/

/-- Drop octets in front while the first nine bits are zeros. -/
@[grind =] def dropZeros : List UInt8 → List UInt8
  | a :: b :: rest => if a = 0 ∧ b < 0x80 then dropZeros (b :: rest) else a :: b :: rest
  | data => data

/-- Drop octets in front while the first nine bits are ones. -/
def dropOnes : List UInt8 → List UInt8
  | a :: b :: rest => if a = 0xFF ∧ 0x80 ≤ b then dropOnes (b :: rest) else a :: b :: rest
  | data => data

/-- Keep the least octets that stand for the same number. -/
def storeDERInteger (pData : List UInt8) (unsignedFlag : Bool) : Except Thrown AsnInt :=
  match pData with
  -- Without data, the octet behind them is looked at.
  | [] => throw .fault
  | first :: _ =>
    if unsignedFlag then
      let kept := dropZeros pData
      -- A number that would read as negative gets a zero octet in front.
      return ⟨if 0x80 ≤ kept.headD 0 then 0 :: kept else kept⟩
    else if 1 < pData.length then return ⟨dropZeros (dropOnes pData)⟩
    else return ⟨[first]⟩

/-- The octets of a number. -/
def octetsOf (iIn : Int32) : List UInt8 :=
  let word := iIn.toUInt32
  [(word >>> 24).toUInt8, (word >>> 16).toUInt8, (word >>> 8).toUInt8, word.toUInt8]

/-- Keep a number. -/
def AsnInt.set (iIn : Int32) : Except Thrown AsnInt :=
  storeDERInteger (octetsOf iIn) (decide (0 ≤ iIn))

/-- The number kept. -/
def AsnInt.toInteger (x : AsnInt) : Except Thrown Int32 :=
  match x.mBytes with
  | [] => return 0
  | first :: _ =>
    if 4 < x.mBytes.length then
      throw (.snaccException "integer is too big for conversion to type" 6005)
    else
      let start : UInt32 := if 0x80 ≤ first then 0xFFFFFFFF else 0
      let iResult := x.mBytes.foldl (fun (n : UInt32) c => n <<< 8 ||| c.toUInt32) start
      return iResult.toInt32

/-! ## PER -/

/-- The exception of the routines that meet a number out of place. -/
def integerError (whatStr : String) : Thrown :=
  .snaccException whatStr 6007

/-- The number of the values between two bounds. -/
def rangeOf (lowerBound upperBound : Int32) : UInt64 :=
  UInt64.ofInt (upperBound.toInt - lowerBound.toInt + 1)

/-- Count the bits that offsets up to a number need, by taking away the powers of 2. -/
def minBits (tempRange : Int) (minBitsNeeded : Nat) : Except Thrown Nat :=
  if tempRange ≤ 0 then return minBitsNeeded
  -- The power of 2 is an `int`.
  else if 31 ≤ minBitsNeeded then throw .fault
  else minBits (tempRange - 2 ^ minBitsNeeded) (minBitsNeeded + 1)
termination_by 31 - minBitsNeeded

/-- Put the first bits of some octets; their number is returned. -/
def putSeg (seg : List UInt8) (numBits : Nat) : BitsM UInt64 := do
  let b ← get
  if holds : (UInt64.ofNat numBits).toNat ≤ 8 * seg.length then
    let (b, count) := putBits b ⟨seg, UInt64.ofNat numBits, holds⟩
    set b
    return count
  else throw .fault

/-- Fill the partial octet with zeros; their number is returned. -/
def putAlignment : BitsM UInt64 := do
  let (b, count) := octetAlignWrite (← get)
  set b
  return UInt64.ofNat count

/-- Put a number of some octets in a field of bits. -/
def putField (mBytes : List UInt8) (minBitsNeeded : Nat) : BitsM UInt64 := do
  let pChar : List UInt8 := [0, 0, 0, 0]
  let octetBits := mBytes.length * 8
  let len ← (if octetBits < minBitsNeeded then putSeg pChar (minBitsNeeded - octetBits)
    else return 0)
  let minBitsNeeded := min minBitsNeeded octetBits
  let oddBits := minBitsNeeded % 8
  if oddBits = 0 then return len + (← putSeg mBytes octetBits)
  else
    -- The first octet has fewer bits than the others.
    let len := len + (← putSeg (shl (mBytes.headD 0) (8 - oddBits) :: pChar.tail) oddBits)
    if 1 < mBytes.length then return len + (← putSeg mBytes.tail ((mBytes.length - 1) * 8))
    else return len

/-- A zero octet in front of others is dropped. -/
def AsnInt.dropZero (x : AsnInt) : AsnInt :=
  match x.mBytes with
  | a :: b :: rest => if a = 0 then ⟨b :: rest⟩ else x
  | _ => x

/-- The bits of the field for the number of octets, from the bits that the offsets need. -/
def lengthBits (minBitsNeeded : Nat) : Int :=
  let eighth := minBitsNeeded / 8
  if eighth % 8 ≠ 0 then eighth + 1 - 1 else eighth - 1

/-- Put the octets of an offset from a lower bound. -/
def pEncOffset (range : UInt64) (minBitsNeeded : Nat) (mBytes : List UInt8) : BitsM UInt64 := do
  if (← get).bAlign then
    if range ≤ 255 then
      putSeg [shl (mBytes.headD 0) (8 - minBitsNeeded), 0, 0, 0] minBitsNeeded
    else if range = 256 then
      let len ← putAlignment
      return len + (← putSeg [mBytes.headD 0, 0, 0, 0] 8)
    else if range < 65536 then
      let len ← putAlignment
      if mBytes.length < 2 then
        let len := len + (← putSeg [0, 0, 0, 0] 8)
        return len + (← putSeg mBytes (mBytes.length * 8))
      else return len + (← putSeg mBytes (mBytes.length * 8))
    else
      -- The octets follow the number of them, and are not aligned.
      let tempInt2 ← ofExcept (AsnInt.set (.ofInt (mBytes.length - 1)))
      let len ← putField tempInt2.dropZero.mBytes (lengthBits minBitsNeeded).toNat
      return len + (← putSeg mBytes (mBytes.length * 8))
  else putField mBytes minBitsNeeded

/-- Put a number as its offset from a lower bound. -/
def pEncFullyConstrained (x : AsnInt) (lowerBound upperBound : Int32) : BitsM UInt64 := do
  let range := rangeOf lowerBound upperBound
  if 4 < x.mBytes.length then
    throw (integerError "decimal string is too big to convert to an integer")
  let tempval := (← ofExcept x.toInteger).toInt
  if tempval < lowerBound.toInt ∨ upperBound.toInt < tempval then
    throw (integerError "Integer is out of range")
  let tempInt ← ofExcept (AsnInt.set (.ofInt (tempval - lowerBound.toInt)))
  let mBytes := tempInt.dropZero.mBytes
  if range = 0 then throw (integerError "upperBound cannot be smaller than lowerBound")
  if 4 < mBytes.length then
    throw (integerError "offset from lower bound too large to be encoded")
  if range = 1 then return 0
  let minBitsNeeded ← ofExcept (minBits (range.toInt64.toInt - 1) 0)
  pEncOffset range minBitsNeeded mBytes

/-- Join octets into a number, the first one always. -/
def joinOctets (seg : List UInt8) (numBytes : Nat) : Nat :=
  (seg.tail.take (numBytes - 1)).foldl (fun intval c => intval <<< 8 ||| c.toNat)
    (seg.headD 0).toNat

/-- Move octets to the right, each taking in the bits that the one before it moves out. -/
def shiftOctets (oddBits : Nat) : UInt8 → List UInt8 → List UInt8
  | _, [] => []
  | before, c :: rest => (shr c (8 - oddBits) ||| shl before oddBits) :: shiftOctets oddBits c rest

/-- Get the offset of a number from its lower bound, with the number of bits read. -/
def pDecOffset (range : UInt64) (minBitsNeeded : Nat) : BitsM (Nat × UInt64) := do
  if (← get).bAlign then
    if range ≤ 255 then
      let seg ← getBits (.ofNat minBitsNeeded)
      return ((shr (seg.headD 0) (8 - minBitsNeeded)).toNat, .ofNat minBitsNeeded)
    else if range = 256 then
      let skipped ← octetAlignRead
      let seg ← getBits 8
      return ((seg.headD 0).toNat, .ofNat skipped + 8)
    else if range < 65536 then
      let skipped ← octetAlignRead
      let seg ← getBits 16
      return (joinOctets seg 2, .ofNat skipped + 16)
    else
      let lengthBits := lengthBits minBitsNeeded
      let seg ← getBits (.ofInt lengthBits)
      let numBytes := (shr (seg.headD 0) (8 - (lengthBits.tmod 8).toNat)).toNat + 1
      if 4 < numBytes then throw (integerError "integer is too big for decoded")
      let seg ← getBits (.ofNat (numBytes * 8))
      return (joinOctets seg numBytes, .ofInt lengthBits + .ofNat (numBytes * 8))
  else
    let seg ← getBits (.ofNat minBitsNeeded)
    let numBytes := minBitsNeeded / 8
    let oddBits := minBitsNeeded % 8
    if oddBits = 0 then return (joinOctets seg numBytes, .ofNat minBitsNeeded)
    else
      let seg := shiftOctets oddBits 0 (seg.take (numBytes + 1))
      return (joinOctets seg (numBytes + 1), .ofNat minBitsNeeded)

/-- Get a number that was put as its offset from a lower bound, with the bits decoded so far. -/
def pDecFullyConstrained (lowerBound upperBound : Int32) (bitsDecoded : UInt64) :
    BitsM (AsnInt × UInt64) := do
  let range := rangeOf lowerBound upperBound
  let (intval, count) ← (if range = 1 then return (0, 0)
    else do
      let minBitsNeeded ← ofExcept (minBits (range.toInt64.toInt - 1) 0)
      pDecOffset range minBitsNeeded)
  let x ← ofExcept (AsnInt.set (.ofInt (intval + lowerBound.toInt)))
  return (x, bitsDecoded + count)

end Esnacc.Cxx
