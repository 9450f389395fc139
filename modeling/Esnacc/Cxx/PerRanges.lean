import Esnacc.Cxx.PerLengths

/-! PER of the C++ INTEGER: the ranges of a type, and which routine they ask for. -/

namespace Esnacc.Cxx

open Lib

/-- A range of the values of a type; how it ends is told by a number. -/
structure ValueRange where
  lowerBound : Int64
  upperBound : Int64
  /-- 0 for a lower bound only, 1 for both bounds and 2 for the lower bound as the only value. -/
  upperBoundExists : Int32
  deriving DecidableEq

/-! ## Constraints -/

/-- The exception of the routines that meet a value outside its constraints. -/
def constraintError (whatStr : String) : Thrown :=
  .snaccException whatStr 6013

/-- What is said of a value that a range does not contain. -/
def ValueRange.failure (range : ValueRange) (ltemp : Int32) : Option String :=
  let outside := "INTEGER VALUE CONSTRAINT ERROR :: Integer value is not within Upper and Lower " ++
    "constrained Bounds!!\n"
  let other := "INTEGER VALUE CONSTRAINT ERROR :: Integer value is not equal to single value " ++
    "constraint!!\n"
  if range.upperBoundExists = 1 then
    if ltemp.toInt < range.lowerBound.toInt ∨ range.upperBound.toInt < ltemp.toInt then some outside
    else none
  else if range.upperBoundExists = 2 then
    if ltemp.toInt ≠ range.lowerBound.toInt then some other else none
  else if range.upperBoundExists = 0 then
    if ltemp.toInt < range.lowerBound.toInt then some outside else none
  else none

/-- Whether all the ranges of a type fail for a number, and what they say of it. -/
@[grind =] def AsnInt.checkConstraints (valueRanges : List ValueRange) (x : AsnInt) :
    Except Thrown (Bool × String) := do
  if 4 < x.mBytes.length ∧ valueRanges ≠ [] then
    throw (constraintError "Integer is out of constraint range")
  if valueRanges = [] then return (false, "")
  else
    let ltemp ← x.toInteger
    let failures := valueRanges.map fun range => range.failure ltemp
    return (failures.all Option.isSome, String.join failures.reduceOption)

/-! ## Units -/

/-- Put an octet of the number. -/
def AsnInt.interpret (x : AsnInt) (offset : Nat) : BitsM UInt64 := do
  match x.mBytes[offset]? with
  | some c =>
    let _ ← putSeg [c] 8
    return 8
  | none => throw .fault

/-- Get an octet of the number, behind those that are there. -/
def AsnInt.deterpret (x : AsnInt) (bitsDecoded : AsnLen) : BitsM (AsnInt × AsnLen) := do
  let seg ← getBits 8
  return (⟨x.mBytes ++ [seg.headD 0]⟩, bitsDecoded + 8)

/-! ## Offsets from a lower bound alone -/

/-- Put a number as its offset from a lower bound, which is narrowed to an `int`. -/
def AsnInt.pEncSemiConstrained (x : AsnInt) (lowerBound : Int32) : BitsM UInt64 := do
  if 4 < x.mBytes.length then
    throw (integerError "integer is too big for encoding from offset")
  let tempval := (← ofExcept x.toInteger).toInt - lowerBound.toInt
  let tempInt ← ofExcept (AsnInt.set (.ofInt tempval))
  let tempInt := tempInt.dropZero
  if 4 < tempInt.mBytes.length then
    throw (integerError "offset from lower bound too large to be encoded")
  PERGeneral.encodeGeneral tempInt.interpret tempInt.mBytes.length

/-- Keep the first octets of some as a number without a sign. -/
def AsnInt.setOctets (pData : List UInt8) (len : Nat) : Except Thrown AsnInt :=
  if len = 0 then
    -- The octet behind the empty number is looked at.
    match pData with
    | [] => throw .fault
    | first :: _ => return ⟨if 0x80 ≤ first then [0] else []⟩
  else storeDERInteger (pData.take len) true

/-- Get a number that was put as its offset from a lower bound. -/
def AsnInt.pDecSemiConstrained (lowerBound : Int32) (bitsDecoded : AsnLen) :
    BitsM (AsnInt × AsnLen) := do
  let seg ← getBits 8
  let mLen := (seg.headD 0).toNat
  if 4 < mLen then
    throw (integerError "integer is too big for decoding from offset")
  let seg ← getBits (.ofNat (mLen * 8))
  let x ← ofExcept (AsnInt.setOctets seg mLen)
  let lIntval ← ofExcept x.toInteger
  let x ← ofExcept (AsnInt.set (.ofInt (lIntval.toInt + lowerBound.toInt)))
  return (x, bitsDecoded + 8 + .ofNat (mLen * 8))

/-! ## The choice of a routine -/

/-- The bounds that ranges are folded into, and how the range they make ends. -/
structure FoldedBounds where
  lowerBound : Int32
  upperBound : Int32
  upperBoundFound : Int32

/-- The bounds after one more range. -/
def FoldedBounds.add (bounds : FoldedBounds) (range : ValueRange) : FoldedBounds :=
  let lowerBound := if range.lowerBound.toInt < bounds.lowerBound.toInt then
    range.lowerBound.toInt32 else bounds.lowerBound
  let upperBound := if bounds.upperBound.toInt < range.lowerBound.toInt then
    range.lowerBound.toInt32 else bounds.upperBound
  if range.upperBoundExists = 1 then
    ⟨lowerBound, if upperBound.toInt < range.upperBound.toInt then range.upperBound.toInt32
      else upperBound, 1⟩
  else ⟨lowerBound, upperBound, bounds.upperBoundFound⟩

/-- The bounds of some ranges, in the narrower variables of the routines. -/
def foldedBounds (first : ValueRange) (rest : List ValueRange) : FoldedBounds :=
  let lowerBound := first.lowerBound.toInt32
  let bounds := (first :: rest).foldl FoldedBounds.add ⟨lowerBound, lowerBound, first.upperBoundExists⟩
  if bounds.lowerBound < bounds.upperBound then { bounds with upperBoundFound := 1 } else bounds

/-- Put a number as the ranges of its type ask for. -/
def AsnInt.pEnc (valueRanges : List ValueRange) (x : AsnInt) : BitsM UInt64 := do
  let (failed, _) ← ofExcept (x.checkConstraints valueRanges)
  if failed then throw (constraintError "Integer not within constraints")
  match valueRanges with
  | [] => PERGeneral.encodeGeneral x.interpret x.mBytes.length
  | first :: rest =>
    let bounds := foldedBounds first rest
    if bounds.upperBoundFound = 1 then
      if bounds.lowerBound ≠ bounds.upperBound then
        pEncFullyConstrained x bounds.lowerBound bounds.upperBound
      else return 0
    else if rest = [] ∧ first.upperBoundExists = 2 then
      let value ← ofExcept x.toInteger
      if value ≠ bounds.lowerBound then
        throw (integerError "integer does not match singlevalue size constraint")
      return 0
    else x.pEncSemiConstrained bounds.lowerBound

/-- Get a number as the ranges of its type ask for; what the object was plays no part. -/
def AsnInt.pDec (turns : Nat) (valueRanges : List ValueRange) (bitsDecoded : AsnLen) :
    BitsM (AsnInt × AsnLen) := do
  match valueRanges with
  | [] => PERGeneral.decodeGeneral AsnInt.deterpret turns ⟨[]⟩ bitsDecoded
  | first :: rest =>
    let bounds := foldedBounds first rest
    if bounds.upperBoundFound = 1 then
      if bounds.lowerBound ≠ bounds.upperBound then
        pDecFullyConstrained bounds.lowerBound bounds.upperBound bitsDecoded
      -- The object was cleared, and no number is stored.
      else return (⟨[]⟩, bitsDecoded)
    else if rest = [] ∧ first.upperBoundExists = 2 then
      let x ← ofExcept (AsnInt.set bounds.lowerBound)
      return (x, bitsDecoded)
    else pDecSemiConstrained bounds.lowerBound bitsDecoded

end Esnacc.Cxx
