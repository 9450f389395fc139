import Esnacc.Cxx.AsnInt
import Esnacc.Cxx.Contents

/-! PER of the C++ types that keep octets. -/

namespace Esnacc.Cxx

open Lib

/-- A constraint on the size of a string. -/
structure SizeConstraint where
  lowerBound : UInt64
  upperBound : UInt64
  upperBoundExists : Bool

/-! ## Sizes -/

/-- The bounds of the size, each moved outwards by a constraint. -/
def widenBounds (bounds : Int32 × Int32) (constraint : SizeConstraint) : Int32 × Int32 :=
  let (iSCLowerBound, iSCUpperBound) := bounds
  let upper := if iSCUpperBound.toUInt32.toUInt64 < constraint.lowerBound then
    intOf constraint.lowerBound else iSCUpperBound
  let upper := if constraint.upperBoundExists ∧ upper.toUInt32.toUInt64 < constraint.upperBound then
    intOf constraint.upperBound else upper
  let lower := if constraint.lowerBound < iSCLowerBound.toUInt32.toUInt64 then
    intOf constraint.lowerBound else iSCLowerBound
  (lower, upper)

/-- The bounds of the size that some constraints leave, from those given. -/
def findSizeConstraintBounds (sizeConstraints : List SizeConstraint) (bounds : Int32 × Int32) :
    Int32 × Int32 :=
  sizeConstraints.foldl widenBounds bounds

/-- Skip to the next octet where the bounds ask for it; the number of bits skipped is returned. -/
def alignRead (asked : Bool) : BitsM UInt64 := do
  if asked ∧ (← get).bAlign then return .ofNat (← octetAlignRead) else return 0

/-- Read the size of a string, with the bits decoded so far. -/
def decodeSize (asked : Bool) (bounds : Int32 × Int32) (bitsDecoded : AsnLen) :
    BitsM (Int × AsnLen) := do
  let (iSCLowerBound, iSCUpperBound) := bounds
  let range := (iSCUpperBound - iSCLowerBound + 1).toInt
  let minBitsNeeded ← ofExcept (minBits (range - 1) 0)
  let (size, bitsDecoded) ← (if 1 < range then do
      let bitsDecoded := bitsDecoded + (← alignRead asked)
      let (size, bitsDecoded) ← (if 0 < minBitsNeeded / 8 then do
          let pStr ← getBits 8
          return ((pStr.headD 0).toNat, bitsDecoded + 8)
        else return (0, bitsDecoded))
      let oddBits := minBitsNeeded % 8
      let pStr ← getBits (.ofNat oddBits)
      let bitsDecoded := bitsDecoded + .ofNat oddBits
      if 0 < oddBits then
        return (size <<< oddBits ||| (shr (pStr.headD 0) (8 - oddBits)).toNat, bitsDecoded)
      else return (size, bitsDecoded)
    else return (0, bitsDecoded))
  let decodeSize := size + iSCLowerBound.toInt
  if iSCUpperBound.toInt < decodeSize then
    throw (.snaccException "String size not withing restricted bounds" 6006)
  else return (decodeSize, bitsDecoded)

/-! ## Strings without constraints -/

variable {α : Type}

/-- Read the fragments in front of the last part of a string, and the octet behind them. -/
def decodeFragments (unit : Nat) (append : α → Nat → List UInt8 → α) :
    Nat → α → UInt8 → AsnLen → BitsM (α × UInt8 × AsnLen)
  | 0, _, _, _ => throw .outOfTurns
  | turns + 1, x, seg, bitsDecoded => do
    if seg &&& 0xC0 = 0xC0 then
      let templen := (seg &&& 0x3F).toNat * 16384
      -- The bits skipped in front of a fragment are not counted.
      let _ ← octetAlignRead
      let pseg ← getBits (.ofNat (templen * unit))
      let skipped ← octetAlignRead
      let next ← getBits 8
      decodeFragments unit append turns (append x templen pseg) (next.headD 0)
        (bitsDecoded + .ofNat (templen * unit) + .ofNat skipped + 8)
    else return (x, seg, bitsDecoded)

/-- Read a part of a string that is aligned. -/
def decodePart (unit : Nat) (append : α → Nat → List UInt8 → α) (x : α) (templen : Nat)
    (bitsDecoded : AsnLen) : BitsM (α × AsnLen) := do
  let skipped ← octetAlignRead
  let seg ← getBits (.ofNat (templen * unit))
  return (append x templen seg, bitsDecoded + .ofNat skipped + .ofNat (templen * unit))

/-- Read a string that has no constraints, in units of a number of bits. -/
def decodeGeneral (unit : Nat) (append : α → Nat → List UInt8 → α) (turns : Nat) (x : α)
    (bitsDecoded : AsnLen) : BitsM (α × AsnLen) := do
  let skipped ← octetAlignRead
  let seg ← getBits 8
  let (x, seg, bitsDecoded) ← decodeFragments unit append turns x (seg.headD 0)
    (bitsDecoded + .ofNat skipped + 8)
  if seg &&& 0xC0 = 0x80 then
    let next ← getBits 8
    decodePart unit append x ((seg &&& 0x3F).toNat <<< 8 ||| (next.headD 0).toNat) (bitsDecoded + 8)
  else if seg &&& 0x80 = 0 then decodePart unit append x (seg &&& 0x7F).toNat bitsDecoded
  else return (x, bitsDecoded)

/-! ## OCTET STRING -/

/-- The object without octets. -/
def AsnOcts.clear (x : AsnOcts) : AsnOcts :=
  { x with mStr := [] }

/-- The object with some of the octets that were read behind its own. -/
def AsnOcts.append (x : AsnOcts) (templen : Nat) (seg : List UInt8) : AsnOcts :=
  { x with mStr := x.mStr ++ seg.take templen }

/-- Read an octet string of constrained size. -/
def AsnOcts.decodeWithSizeConstraint (x : AsnOcts) (bounds : Int32 × Int32) (bitsDecoded : AsnLen) :
    BitsM (AsnOcts × AsnLen) := do
  let x := x.clear
  let asked := decide (bounds.2 ≤ 2)
  let (decodeSize, bitsDecoded) ← decodeSize asked bounds bitsDecoded
  if 0 < bounds.2 then
    let bitsDecoded := bitsDecoded + (← alignRead asked)
    let seg ← getBits (.ofInt (decodeSize * 8))
    return (x.append decodeSize.toNat seg, bitsDecoded + .ofInt (decodeSize * 8))
  else return (x, bitsDecoded)

/-- Read an octet string from a bit buffer into an object. -/
def AsnOcts.pDec (turns : Nat) (sizeConstraints : List SizeConstraint) (x : AsnOcts)
    (bitsDecoded : AsnLen) : BitsM (AsnOcts × AsnLen) :=
  match sizeConstraints with
  | [] => decodeGeneral 8 AsnOcts.append turns x.clear bitsDecoded
  | first :: _ =>
    let bound := intOf first.lowerBound
    x.decodeWithSizeConstraint (findSizeConstraintBounds sizeConstraints (bound, bound)) bitsDecoded

/-! ## BIT STRING -/

/-- The object without bits. -/
def AsnBits.clear (x : AsnBits) : AsnBits :=
  { x with bitLen := 0, bits := [] }

/-- The object with bits that were read behind its own, which fill their octets. -/
def AsnBits.append (x : AsnBits) (templen : Nat) (seg : List UInt8) : AsnBits :=
  { x with bitLen := x.bitLen + .ofNat templen, bits := x.bits ++ seg.take ((templen + 7) / 8) }

/-- Read a bit string of constrained size. -/
def AsnBits.decodeWithSizeConstraint (x : AsnBits) (bounds : Int32 × Int32) (bitsDecoded : AsnLen) :
    BitsM (AsnBits × AsnLen) := do
  let x := x.clear
  let asked := decide (16 < bounds.2)
  let (decodeSize, bitsDecoded) ← decodeSize asked bounds bitsDecoded
  let bitsDecoded := bitsDecoded + (← alignRead asked)
  let seg ← getBits (.ofInt decodeSize)
  return ({ x with bitLen := .ofInt decodeSize, bits := seg.take ((decodeSize + 7) / 8).toNat },
    bitsDecoded + .ofInt decodeSize)

/-- Read a bit string from a bit buffer into an object. -/
def AsnBits.pDec (turns : Nat) (sizeConstraints : List SizeConstraint) (x : AsnBits)
    (bitsDecoded : AsnLen) : BitsM (AsnBits × AsnLen) :=
  match sizeConstraints with
  | [] => decodeGeneral 1 AsnBits.append turns x.clear bitsDecoded
  | first :: _ =>
    let bound := intOf first.lowerBound
    x.decodeWithSizeConstraint (findSizeConstraintBounds sizeConstraints (bound, bound)) bitsDecoded

/-! ## Object identifiers -/

/-- Read an object identifier from a bit buffer into an object. -/
def AsnRelativeOid.pDec (x : AsnRelativeOid) (bitsDecoded : AsnLen) :
    BitsM (AsnRelativeOid × AsnLen) := do
  let seg ← getBits 8
  let lseg := (seg.headD 0).toNat
  if 0 < lseg then
    let skipped ← octetAlignRead
    let seg ← getBits (.ofNat (lseg * 8))
    return ({ x with oid := seg.take lseg },
      bitsDecoded + 8 + .ofNat skipped + .ofNat (lseg * 8))
  else return (x, bitsDecoded + 8)

end Esnacc.Cxx
