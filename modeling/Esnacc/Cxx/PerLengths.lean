import Esnacc.Cxx.PerStrings

/-! The lengths and fragments of C++ PER values that have no constraints. -/

namespace Esnacc.Cxx

open Lib

/-! ## Lengths -/

/-- Put a length below 128; the number of bits is returned. -/
def pEncDefLenTo127 (len : Nat) : BitsM UInt64 := do
  let _ ← putSeg [.ofNat len] 8
  return 8

/-- Put the length of a fragment, in units of 16k; the number of bits is returned. -/
def pEncLen16kFragment (len : Nat) : BitsM UInt64 := do
  let _ ← putSeg [0xC0 ||| .ofNat len] 8
  return 8

/-- Put a length below 16k; the number of bits is returned. -/
def pEncLen1to16k (len : Nat) : BitsM UInt64 := do
  let _ ← putSeg [.ofNat (len >>> 8) ||| 0x80] 8
  let _ ← putSeg [.ofNat len] 8
  return 16

/-! ## Putting -/

/-- Put a fragment: its length, and that many units from an offset on. -/
def encodeFragment (put : Nat → Nat → BitsM UInt64) (offset count : Nat) : BitsM UInt64 := do
  let len ← putAlignment
  let len := len + (← pEncLen16kFragment count)
  let len := len + (← putAlignment)
  return len + (← put offset (count * 16384))

/-- Put a number of fragments of 64k units, from an offset on. -/
def encodeFragments (put : Nat → Nat → BitsM UInt64) : Nat → Nat → BitsM UInt64
  | _, 0 => return 0
  | offset, count + 1 => do
    let len ← encodeFragment put offset 4
    return len + (← encodeFragments put (offset + 65536) count)

/-- Put the last part: its length, and that many units from an offset on. -/
def encodePart (put : Nat → Nat → BitsM UInt64) (offset tempLen : Nat) : BitsM UInt64 := do
  if tempLen < 128 then
    let len ← putAlignment
    let len := len + (← pEncDefLenTo127 tempLen)
    let len := len + (← putAlignment)
    return len + (← put offset tempLen)
  else if tempLen < 16384 then
    let len ← putAlignment
    let len := len + (← pEncLen1to16k tempLen)
    let len := len + (← putAlignment)
    return len + (← put offset tempLen)
  else return 0

/-- Put what is left behind the fragments of 64k units. -/
def encodeRest (put : Nat → Nat → BitsM UInt64) (offset tempLen : Nat) : BitsM UInt64 := do
  let count := tempLen / 16384
  let len ← (if count ≠ 0 then encodeFragment put offset count else return 0)
  let tempLen := tempLen - 16384 * count
  if tempLen = 0 then
    let len := len + (← putAlignment)
    return len + (← putSeg [0] 8)
  else return len + (← encodePart put (offset + count * 16384) tempLen)

/-- Put a number of units that has no constraints; the number of bits is returned. -/
def encodeGeneral (put : Nat → Nat → BitsM UInt64) (tempLen : Nat) : BitsM UInt64 := do
  if 16384 ≤ tempLen then
    let count := tempLen / 65536
    let len ← encodeFragments put 0 count
    return len + (← encodeRest put (count * 65536) (tempLen - count * 65536))
  else encodePart put 0 tempLen

/-! ## Getting -/

variable {α : Type}

/-- Get the fragments in front of the last part of a value, and the octet behind them. -/
def fragmentsBy (take : α → Nat → AsnLen → BitsM (α × AsnLen)) :
    Nat → α → UInt8 → AsnLen → BitsM (α × UInt8 × AsnLen)
  | 0, _, _, _ => throw .outOfTurns
  | turns + 1, x, seg, bitsDecoded => do
    if seg &&& 0xC0 = 0xC0 then
      let (x, bitsDecoded) ← take x ((seg &&& 0x3F).toNat * 16384) bitsDecoded
      let skipped ← octetAlignRead
      let next ← getBits 8
      fragmentsBy take turns x (next.headD 0) (bitsDecoded + .ofNat skipped + 8)
    else return (x, seg, bitsDecoded)

/-- Get the last part of a value, whose length starts with the given octet. -/
def partBy (take : α → Nat → AsnLen → BitsM (α × AsnLen)) (x : α) (seg : UInt8)
    (bitsDecoded : AsnLen) : BitsM (α × AsnLen) := do
  if seg &&& 0xC0 = 0x80 then
    let next ← getBits 8
    take x ((seg &&& 0x3F).toNat <<< 8 ||| (next.headD 0).toNat) (bitsDecoded + 8)
  else if seg &&& 0x80 = 0 then take x (seg &&& 0x7F).toNat bitsDecoded
  else return (x, bitsDecoded)

/-- Get a value that has no constraints, by routines that take the units of its parts. -/
def generalBy (takeFragment takePart : α → Nat → AsnLen → BitsM (α × AsnLen)) (turns : Nat) (x : α)
    (bitsDecoded : AsnLen) : BitsM (α × AsnLen) := do
  let skipped ← octetAlignRead
  let seg ← getBits 8
  let (x, seg, bitsDecoded) ← fragmentsBy takeFragment turns x (seg.headD 0)
    (bitsDecoded + .ofNat skipped + 8)
  partBy takePart x seg bitsDecoded

/-! ## Values that put and get each unit on its own -/

namespace PERGeneral

/-- Put a number of units from an offset on, each on its own. -/
def interpretAll (interpret : Nat → BitsM UInt64) : Nat → Nat → BitsM UInt64
  | _, 0 => return 0
  | offset, count + 1 => do
    let len ← interpret offset
    return len + (← interpretAll interpret (offset + 1) count)

/-- Put a value that has no constraints, unit by unit. -/
def encodeGeneral (interpret : Nat → BitsM UInt64) (lEncLen : Nat) : BitsM UInt64 :=
  Cxx.encodeGeneral (interpretAll interpret) lEncLen

/-- Get a number of units, each on its own. -/
@[grind =] def deterpretAll (deterpret : α → AsnLen → BitsM (α × AsnLen)) :
    α → Nat → AsnLen → BitsM (α × AsnLen)
  | x, 0, bitsDecoded => return (x, bitsDecoded)
  | x, templen + 1, bitsDecoded => do
    let (x, bitsDecoded) ← deterpret x bitsDecoded
    deterpretAll deterpret x templen bitsDecoded

/-- Get a part of a value, which is aligned. -/
def take (deterpret : α → AsnLen → BitsM (α × AsnLen)) (x : α) (templen : Nat)
    (bitsDecoded : AsnLen) : BitsM (α × AsnLen) := do
  let skipped ← octetAlignRead
  deterpretAll deterpret x templen (bitsDecoded + .ofNat skipped)

/-- Get a value that has no constraints, unit by unit. -/
def decodeGeneral (deterpret : α → AsnLen → BitsM (α × AsnLen)) (turns : Nat) (x : α)
    (bitsDecoded : AsnLen) : BitsM (α × AsnLen) :=
  generalBy (take deterpret) (take deterpret) turns x bitsDecoded

end PERGeneral

/-! ## Values that put and get the units of a part at once -/

/-- Take a fragment at once; the bits skipped in front of it are not counted. -/
def takeFragment (unit : Nat) (append : α → Nat → List UInt8 → α) (x : α) (templen : Nat)
    (bitsDecoded : AsnLen) : BitsM (α × AsnLen) := do
  let _ ← octetAlignRead
  let pseg ← getBits (.ofNat (templen * unit))
  return (append x templen pseg, bitsDecoded + .ofNat (templen * unit))

theorem decodeFragments_eq_fragmentsBy (unit : Nat) (append : α → Nat → List UInt8 → α)
    (turns : Nat) (x : α) (seg : UInt8) (bitsDecoded : AsnLen) :
    decodeFragments unit append turns x seg bitsDecoded =
      fragmentsBy (takeFragment unit append) turns x seg bitsDecoded := by
  induction turns generalizing x seg bitsDecoded with
  | zero => rfl
  | succ turns ih =>
    simp only [decodeFragments, fragmentsBy, takeFragment, bind_assoc, pure_bind, ih]

theorem decodeGeneral_eq_generalBy (unit : Nat) (append : α → Nat → List UInt8 → α)
    (turns : Nat) (x : α) :
    decodeGeneral unit append turns x =
      generalBy (takeFragment unit append) (decodePart unit append) turns x := by
  funext bitsDecoded
  simp only [decodeGeneral, generalBy, partBy, decodeFragments_eq_fragmentsBy]

/-- Put a number of octets of a string from an offset on. -/
def AsnOcts.putOctets (x : AsnOcts) (offset count : Nat) : BitsM UInt64 :=
  putSeg (x.mStr.drop offset) (count * 8)

/-- Put an octet string that has no constraints. -/
def AsnOcts.encodeGeneral (x : AsnOcts) : BitsM UInt64 :=
  Cxx.encodeGeneral x.putOctets x.mStr.length

/-- Get an octet string that has no constraints. -/
def AsnOcts.decodeGeneral (turns : Nat) (x : AsnOcts) (bitsDecoded : AsnLen) :
    BitsM (AsnOcts × AsnLen) :=
  Cxx.decodeGeneral 8 AsnOcts.append turns x.clear bitsDecoded

/-- Put a number of bits of a bit string from an offset on. -/
def AsnBits.putBits (x : AsnBits) (offset count : Nat) : BitsM UInt64 :=
  putSeg (x.bits.drop (offset / 8)) count

/-- Put a bit string that has no constraints and is no named bit list. -/
def AsnBits.encodeGeneral (x : AsnBits) : BitsM UInt64 :=
  Cxx.encodeGeneral x.putBits x.bitLen.toNat

/-- Get a bit string that has no constraints. -/
def AsnBits.decodeGeneral (turns : Nat) (x : AsnBits) (bitsDecoded : AsnLen) :
    BitsM (AsnBits × AsnLen) :=
  Cxx.decodeGeneral 1 AsnBits.append turns x.clear bitsDecoded

end Esnacc.Cxx
