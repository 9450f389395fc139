import Esnacc.Cxx.PerUnits
import Esnacc.Cxx.SizeFields

/-! PER of the C++ lists, whose number of elements may be constrained. -/

namespace Esnacc.Cxx

open Lib

variable {β : Type}

/-- A constraint on the number of elements; what bounds it is told by a number. -/
structure AsnList.SizeConstraint where
  lowerBound : UInt64
  upperBound : UInt64
  /-- 0 for the lower bound as the only number, 1 for both bounds, others for no upper bound. -/
  upperBoundExists : Int32

/-- The exception of the routines that cannot encode a value. -/
def encodeError (whatStr : String) : Thrown :=
  .snaccException whatStr 6012

/-! ## Elements -/

/-- Put each of some elements; the number of bits is returned. -/
def encodeElements (pEnc : β → BitsM UInt64) : List β → BitsM UInt64
  | [] => return 0
  | x :: rest => do
    let sum ← pEnc x
    return sum + (← encodeElements pEnc rest)

/-- Get a number of elements. -/
def decodeElements (pDec : AsnLen → BitsM (β × AsnLen)) : Nat → AsnLen → BitsM (List β × AsnLen)
  | 0, bitsDecoded => return ([], bitsDecoded)
  | count + 1, bitsDecoded => do
    let (x, bitsDecoded) ← pDec bitsDecoded
    let (rest, bitsDecoded) ← decodeElements pDec count bitsDecoded
    return (x :: rest, bitsDecoded)

/-- Get as many elements as an `int` counts below a number. -/
def decodeBelow (pDec : AsnLen → BitsM (β × AsnLen)) (decodeSize : Int) (bitsDecoded : AsnLen) :
    BitsM (List β × AsnLen) := do
  let elements ← decodeElements pDec (min decodeSize.toNat (2 ^ 31)) bitsDecoded
  -- The counter overflows behind the last number that it can be.
  if 2 ^ 31 ≤ decodeSize then throw .fault
  return elements

/-- Get as many elements as an `unsigned int` counts below a number. -/
def decodeBelowUnsigned (pDec : AsnLen → BitsM (β × AsnLen)) (lowerBound : UInt64)
    (bitsDecoded : AsnLen) : BitsM (List β × AsnLen) := do
  let elements ← decodeElements pDec (min lowerBound.toNat (2 ^ 32)) bitsDecoded
  -- The counter starts again from zero, so that the loop does not end.
  if 2 ^ 32 ≤ lowerBound.toNat then throw .outOfTurns
  return elements

/-! ## Lists -/

/-- Put the element at an offset. -/
def AsnList.interpret (pEnc : β → BitsM UInt64) (xs : List β) (offset : Nat) : BitsM UInt64 := do
  match xs[offset]? with
  | some x => pEnc x
  | none => throw (.snaccException "Null element found in List" (-256))

/-- Get an element behind those that are there. -/
def AsnList.deterpret (pDec : AsnLen → BitsM (β × AsnLen)) (xs : List β) (bitsDecoded : AsnLen) :
    BitsM (List β × AsnLen) := do
  let (x, bitsDecoded) ← pDec bitsDecoded
  return (xs ++ [x], bitsDecoded)

/-- Put what a constraint asks for in front of the elements: at times the elements themselves. -/
def AsnList.pEncSize (pEnc : β → BitsM UInt64) (constraint : SizeConstraint) (xs : List β) :
    BitsM UInt64 := do
  let size := UInt64.ofNat xs.length
  if constraint.upperBoundExists = 0 then
    if size ≠ constraint.lowerBound.toUInt32.toUInt64 then
      throw (encodeError "Number of elements in AsnList does not match singlevalue constraint")
    encodeElements pEnc xs
  else if constraint.upperBoundExists = 1 then
    if size < constraint.lowerBound ∨ constraint.upperBound < size then
      throw (encodeError "Number of elements in AsnList is not within the size constraint")
    let tempRange := (constraint.upperBound - constraint.lowerBound).toInt64.toInt
    let minBitsNeeded ← ofExcept (minBits tempRange 0)
    let sum ← putAlignment
    let numExtra := (size - constraint.lowerBound).toInt64.toInt
    let sum := sum + (← putSizeOver minBitsNeeded numExtra)
    return sum + (← putAlignment)
  else
    if size < constraint.lowerBound then
      throw (encodeError "Number of elements in AsnList is below the minimum size constraint")
    let listLen ← ofExcept (AsnInt.set (intOf (size - constraint.lowerBound)))
    let sum ← putAlignment
    -- The bits of the number are not added.
    let _ ← listLen.pEnc []
    return sum + (← putAlignment)

/-- Put a list. -/
def AsnList.pEnc (pEnc : β → BitsM UInt64) (sizeConstraints : Option SizeConstraint)
    (xs : List β) : BitsM UInt64 := do
  match sizeConstraints with
  -- A list does not say how many units it has, so that it is taken to have none.
  | none => PERGeneral.encodeGeneral (AsnList.interpret pEnc xs) 0
  | some constraint =>
    let sum ← AsnList.pEncSize pEnc constraint xs
    return sum + (← encodeElements pEnc xs)

/-- Get the number of elements of a list with both bounds. -/
def AsnList.getRangeSize (constraint : SizeConstraint) (bitsDecoded : AsnLen) :
    BitsM (Int × AsnLen) := do
  let tempRange := (constraint.upperBound - constraint.lowerBound).toInt64.toInt
  let minBitsNeeded ← ofExcept (minBits tempRange 0)
  let skipped ← octetAlignRead
  let (decodeSize, bitsDecoded) ← getSizeOver minBitsNeeded (bitsDecoded + .ofNat skipped)
  let decodeSize := (UInt64.ofNat decodeSize + constraint.lowerBound).toInt64.toInt
  let skipped ← octetAlignRead
  return (decodeSize, bitsDecoded + .ofNat skipped)

/-- Get the number of elements of a list with a lower bound only. -/
def AsnList.getLeastSize (turns : Nat) (constraint : SizeConstraint) (bitsDecoded : AsnLen) :
    BitsM (Nat × AsnLen) := do
  let skipped ← octetAlignRead
  let (listLen, bitsDecoded) ← AsnInt.pDec turns [] (bitsDecoded + .ofNat skipped)
  let skipped ← octetAlignRead
  let listLen ← ofExcept listLen.toInteger
  let tempLen := intOf (listLen.toInt64.toUInt64 + constraint.lowerBound)
  return (tempLen.toInt.toNat, bitsDecoded + .ofNat skipped)

/-- Get a list; the elements that the object had are removed. -/
def AsnList.pDec (pDec : AsnLen → BitsM (β × AsnLen)) (turns : Nat)
    (sizeConstraints : Option SizeConstraint) (bitsDecoded : AsnLen) :
    BitsM (List β × AsnLen) := do
  match sizeConstraints with
  | none => PERGeneral.decodeGeneral (AsnList.deterpret pDec) turns [] bitsDecoded
  | some constraint =>
    if constraint.upperBoundExists = 0 then
      decodeBelowUnsigned pDec constraint.lowerBound bitsDecoded
    else if constraint.upperBoundExists = 1 then
      let (decodeSize, bitsDecoded) ← getRangeSize constraint bitsDecoded
      decodeBelow pDec decodeSize bitsDecoded
    else
      let (tempLen, bitsDecoded) ← getLeastSize turns constraint bitsDecoded
      decodeElements pDec tempLen bitsDecoded

/-! ## What is got back -/

/-! ## Elements -/

/-- A type of elements, each of which is got back from the bits it is put as at its position. -/
structure PerElement (β : Type) where
  pEnc : β → BitsM UInt64
  pDec : AsnLen → BitsM (β × AsnLen)
  /-- The bits of an element at a position of an octet, in an aligned buffer or another one. -/
  bits : β → Bool → Nat → List Bool
  puts : ∀ x (b : AsnBufBits), b.WellFormed →
    Puts (pEnc x) b (bits x b.bAlign ((8 - b.writeBitPos) % 8))
  gets : ∀ x bAlign pos, Gets bAlign pos (bits x bAlign (pos % 8)) pDec (· = x)

/-- The bits of some elements, one behind the other. -/
def PerElement.all (element : PerElement β) (bAlign : Bool) : Nat → List β → List Bool
  | _, [] => []
  | pos, x :: rest =>
    let bits := element.bits x bAlign (pos % 8)
    bits ++ element.all bAlign (pos + bits.length) rest

/-- Elements are put one behind the other. -/
theorem PerElement.encodeElements_puts (element : PerElement β) {b : AsnBufBits}
    (wellFormed : b.WellFormed) {pos : Nat} (position : (8 - b.writeBitPos) % 8 = pos % 8)
    (xs : List β) :
    Puts (encodeElements element.pEnc xs) b (element.all b.bAlign pos xs) := by
  induction xs generalizing b pos with
  | nil => exact ⟨b, rfl, .refl wellFormed⟩
  | cons x rest ih =>
    have first := element.puts x b wellFormed
    rw [position] at first
    apply first.add
    intro b' wrote
    -- The others start where the first one ends.
    have place := wrote.position
    have next : (8 - b'.writeBitPos) % 8 =
        (pos + (element.bits x b.bAlign (pos % 8)).length) % 8 := by omega
    have others := ih wrote.wellFormed next
    rwa [wrote.bAlign] at others

/-- Elements are got one behind the other. -/
theorem PerElement.decodeElements_gets (element : PerElement β) (bAlign : Bool) (pos : Nat)
    (xs : List β) :
    Gets bAlign pos (element.all bAlign pos xs) (decodeElements element.pDec xs.length) (· = xs) := by
  induction xs generalizing pos with
  | nil => exact gets_pure bAlign pos []
  | cons x rest ih =>
    apply (element.gets x bAlign pos).bind fun y bitsDecoded => do
      let (ys, bitsDecoded) ← decodeElements element.pDec rest.length bitsDecoded
      return (y :: ys, bitsDecoded)
    intro y same
    -- The others follow, and nothing behind them.
    rw [← List.append_nil (element.all bAlign _ rest), same]
    apply (ih _).bind fun ys bitsDecoded => pure (x :: ys, bitsDecoded)
    intro ys sameRest
    rw [sameRest]
    exact gets_pure bAlign _ (x :: rest)

/-- As many elements are got as are asked for. -/
theorem length_of_decodeElements {pDec : AsnLen → BitsM (β × AsnLen)} {count : Nat}
    {bitsDecoded len : AsnLen} {ys : List β} {r r' : AsnBufBits}
    (ran : (decodeElements pDec count bitsDecoded).run r = .ok (ys, len) r') :
    ys.length = count := by
  induction count generalizing ys bitsDecoded len r with
  | zero =>
    cases ran
    rfl
  | succ count ih =>
    rw [decodeElements] at ran
    obtain ⟨⟨y, bits⟩, r₁, first, later⟩ := run_bind_eq_ok.mp ran
    obtain ⟨⟨rest, bits'⟩, r₂, others, last⟩ := run_bind_eq_ok.mp later
    cases last
    rw [List.length_cons, ih others]

/-- A loop that an `int` counts ends behind fewer than 2³¹ elements. -/
theorem length_of_decodeBelow {pDec : AsnLen → BitsM (β × AsnLen)} {decodeSize : Int}
    {bitsDecoded len : AsnLen} {ys : List β} {r r' : AsnBufBits}
    (ran : (decodeBelow pDec decodeSize bitsDecoded).run r = .ok (ys, len) r') :
    decodeSize < 2 ^ 31 ∧ ys.length = decodeSize.toNat := by
  rw [decodeBelow] at ran
  obtain ⟨⟨elements, bits⟩, r₁, decoded, rest⟩ := run_bind_eq_ok.mp ran
  by_cases many : 2 ^ 31 ≤ decodeSize
  · rw [if_pos many] at rest
    cases rest
  · rw [if_neg many] at rest
    cases rest
    have count := length_of_decodeElements decoded
    exact ⟨by omega, by omega⟩

theorem decodeBelow_of_lt {pDec : AsnLen → BitsM (β × AsnLen)} {count : Nat}
    (few : count < 2 ^ 31) : decodeBelow pDec count = decodeElements pDec count := by
  have many : ¬(2 ^ 31 : Int) ≤ count := by omega
  have all : min (count : Int).toNat (2 ^ 31) = count := by omega
  funext bitsDecoded
  unfold decodeBelow
  simp only [all, if_neg many]
  exact bind_pure _

theorem decodeBelowUnsigned_of_lt {pDec : AsnLen → BitsM (β × AsnLen)} {lowerBound : UInt64}
    (few : lowerBound.toNat < 2 ^ 32) :
    decodeBelowUnsigned pDec lowerBound = decodeElements pDec lowerBound.toNat := by
  funext bitsDecoded
  unfold decodeBelowUnsigned
  simp only [if_neg (Nat.not_le.mpr few), Nat.min_eq_left (Nat.le_of_lt few)]
  exact bind_pure _

end Esnacc.Cxx
