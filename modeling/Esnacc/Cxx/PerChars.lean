import Esnacc.Cxx.PerRanges
import Esnacc.Cxx.PerStrings
import Esnacc.Cxx.SizeFields

/-! PER of the C++ character strings, whose types have an alphabet and constraints on the size. -/

namespace Esnacc.Cxx

open Lib

/-- What a type of strings permits; an empty list of constraints is none. -/
structure AsnStringType where
  permittedAlphabet : List UInt8
  sizeConstraints : List SizeConstraint

/-! ## Alphabets -/

/-- The octets from one to another. -/
def octetRange (first last : Nat) : List UInt8 :=
  (List.range' first (last + 1 - first)).map .ofNat

/-- The characters of a type that does not give its own. -/
def AsnString.permittedAlphabet : List UInt8 :=
  octetRange 0x00 0xFF

def NumericString.permittedAlphabet : List UInt8 :=
  0x20 :: octetRange 0x30 0x39

def PrintableString.permittedAlphabet : List UInt8 :=
  0x20 :: octetRange 0x27 0x29 ++ octetRange 0x2B 0x3A ++ [0x3D, 0x3F] ++
    octetRange 0x41 0x5A ++ octetRange 0x61 0x7A

def IA5String.permittedAlphabet : List UInt8 :=
  octetRange 0x00 0x7F

def VisibleString.permittedAlphabet : List UInt8 :=
  octetRange 0x20 0x7E

/-- The number of bits that tell the characters apart. -/
def numBits (permittedAlphabet : List UInt8) : Except Thrown Nat :=
  minBits (permittedAlphabet.length - 1) 0

/-- The first power of 2, from a given one on, that is not below a number. -/
def findB2From (B power : Nat) : Except Thrown Nat :=
  -- The power of 2 is an `int`.
  if 31 ≤ power then throw .fault
  else if B ≤ 2 ^ power then return 2 ^ power
  else findB2From B (power + 1)
termination_by 31 - power

/-- The first power of 2 that is not below a number. -/
def findB2 (B : Nat) : Except Thrown Nat :=
  findB2From B 0

/-- The number of bits a character is put in, and whether it is put as it is. -/
def charLen (permittedAlphabet : List UInt8) (isAligned : Bool) : Except Thrown (Nat × Bool) := do
  let B ← numBits permittedAlphabet
  let B2 ← findB2 B
  let len := if isAligned then B2 else B
  match permittedAlphabet.getLast? with
  | none => throw .fault
  | some last =>
    -- A `char` has a sign.
    let ub := last.toInt8.toInt
    return if ub ≤ 2 ^ len - 1 then (8, true) else (len, false)

/-- The octet whose first bits are put for a character, with their number. -/
def charSeg (permittedAlphabet : List UInt8) (isAligned : Bool) (c : UInt8) :
    Except Thrown (UInt8 × Nat) := do
  let (len, asIs) ← charLen permittedAlphabet isAligned
  if asIs then return (shl c (8 - len), len)
  else
    match permittedAlphabet.findIdx? fun a => a.toInt8.toInt = (c.toNat : Int) with
    | some count => return (shl (.ofNat count) (8 - len), len)
    -- The search goes on behind the alphabet.
    | none => throw .fault

/-! ## Characters -/

/-- Put the character at an offset. -/
def AsnString.interpret (permittedAlphabet : List UInt8) (isAligned : Bool) (x : List UInt8)
    (offset : Nat) : BitsM UInt64 := do
  match x[offset]? with
  | some c =>
    let (seg, len) ← ofExcept (charSeg permittedAlphabet isAligned c)
    let _ ← putSeg [seg] len
    return .ofNat len
  | none => throw .fault

/-- The characters of a string behind its encoding, which wrote each octet it put over its character. -/
def AsnString.written (permittedAlphabet : List UInt8) (isAligned : Bool) (x : List UInt8) :
    Except Thrown (List UInt8) :=
  x.mapM fun c => Prod.fst <$> charSeg permittedAlphabet isAligned c

/-- Get a character behind those that are there. -/
def AsnString.deterpret (permittedAlphabet : List UInt8) (isAligned : Bool) (x : List UInt8)
    (bitsDecoded : AsnLen) : BitsM (List UInt8 × AsnLen) := do
  let (len, asIs) ← ofExcept (charLen permittedAlphabet isAligned)
  let seg ← getBits (.ofNat len)
  let count := if len ≤ 7 then shr (seg.headD 0) (8 - len) else 0
  if asIs then return (x ++ [count], bitsDecoded + .ofNat len)
  else
    match permittedAlphabet[count.toNat]? with
    | some c => return (x ++ [c], bitsDecoded + .ofNat len)
    | none => throw .fault

/-! ## Constraints -/

/-- What is said of a string whose size a constraint does not allow. -/
def SizeConstraint.failure (constraint : SizeConstraint) (size : Nat) : Option String :=
  if constraint.upperBoundExists then
    if size < constraint.lowerBound.toNat ∨ constraint.upperBound.toNat < size then
      some ("STRING SIZE CONSTRAINT ERROR :: String size is not within Upper and Lower " ++
        "constrained Bounds!!\n")
    else none
  else if constraint.lowerBound.toNat ≠ size then
    some ("STRING SIZE CONSTRAINT ERROR :: String size is not equal to single value size " ++
      "constraint!!\n")
  else none

/-- What is said of a string that has other characters, as far as an `int` counts them. -/
def checkStringTypPermittedAlpha (permittedAlphabet x : List UInt8) : Option String :=
  let count := (intOf (.ofNat x.length)).toInt
  if (x.take count.toNat).all (permittedAlphabet.contains ·) then none
  else
    some ("STRING ALPHA CONSTRAINT ERROR :: String contents not within designated permitted " ++
      "alphabet!!\n")

/-- Whether a string fails the constraints of its type, and what they say of it. -/
def AsnString.checkConstraints (type : AsnStringType) (x : List UInt8) : Bool × String :=
  let failures := type.sizeConstraints.map fun constraint => constraint.failure x.length
  let sizefailed := !failures.isEmpty && failures.all Option.isSome
  let alpha := checkStringTypPermittedAlpha type.permittedAlphabet x
  let alphafailed := type.permittedAlphabet.isEmpty || alpha.isSome
  let ptr := String.join failures.reduceOption ++
    if type.permittedAlphabet.isEmpty then "" else alpha.getD ""
  (sizefailed || alphafailed, if sizefailed || alphafailed then ptr else "")

/-! ## Strings -/

/-- Put zeros up to the next octet where the bounds ask for it; their number is returned. -/
def alignWrite (asked : Bool) : BitsM UInt64 := do
  if asked ∧ (← get).bAlign then putAlignment else return 0

/-- Whether the bounds of the size ask for an alignment. -/
def AsnString.asked (permittedAlphabet : List UInt8) (bounds : Int32 × Int32) :
    Except Thrown Bool := do
  let B2 ← findB2 (← numBits permittedAlphabet)
  return 16 < bounds.2 * .ofNat B2

/-- The bounds of the size that the constraints of a type leave. -/
def sizeBounds (first : SizeConstraint) (rest : List SizeConstraint) : Int32 × Int32 :=
  findSizeConstraintBounds (first :: rest) (intOf first.lowerBound, intOf first.lowerBound)

/-- Put a string of constrained size. -/
def AsnString.encodeWithSizeConstraint (permittedAlphabet : List UInt8) (isAligned : Bool)
    (bounds : Int32 × Int32) (x : List UInt8) : BitsM UInt64 := do
  let (iSCLowerBound, iSCUpperBound) := bounds
  let asked ← ofExcept (asked permittedAlphabet bounds)
  let range := (iSCUpperBound - iSCLowerBound + 1).toInt
  let minBitsNeeded ← ofExcept (minBits (range - 1) 0)
  let size : Int := x.length
  if size < iSCLowerBound.toInt ∨ iSCUpperBound.toInt < size then
    throw (.snaccException "String size not withing restricted bounds" 6006)
  let len ← (if 1 < range then do
      let len ← alignWrite asked
      return len + (← putSizeOver minBitsNeeded (size - iSCLowerBound.toInt))
    else return 0)
  let len := len + (← alignWrite asked)
  return len + (← PERGeneral.interpretAll (interpret permittedAlphabet isAligned x) 0 x.length)

/-- Get a string of constrained size. -/
def AsnString.decodeWithSizeConstraint (permittedAlphabet : List UInt8) (isAligned : Bool)
    (bounds : Int32 × Int32) (bitsDecoded : AsnLen) : BitsM (List UInt8 × AsnLen) := do
  let asked ← ofExcept (asked permittedAlphabet bounds)
  let (decodeSize, bitsDecoded) ← decodeSize asked bounds bitsDecoded
  let bitsDecoded := bitsDecoded + (← alignRead asked)
  PERGeneral.deterpretAll (deterpret permittedAlphabet isAligned) [] decodeSize.toNat bitsDecoded

/-- Put a string that its constraints accept. -/
def AsnString.encodeAccepted (type : AsnStringType) (isAligned : Bool) (x : List UInt8) :
    BitsM UInt64 :=
  match type.sizeConstraints with
  | [] => PERGeneral.encodeGeneral (interpret type.permittedAlphabet isAligned x) x.length
  | first :: rest =>
    encodeWithSizeConstraint type.permittedAlphabet isAligned (sizeBounds first rest) x

/-- Put a string; the number of bits is returned, and the characters that the string has then. -/
def AsnString.pEnc (type : AsnStringType) (x : List UInt8) : BitsM (UInt64 × List UInt8) := do
  if (checkConstraints type x).1 then
    throw (constraintError "String not within constraints")
  -- Nothing changes whether the buffer is aligned.
  let isAligned := (← get).bAlign
  let len ← encodeAccepted type isAligned x
  -- Each character was put once, before it was written over.
  return (len, ← ofExcept (written type.permittedAlphabet isAligned x))

/-- Get a string from a buffer that is aligned or not. -/
def AsnString.decode (turns : Nat) (type : AsnStringType) (isAligned : Bool)
    (bitsDecoded : AsnLen) : BitsM (List UInt8 × AsnLen) :=
  match type.sizeConstraints with
  | [] => PERGeneral.decodeGeneral (deterpret type.permittedAlphabet isAligned) turns [] bitsDecoded
  | first :: rest =>
    decodeWithSizeConstraint type.permittedAlphabet isAligned (sizeBounds first rest) bitsDecoded

/-- Get a string. -/
def AsnString.pDec (turns : Nat) (type : AsnStringType) (bitsDecoded : AsnLen) :
    BitsM (List UInt8 × AsnLen) := do
  decode turns type (← get).bAlign bitsDecoded

end Esnacc.Cxx
