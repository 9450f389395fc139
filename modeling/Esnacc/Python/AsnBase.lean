import Esnacc.Lib.BigEndian
import Esnacc.Lib.StateExcept

/-! Buffers, tags, lengths and values of the Python library. -/

namespace Esnacc.Python

open Lib

/-! ## Buffers -/

/-- An object in the list of a buffer: a string of one octet, or a number. -/
inductive PyObj where
  | chr (octet : UInt8)
  | int (n : Nat)
  deriving DecidableEq

/-- The exceptions that are raised. -/
inductive PyError where
  | typeError
  | indexError
  | valueError (text : String)
  | ioError (text : String)
  deriving DecidableEq

/-- Routines on the list of a buffer, which may raise exceptions. -/
abbrev BufM := EStateM PyError (List PyObj)

/-- The number of a string of one octet; a number is not one. -/
def ord : PyObj → BufM Nat
  | .chr octet => return octet.toNat
  | .int _ => throw .typeError

/-- The object at a place of the buffer. -/
def bufferAt (place : Nat) : BufM PyObj := do
  match (← get)[place]? with
  | none => throw .indexError
  | some x => return x

/-- Put an object in front of the buffer. -/
def putBufReverse (x : PyObj) : BufM Nat := do
  modify (x :: ·)
  return 1

/-- Put objects in front of the buffer, the last one first. -/
def putBufReverseList (listOf : List PyObj) : BufM Nat := do
  modify (listOf ++ ·)
  return listOf.length

/-- Put objects behind the buffer. -/
def putBuf (listOf : List PyObj) : BufM Nat := do
  modify (· ++ listOf)
  return listOf.length

/-- Take octets away from the front of the buffer. -/
def swallow (num : Nat) : BufM Unit := do
  if (← get).length < num then throw (.valueError "Too many bytes to swallow")
  modify (·.drop num)

/-- Take the first object away from the buffer. -/
def getByte : BufM PyObj := do
  let ret ← bufferAt 0
  swallow 1
  return ret

/-- Take objects away from the front of the buffer. -/
def getSeg (length : Nat) : BufM (List PyObj) := do
  let buf ← get
  if buf.length < length then throw (.valueError "Too many bytes specified")
  set (buf.drop length)
  return buf.take length

/-! ## Lengths -/

/-- Strings of the low octets of numbers. -/
def ints2octs (listOfInts : List Nat) : List PyObj :=
  listOfInts.map fun x => .chr (.ofNat x)

/-- Put a definite length in front of the buffer. -/
def bEncDefLen (length : Nat) : BufM Nat :=
  if length < 128 then putBufReverseList (ints2octs [length])
  else if length < 256 then putBufReverseList (ints2octs [0x81, length])
  else if length < 65536 then putBufReverseList (ints2octs [0x82, length >>> 8, length])
  else if length < 16777126 then
    putBufReverseList (ints2octs [0x83, length >>> 16, length >>> 8, length])
  else putBufReverseList (ints2octs [0x84, length >>> 24, length >>> 16, length >>> 8, length])

/-- Take the octets of a long length away from the buffer. -/
def bDecLongLen : Nat → Nat → BufM Nat
  | 0, lenByte => return lenByte
  | turns + 1, lenByte => do
    let c ← ord (← getByte)
    bDecLongLen turns (lenByte <<< 8 + c)

/-- Take a definite length away from the buffer: its number of octets, and the length. -/
def bDecDefLen : BufM (Nat × Nat) := do
  let lenByte ← ord (← getByte)
  if lenByte < 128 then return (1, lenByte)
  if lenByte = 0x80 then throw (.ioError "INDEFINITE length not supported")
  let bytesTotal := lenByte &&& 0x7f
  return (bytesTotal, ← bDecLongLen bytesTotal 0)

/-! ## Tags -/

/-- The classes of tags. -/
inductive BerClass where
  | univ
  | appl
  | cntx
  | priv

/-- The forms of tags. -/
inductive BerForm where
  | prim
  | cons

/-- The number of a class in the first octet of a tag. -/
def BerClass.value : BerClass → Nat
  | .univ => 0
  | .appl => 1 <<< 6
  | .cntx => 2 <<< 6
  | .priv => 3 <<< 6

/-- The number of a form in the first octet of a tag. -/
def BerForm.value : BerForm → Nat
  | .prim => 0
  | .cons => 1 <<< 5

/-- The octets of a long tag, in front of those that it has already. -/
def tagOctets (tag : Nat) (tg : List UInt8) : List UInt8 :=
  if tag = 0 then tg else tagOctets (tag >>> 7) (.ofNat (0x80 ||| (tag &&& 0x7f)) :: tg)
termination_by tag
decreasing_by
  rw [Nat.shiftRight_eq_div_pow]
  omega

/-- The string that a tag is made of. -/
def makeTagString (cls : BerClass) (frm : BerForm) (tag : Nat) : List UInt8 :=
  let fnl := (cls.value &&& 0xff) ||| (frm.value &&& 0xff)
  if tag < 31 then [.ofNat (fnl ||| (tag &&& 0xff))]
  else .ofNat (fnl ||| 0x1f) :: tagOctets (tag >>> 7) [.ofNat (tag &&& 0x7f)]

/-- The tag as a number: the hexadecimal digits of its string, read as one. -/
def makeTag (cls : BerClass) (frm : BerForm) (tag : Nat) : Nat :=
  ofOctets (makeTagString cls frm tag)

/-- The octets of a long tag from a place on, behind those read. -/
def bDecTagLoop : List PyObj → Nat → Nat → Nat → BufM (Nat × Nat)
  | rest, bufTag, al, lastTag =>
    if lastTag &&& 0x80 = 0 then return (bufTag, al)
    else
      match rest with
      | [] => throw .indexError
      | x :: rest => do
        let lastTag ← ord x
        bDecTagLoop rest (bufTag <<< 8 ||| lastTag) (al + 1) lastTag

/-- Read the tag in front of the buffer, which stays there: the tag and its number of octets. -/
def bDecTag : BufM (Nat × Nat) := do
  let bufTag ← ord (← bufferAt 0)
  if bufTag &&& 0x1f ≠ 0x1f then return (bufTag, 1)
  let lastTag ← ord (← bufferAt 1)
  -- The loop starts with the octet that was read here.
  bDecTagLoop ((← get).drop 1) bufTag 1 lastTag

/-! ## Values -/

/-- A class of values: its tag, and how the contents of a value are written and read. -/
structure AsnBase (α : Type) where
  berClass : BerClass
  berForm : BerForm
  berTag : Nat
  passesAllConstraints : α → Bool := fun _ => true
  bEncContent : α → BufM Nat
  bDecContent : Nat → BufM α

variable {α : Type}

/-- Put a value behind the buffer. -/
def AsnBase.bEnc (t : AsnBase α) (x : α) : BufM Nat := do
  if t.passesAllConstraints x = false then throw (.valueError "Not all constraints passed")
  let buf ← get
  -- A buffer of its own.
  set ([] : List PyObj)
  let asnlen ← t.bEncContent x
  let asnlen := asnlen + (← bEncDefLen asnlen)
  -- The tag is put as one number.
  let asnlen := asnlen + (← putBufReverse (.int (makeTag t.berClass t.berForm (t.berTag &&& 0xff))))
  let newbuf ← get
  set buf
  let _ ← putBuf newbuf
  return asnlen

/-- Take a value away from the front of the buffer; its length is added to a number. -/
def AsnBase.bDec (t : AsnBase α) (asnlen : Int) : BufM (α × Int) := do
  let (bufTag, al) ← bDecTag
  let primTag := makeTag t.berClass .prim (t.berTag &&& 0xff)
  let consTag := makeTag t.berClass .cons (t.berTag &&& 0xff)
  if bufTag ≠ primTag ∧ bufTag ≠ consTag then
    throw (.ioError ("Invalid bytes " ++ toString bufTag ++ " expected " ++ toString primTag ++
      " or " ++ toString consTag))
  swallow al
  let (tagTotalLen, totalBytesLength) ← bDecDefLen
  let x ← t.bDecContent totalBytesLength
  return (x, asnlen + al + tagTotalLen + totalBytesLength)

/-! ## Integers and octet strings -/

/-- The octets of a number from its lowest ones on, in front of those it has already, and what the
number was shifted to at last. -/
def intOctets (value : Int) (octets : List Nat) : Int × List Nat :=
  let octets := (value % 256).toNat :: octets
  if value = 0 ∨ value = -1 then (value, octets) else intOctets (value / 256) octets
termination_by value.natAbs
decreasing_by omega

/-- Leave out leading octets that only repeat the sign. -/
def trimOctets : List Nat → List Nat
  | first :: second :: rest =>
    if first = 0 ∧ second &&& 0x80 = 0 ∨ first = 0xff ∧ second &&& 0x80 ≠ 0 then
      trimOctets (second :: rest)
    else first :: second :: rest
  | octets => octets

/-- Put the contents of an integer in front of the buffer. -/
def intBEncContent (value : Int) : BufM Nat := do
  let (value, octets) := intOctets value []
  let octets := if value = 0 ∧ octets.headD 0 &&& 0x80 ≠ 0 then 0 :: octets else octets
  let octets := trimOctets octets
  let _ ← putBufReverseList (ints2octs octets)
  return octets.length

/-- Take octets of an integer away from the buffer, behind those taken already. -/
def intBDecLoop : Nat → Int → BufM Int
  | 0, result => return result
  | turns + 1, result => do
    let c ← ord (← getByte)
    -- The low octet of the result is zero when the next one is joined to it.
    intBDecLoop turns (result * 256 + c)

/-- Take the contents of an integer away from the buffer. -/
def intBDecContent (intlen : Nat) : BufM Int := do
  let buf ← ord (← bufferAt 0)
  intBDecLoop intlen (if buf &&& 0x80 ≠ 0 then -1 else 0)

/-- Constraints on a number. -/
inductive IntConstraint where
  | integer (lower upper : Option Int)
  | enumerated (enums : List Int)

/-- Whether a number satisfies a constraint. -/
def IntConstraint.withinConstraint : IntConstraint → Int → Bool
  | .integer lower upper, value => lower.all (· ≤ value) && upper.all (value ≤ ·)
  | .enumerated enums, value => enums.contains value

/-- Integers, under any tag; constraints that list numbers are passed over. -/
def asnInt (berClass : BerClass) (berForm : BerForm) (berTag : Nat)
    (constraints : List IntConstraint) : AsnBase Int where
  berClass
  berForm
  berTag
  passesAllConstraints intVal := constraints.all fun
    | .integer lower upper => (IntConstraint.integer lower upper).withinConstraint intVal
    | .enumerated _ => true
  bEncContent := intBEncContent
  bDecContent := intBDecContent

/-- Enumerated values, under any tag. -/
def asnEnum (berClass : BerClass) (berForm : BerForm) (berTag : Nat)
    (constraints : List IntConstraint) : AsnBase Int where
  berClass
  berForm
  berTag
  passesAllConstraints intVal := constraints.all (·.withinConstraint intVal)
  bEncContent := intBEncContent
  bDecContent := intBDecContent

/-- Octet strings, under any tag; their constraints are not looked at. -/
def asnOcts (berClass : BerClass) (berForm : BerForm) (berTag : Nat) : AsnBase (List PyObj) where
  berClass
  berForm
  berTag
  bEncContent octs := putBufReverseList octs
  bDecContent contentlen := getSeg contentlen

end Esnacc.Python
