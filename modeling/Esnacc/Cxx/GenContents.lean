import Esnacc.Cxx.BerHeader
import Esnacc.Cxx.GenElmt

/-! The C++ code that is printed to decode the contents of a SEQUENCE or SET. -/

namespace Esnacc.Cxx

open Lib

variable {β : Type}

/-! ## SEQUENCE -/

/-- The fields of a decoded object that were set, and the octets of the elements that nothing in its
type stands for. -/
structure Decoded (β : Type) where
  fields : List (String × β) := []
  extList : List (List UInt8) := []

/-- A class printed for a SEQUENCE or SET, with the routine that reads an element of any type. -/
structure SnaccClass (β : Type) where
  typeName : String
  components : List (Component β)
  extAny : AsnLen → BufM (List UInt8 × AsnLen)

/-- The type has an extension marker. -/
@[grind =] def SnaccClass.extensible (cls : SnaccClass β) : Bool :=
  cls.components.any fun
    | .elmt _ => false
    | .extension => true

/-- Read the end of contents of which the first octet was read as a tag. -/
@[grind =] def tagIsEoc (elmtLen0 : AsnLen) (tag1 : AsnTag) : Bool :=
  elmtLen0 = INDEFINITE_LEN && tag1 = EOC_TAG_ID

/-- Read the tag of the next component, or find that no component is left; the last tag read stays
where an addition has to follow. -/
def nextTag (elmtLen0 : AsnLen) (rest : List (Component β)) (tag1 : AsnTag) (n : AsnLen) :
    BufM (Option AsnTag × AsnLen) := do
  match rest with
  | [] => return (some tag1, n)
  | next :: _ =>
    if !isTailOptional rest then
      if next.extensionAddition then return (some tag1, n)
      else
        let (tag1, n) ← bDecTag n
        return (some tag1, n)
    else if n = elmtLen0 then return (none, n)
    else
      match next with
      | .extension =>
        -- The octet is a `char`, and is extended by its sign.
        let tag1 := (← peekByte).toInt8.toInt32.toUInt32
        if tagIsEoc elmtLen0 tag1 then return (none, ← bDecEoc n)
        else return (some tag1, n)
      | .elmt _ =>
        let (tag1, n) ← bDecTag n
        if tagIsEoc elmtLen0 tag1 then return (none, ← bDec2ndEocOctet n)
        else return (some tag1, n)

/-- A component that had to be there is missing. -/
def missingElmt (e : Elmt β) : Thrown :=
  if e.extensionAddition then
    decodeError "SEQUENCE is missing non-optional expected extension addition elmt"
  else decodeError s!"SEQUENCE is missing non-optional root elmt ({e.fieldName})"

namespace SnaccClass

variable (cls : SnaccClass β)

/-- Read elements of any type until the end of contents. -/
def grabUntilEoc : Nat → List (List UInt8) → AsnLen → BufM (List (List UInt8) × AsnLen)
  | 0, _, _ => throw .outOfTurns
  | turns + 1, extList, n => do
    if (← peekByte) = 0 then return (extList, ← bDecEoc n)
    else
      let (extAny, n) ← cls.extAny n
      grabUntilEoc turns (extList ++ [extAny]) n

/-- Read elements of any type while octets are left. -/
def grabWithin (elmtLen0 : AsnLen) :
    Nat → List (List UInt8) → AsnLen → BufM (List (List UInt8) × AsnLen)
  | 0, _, _ => throw .outOfTurns
  | turns + 1, extList, n => do
    if n < elmtLen0 then
      let (extAny, n) ← cls.extAny n
      grabWithin elmtLen0 turns (extList ++ [extAny]) n
    else return (extList, n)

variable (turns : Nat) (elmtLen0 bytesDecoded : AsnLen)

/-- What is done behind the last component. -/
def seqEnd (seqBytesDecoded : AsnLen) (fields : List (String × β)) :
    BufM (Decoded β × AsnLen) := do
  let bytesDecoded := bytesDecoded + seqBytesDecoded
  if elmtLen0 = INDEFINITE_LEN then
    if cls.extensible then
      let (extList, seqBytesDecoded) ← cls.grabUntilEoc turns [] seqBytesDecoded
      return (⟨fields, extList⟩, bytesDecoded + seqBytesDecoded)
    else return (⟨fields, []⟩, ← bDecEoc bytesDecoded)
  else if seqBytesDecoded ≠ elmtLen0 then
    if cls.extensible then
      -- What is read from here on is not counted by the caller.
      let (extList, _) ← cls.grabWithin elmtLen0 turns [] seqBytesDecoded
      return (⟨fields, extList⟩, bytesDecoded)
    else throw (decodeError "Length discrepancy on sequence")
  else return (⟨fields, []⟩, bytesDecoded)

/-- Decode the components behind a tag that was read. -/
@[grind =] def seqElmts : List (Component β) → AsnTag → AsnLen → List (String × β) →
    BufM (Decoded β × AsnLen)
  | [], _, seqBytesDecoded, fields =>
    cls.seqEnd turns elmtLen0 bytesDecoded seqBytesDecoded fields
  | .extension :: rest, tag1, seqBytesDecoded, fields => seqElmts rest tag1 seqBytesDecoded fields
  | .elmt e :: rest, tag1, seqBytesDecoded, fields =>
    if e.firstIds.contains tag1 then do
      let ((v, tag1), seqBytesDecoded) ← e.decode cls.typeName tag1 seqBytesDecoded
      let fields := fields ++ [(e.fieldName, v)]
      let (next, seqBytesDecoded) ← nextTag elmtLen0 rest tag1 seqBytesDecoded
      match next with
      | some tag1 => seqElmts rest tag1 seqBytesDecoded fields
      | none => return (⟨fields, []⟩, bytesDecoded + seqBytesDecoded)
    else if e.mandatory then throw (missingElmt e)
    else seqElmts rest tag1 seqBytesDecoded fields

/-- Decode the contents of a SEQUENCE. -/
def bDecSeqContent : BufM (Decoded β × AsnLen) := do
  if cls.components.isEmpty then
    if elmtLen0 = INDEFINITE_LEN then return ({}, ← bDecEoc bytesDecoded)
    else if elmtLen0 ≠ 0 then throw (decodeError "Expected an empty sequence")
    else return ({}, bytesDecoded)
  else if !isTailOptional cls.components then
    let (tag1, seqBytesDecoded) ← bDecTag 0
    cls.seqElmts turns elmtLen0 bytesDecoded cls.components tag1 seqBytesDecoded []
  else if elmtLen0 = 0 then return ({}, bytesDecoded)
  else
    let (tag1, seqBytesDecoded) ← bDecTag 0
    if tagIsEoc elmtLen0 tag1 then
      return ({}, bytesDecoded + (← bDec2ndEocOctet seqBytesDecoded))
    else cls.seqElmts turns elmtLen0 bytesDecoded cls.components tag1 seqBytesDecoded []

end SnaccClass

/-! ## SET -/

/-- The component whose case a tag selects, by its place. -/
def caseOf (components : List (Component β)) (tag1 : AsnTag) : Option (Elmt β) :=
  components.findSome? fun
    | .elmt e => if e.firstIds.contains tag1 then some e else none
    | .extension => none

/-- The component is counted when it is decoded. -/
def Elmt.counted (e : Elmt β) : Bool :=
  e.mandatory && !e.extensionAddition

/-- How many components are counted in the type. -/
def mandatoryElmtCount (components : List (Component β)) : Nat :=
  components.countP fun
    | .elmt e => e.counted
    | .extension => false

/-- What was decoded of a SET, with the number of mandatory components that were met. -/
structure SetDecoded (β : Type) where
  decoded : Decoded β := {}
  mandatoryElmtsDecoded : UInt32 := 0

namespace SnaccClass

variable (cls : SnaccClass β) (elmtLen0 : AsnLen)

/-- Decode what stands behind a tag and length in a SET. -/
def setCase (readLoc : AsnBufLoc) (tag1 : AsnTag) (elmtLen1 setBytesDecoded : AsnLen)
    (x : SetDecoded β) : BufM (SetDecoded β × AsnLen) := do
  match caseOf cls.components tag1 with
  | some e =>
    let ((v, _), setBytesDecoded) ←
      bDecInner cls.typeName e.decoder e.innerTags tag1 elmtLen1 setBytesDecoded
    let fields := x.decoded.fields ++ [(e.fieldName, v)]
    let mandatoryElmtsDecoded := x.mandatoryElmtsDecoded + if e.counted then 1 else 0
    return (⟨{ x.decoded with fields }, mandatoryElmtsDecoded⟩, setBytesDecoded)
  | none =>
    if cls.extensible then
      setReadLoc readLoc
      -- The tag and length, which are counted already, are read again.
      let (extAny, setBytesDecoded) ← cls.extAny setBytesDecoded
      let extList := x.decoded.extList ++ [extAny]
      return ({ x with decoded := { x.decoded with extList } }, setBytesDecoded)
    else throw (.invalidTagException cls.typeName tag1)

/-- Decode the elements of a SET behind those that were decoded. -/
@[grind =] def setElmts : Nat → SetDecoded β → AsnLen → BufM (SetDecoded β × AsnLen)
  | 0, _, _ => throw .outOfTurns
  | turns + 1, x, setBytesDecoded => do
    if setBytesDecoded < elmtLen0 ∨ elmtLen0 = INDEFINITE_LEN then
      let readLoc ← getReadLoc
      let (tag1, setBytesDecoded) ← bDecTag setBytesDecoded
      if tagIsEoc elmtLen0 tag1 then return (x, ← bDec2ndEocOctet setBytesDecoded)
      else
        let (elmtLen1, setBytesDecoded) ← bDecLen setBytesDecoded
        let (x, setBytesDecoded) ← cls.setCase readLoc tag1 elmtLen1 setBytesDecoded x
        setElmts turns x setBytesDecoded
    else return (x, setBytesDecoded)

/-- Decode the contents of a SET. -/
@[grind =] def bDecSetContent (turns : Nat) (bytesDecoded : AsnLen) : BufM (Decoded β × AsnLen) := do
  let _ ← getReadLoc
  if cls.components.isEmpty then
    if elmtLen0 = INDEFINITE_LEN then return ({}, ← bDecEoc bytesDecoded)
    else if elmtLen0 ≠ 0 then throw (decodeError "Expected an empty sequence")
    else return ({}, bytesDecoded)
  else
    let (x, setBytesDecoded) ← cls.setElmts elmtLen0 turns {} 0
    let bytesDecoded := bytesDecoded + setBytesDecoded
    if x.mandatoryElmtsDecoded.toNat < mandatoryElmtCount cls.components then
      throw (decodeError "non-optional SET element missing")
    else return (x.decoded, bytesDecoded)

end SnaccClass

end Esnacc.Cxx
