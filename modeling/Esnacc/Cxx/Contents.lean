import Esnacc.Cxx.AsnInt
import Esnacc.Cxx.BerHeader

/-! BER of the C++ types whose contents are read without looking into them, and of lists. -/

namespace Esnacc.Cxx

open Lib

/-- The exception of the decoders that meet an octet string they cannot take. -/
def decodeError (whatStr : String) : Thrown :=
  .snaccException whatStr 6005

/-! ## OCTET STRING -/

/-- An octet string. -/
structure AsnOcts where
  mStr : List UInt8
  deriving DecidableEq

/-- Read the pieces of a constructed octet string. -/
def AsnOcts.bDecConsOcts (turns : Nat) (x : AsnOcts) (elmtLen bytesDecoded : AsnLen) :
    BufM (AsnOcts × AsnLen) := do
  let (strDeck, bytesDecoded) ← fill turns OCTETSTRING_TAG_CODE elmtLen bytesDecoded
  let mStr ← ofExcept (collapse strDeck x.mStr)
  return (⟨mStr⟩, bytesDecoded)

/-- Read the contents of an octet string into an object. -/
def AsnOcts.bDecContent (turns : Nat) (x : AsnOcts) (tagId : AsnTag) (elmtLen bytesDecoded : AsnLen) :
    BufM (AsnOcts × AsnLen) := do
  if elmtLen ≠ 0 then
    if tagIsCons tagId then x.bDecConsOcts turns elmtLen bytesDecoded
    else if elmtLen = INDEFINITE_LEN then
      throw (boundsException "indefinite length on primitive")
    else
      let mStr ← getSegStr elmtLen.toInt64
      return (⟨mStr⟩, bytesDecoded + elmtLen)
  else return (x, bytesDecoded)

/-- Read an octet string into an object. -/
def AsnOcts.bDec (turns : Nat) (x : AsnOcts) (bytesDecoded : AsnLen) : BufM (AsnOcts × AsnLen) := do
  let (tag, bytesDecoded) ← bDecTag bytesDecoded
  if tag ≠ makeTagId UNIV PRIM OCTETSTRING_TAG_CODE ∧
      tag ≠ makeTagId UNIV CONS OCTETSTRING_TAG_CODE then
    throw (.invalidTagException "AsnOcts" tag)
  else
    let (elmtLen, bytesDecoded) ← bDecLen bytesDecoded
    x.bDecContent turns tag elmtLen bytesDecoded

/-! ## BIT STRING -/

/-- A bit string: how many bits it has and the octets that hold them. -/
structure AsnBits where
  bitLen : UInt64
  bits : List UInt8
  deriving DecidableEq

/-- The pieces have no unused bits, apart from the last one. -/
def unusedBitsAreZero : List StringPair → Except Thrown Unit
  | (piece, _) :: next :: rest =>
    match piece with
    | some (octet :: _) =>
      if octet ≠ 0 then
        throw (decodeError ("Constructed BIT STRING contains a component with a unused bits value " ++
          "other than 0"))
      else unusedBitsAreZero (next :: rest)
    -- A piece without octets is looked at behind its end.
    | _ => throw .fault
  | _ => return ()

/-- Read the pieces of a constructed bit string; nothing is done with them. -/
def AsnBits.bDecConsBits (turns : Nat) (x : AsnBits) (elmtLen bytesDecoded : AsnLen) :
    BufM (AsnBits × AsnLen) := do
  let (deck, bytesDecoded) ← fill turns BITSTRING_TAG_CODE elmtLen bytesDecoded
  ofExcept (unusedBitsAreZero deck)
  return (x, bytesDecoded)

/-- The octets of a new array; there is none of more octets than an object can have. -/
def getUSeg (segLen : AsnLen) : BufM (List UInt8) :=
  if 2 ^ 63 ≤ segLen.toNat then throw .badAlloc else getSeg segLen.toInt64

/-- Read the contents of a primitive bit string. -/
def bDecPrimBits (elmtLen bytesDecoded : AsnLen) : BufM (AsnBits × AsnLen) := do
  if elmtLen = INDEFINITE_LEN then throw (boundsException "indefinite length on primitive")
  else if (← length) < elmtLen ∨ elmtLen = 0 then
    throw (boundsException "length problem on decoding content")
  else
    let iUnusedBitLen ← getByte
    if 7 < iUnusedBitLen then throw (boundsException "Length problem - Unused bits > 7")
    else
      let bits ← getUSeg (elmtLen - 1)
      return (⟨(elmtLen - 1) * 8 - iUnusedBitLen.toUInt64, bits⟩, bytesDecoded + elmtLen)

/-- Read the contents of a bit string into an object. -/
def AsnBits.bDecContent (turns : Nat) (x : AsnBits) (tagId : AsnTag) (elmtLen bytesDecoded : AsnLen) :
    BufM (AsnBits × AsnLen) := do
  let tooMuch := memoryException elmtLen.toInt64 "elmtLen requests for too much data"
  if elmtLen = INDEFINITE_LEN then throw tooMuch
  else if (← length) < elmtLen then throw tooMuch
  else if tagIsCons tagId then x.bDecConsBits turns elmtLen bytesDecoded
  else bDecPrimBits elmtLen bytesDecoded

/-- Read a bit string into an object. -/
def AsnBits.bDec (turns : Nat) (x : AsnBits) (bytesDecoded : AsnLen) : BufM (AsnBits × AsnLen) := do
  let (tag, bytesDecoded) ← bDecTag bytesDecoded
  if tag ≠ makeTagId UNIV PRIM BITSTRING_TAG_CODE ∧
      tag ≠ makeTagId UNIV CONS BITSTRING_TAG_CODE then
    throw (.invalidTagException "AsnBits" tag)
  else
    let (elmtLen, bytesDecoded) ← bDecLen bytesDecoded
    x.bDecContent turns tag elmtLen bytesDecoded

/-! ## Object identifiers -/

/-- The tag code of a relative object identifier. -/
def RELATIVE_OID_TAG_CODE : UInt32 := 13

/-- An object identifier or a relative one: its type and the octets of it. -/
structure AsnRelativeOid where
  mIsRelative : Bool
  oid : List UInt8
  deriving DecidableEq

/-- The name of the type. -/
def AsnRelativeOid.typeName (x : AsnRelativeOid) : String :=
  if x.mIsRelative then "AsnRelativeOid" else "AsnOid"

/-- Read the contents of an object identifier into an object. -/
def AsnRelativeOid.bDecContent (x : AsnRelativeOid) (elmtLen bytesDecoded : AsnLen) :
    BufM (AsnRelativeOid × AsnLen) := do
  if elmtLen = INDEFINITE_LEN then throw (boundsException "indefinite length on primitive")
  else if elmtLen < 1 then throw (.snaccException "invalid length of OID" 6009)
  else
    let oid ← getUSeg elmtLen
    return ({ x with oid := oid }, bytesDecoded + elmtLen)

/-- Read an object identifier into an object. -/
def AsnRelativeOid.bDec (x : AsnRelativeOid) (bytesDecoded : AsnLen) :
    BufM (AsnRelativeOid × AsnLen) := do
  let (tagId, bytesDecoded) ← bDecTag bytesDecoded
  if x.mIsRelative ∧ tagId ≠ makeTagId UNIV PRIM RELATIVE_OID_TAG_CODE ∨
      ¬ x.mIsRelative ∧ tagId ≠ makeTagId UNIV PRIM OID_TAG_CODE then
    throw (.invalidTagException x.typeName tagId)
  else
    let (elmtLen, bytesDecoded) ← bDecLen bytesDecoded
    x.bDecContent elmtLen bytesDecoded

section

/-! ## INTEGER -/

/-- Read the contents of an integer. -/
def AsnInt.bDecContent (elmtLen bytesDecoded : AsnLen) : BufM (AsnInt × AsnLen) := do
  if elmtLen = INDEFINITE_LEN then throw (decodeError "indefinite length on primitive")
  else
    let bytes ← getUSeg elmtLen
    -- Without octets, the one behind the array is looked at for the sign.
    let isNeg := decide (0x80 ≤ bytes.headD 0)
    let x ← ofExcept (storeDERInteger bytes (!isNeg))
    return (x, bytesDecoded + elmtLen)

/-- Read an integer. -/
def AsnInt.bDec (bytesDecoded : AsnLen) : BufM (AsnInt × AsnLen) := do
  let (tag, bytesDecoded) ← bDecTag bytesDecoded
  if tag ≠ makeTagId UNIV PRIM INTEGER_TAG_CODE ∧ tag ≠ makeTagId UNIV CONS INTEGER_TAG_CODE then
    throw (.invalidTagException "AsnInt" tag)
  else
    let (elmtLen, bytesDecoded) ← bDecLen bytesDecoded
    AsnInt.bDecContent elmtLen bytesDecoded

/-! ## REAL -/

/-- A real number, or the octets that one is computed from. -/
inductive AsnReal where
  | zero
  | plusInfinity
  | minusInfinity
  | binary (firstOctet : UInt8) (exponent mantissa : List UInt8)
  deriving DecidableEq

/-- The length of an exponent, with the octet that holds it in the long form. -/
def expLen (firstOctet firstExpOctet : UInt8) : Nat :=
  if firstOctet &&& 3 = 0 then 1
  else if firstOctet &&& 3 = 1 then 2
  else if firstOctet &&& 3 = 2 then 3
  else firstExpOctet.toNat + 1

/-- The octets of an exponent that are read behind the first one. -/
def expRest (firstOctet firstExpOctet : UInt8) : Nat :=
  if firstOctet &&& 3 = 0 then 0
  else if firstOctet &&& 3 = 1 then 1
  else if firstOctet &&& 3 = 2 then 2
  -- The first octet behind the one that holds the length is read in any case.
  else 1 + (firstExpOctet.toNat - 1)

/-- Read the contents of a real number. -/
def AsnReal.bDecContent (elmtLen bytesDecoded : AsnLen) : BufM (AsnReal × AsnLen) := do
  if elmtLen = 0 then return (.zero, bytesDecoded)
  else if elmtLen = INDEFINITE_LEN then throw (decodeError "indefinite length on primitive")
  else
    let firstOctet ← getByte
    if elmtLen = 1 then
      if firstOctet = 0x40 then return (.plusInfinity, bytesDecoded + 1)
      else if firstOctet = 0x41 then return (.minusInfinity, bytesDecoded + 1)
      else throw (decodeError "unrecognized 1 octet length real number")
    else if firstOctet &&& 0x80 ≠ 0 then
      let firstExpOctet ← getByte
      let exponent ← getBytes (expRest firstOctet firstExpOctet)
      let i : Nat := 1 + expLen firstOctet firstExpOctet
      let mantissa ← getBytes ((intOf elmtLen).toInt - i).toNat
      if firstOctet &&& 0x30 = 0x30 then
        throw (decodeError "unsupported base for a binary real number.")
      else
        return (.binary firstOctet (firstExpOctet :: exponent) mantissa, bytesDecoded + elmtLen)
    else throw (decodeError "decimal REAL form is not currently supported")

/-! ## Character strings -/

/-- Read the second octet of the end of contents. -/
def bDec2ndEocOctet (bytesDecoded : AsnLen) : BufM AsnLen := do
  if (← getByte) ≠ 0 then throw (decodeError "second octet of EOC not zero")
  else return bytesDecoded + 1

/-- Read the pieces of a constructed character string behind the octets that were read before. -/
def bDecConsString (typeName : String) (elmtLen : AsnLen) :
    Nat → AsnLen → List UInt8 → AsnLen → BufM (List UInt8 × AsnLen)
  | 0, _, _, _ => throw .outOfTurns
  | turns + 1, totalElmtsLen, str, bytesDecoded => do
    if totalElmtsLen < elmtLen ∨ elmtLen = INDEFINITE_LEN then
      let (innerTag, totalElmtsLen) ← bDecTag totalElmtsLen
      if innerTag = EOC_TAG_ID ∧ elmtLen = INDEFINITE_LEN then
        let totalElmtsLen ← bDec2ndEocOctet totalElmtsLen
        return (str, bytesDecoded + totalElmtsLen)
      else
        let (innerLen, totalElmtsLen) ← bDecLen totalElmtsLen
        if innerTag = makeTagId UNIV PRIM OCTETSTRING_TAG_CODE then
          let seg ← getUSeg innerLen
          -- The octets are counted twice, here and with the total.
          bDecConsString typeName elmtLen turns (totalElmtsLen + innerLen) (str ++ seg)
            (bytesDecoded + innerLen)
        else if innerTag = makeTagId UNIV CONS OCTETSTRING_TAG_CODE then
          let (str, totalElmtsLen) ← bDecConsString typeName innerLen turns 0 str totalElmtsLen
          bDecConsString typeName elmtLen turns totalElmtsLen str bytesDecoded
        else throw (.invalidTagException typeName innerTag)
    else return (str, bytesDecoded + totalElmtsLen)

/-- Read the contents of a character string. -/
def bDecStringContent (turns : Nat) (typeName : String) (tagId : AsnTag)
    (elmtLen bytesDecoded : AsnLen) : BufM (List UInt8 × AsnLen) := do
  if tagIsCons tagId then bDecConsString typeName elmtLen turns 0 [] bytesDecoded
  else if elmtLen = INDEFINITE_LEN then
    throw (boundsException "Indefinite length not allowed on primitive")
  else if 0 < elmtLen then
    let str ← getSegStr elmtLen.toInt64
    return (str, bytesDecoded + elmtLen)
  else return ([], bytesDecoded)

/-! ## Lists -/

/-- Read the end of contents. -/
def bDecEoc (bytesDecoded : AsnLen) : BufM AsnLen := do
  let eoc := decodeError "non zero byte in EOC or end of data reached"
  if (← getByte) ≠ 0 then throw eoc
  else if (← getByte) ≠ 0 then throw eoc
  else return bytesDecoded + 2

/-- Whether a list ends here, with the octets of it that are passed then. -/
def listEnds (elmtLen localBytesDecoded : AsnLen) : BufM (Bool × AsnLen) := do
  if elmtLen = INDEFINITE_LEN then
    if (← peekByte) = 0 then return (true, ← bDecEoc localBytesDecoded)
    else return (false, localBytesDecoded)
  else return (!decide (localBytesDecoded < elmtLen), localBytesDecoded)

variable {α : Type}

/-- Read the elements of a list behind those that were read before. -/
def listTurns (bDec : AsnLen → BufM (α × AsnLen)) (elmtLen : AsnLen) :
    Nat → List α → AsnLen → BufM (List α × AsnLen)
  | 0, _, _ => throw .outOfTurns
  | turns + 1, items, localBytesDecoded => do
    let (ended, localBytesDecoded) ← listEnds elmtLen localBytesDecoded
    if ended then return (items, localBytesDecoded)
    else
      let (item, localBytesDecoded) ← bDec localBytesDecoded
      listTurns bDec elmtLen turns (items ++ [item]) localBytesDecoded

/-- Read the contents of a list behind the elements that it has. -/
def bDecListContent (bDec : AsnLen → BufM (α × AsnLen)) (turns : Nat) (items : List α)
    (elmtLen bytesDecoded : AsnLen) : BufM (List α × AsnLen) := do
  let (items, localBytesDecoded) ← listTurns bDec elmtLen turns items 0
  return (items, bytesDecoded + localBytesDecoded)

end

/-! ## Strings of wide characters -/

/-- Read the pieces of a constructed string of wide characters behind the octets that were read. -/
def combineConsString (typeName : String) (elmtLen : AsnLen) :
    Nat → AsnLen → List UInt8 → BufM (List UInt8 × AsnLen)
  | 0, _, _ => throw .outOfTurns
  | turns + 1, totalElmtsLen, encStr => do
    if totalElmtsLen < elmtLen ∨ elmtLen = INDEFINITE_LEN then
      let (innerTag, totalElmtsLen) ← bDecTag totalElmtsLen
      if innerTag = EOC_TAG_ID ∧ elmtLen = INDEFINITE_LEN then
        let totalElmtsLen ← bDec2ndEocOctet totalElmtsLen
        return (encStr, totalElmtsLen)
      else
        let (innerLen, totalElmtsLen) ← bDecLen totalElmtsLen
        if innerTag = makeTagId UNIV PRIM OCTETSTRING_TAG_CODE then
          -- As many octets are asked for as the whole element has.
          let seg ← getUSeg elmtLen
          combineConsString typeName elmtLen turns (totalElmtsLen + elmtLen) (encStr ++ seg)
        else if innerTag = makeTagId UNIV CONS OCTETSTRING_TAG_CODE then
          let (encStr, innerBytes) ← combineConsString typeName innerLen turns 0 encStr
          combineConsString typeName elmtLen turns (totalElmtsLen + innerBytes) encStr
        else throw (.invalidTagException typeName innerTag)
    else return (encStr, totalElmtsLen)

end Esnacc.Cxx
