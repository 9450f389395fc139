import Esnacc.Ber.Tag
import Esnacc.Ber.Decoding
import Esnacc.Ber.Primitives
import Esnacc.Lib.NestedLoop

/-! Content decoders of OCTET STRING and BIT STRING, whose constructed form comes in pieces. -/

namespace Esnacc

open Lib

/-- A bit string: how many bits it has and the octets that hold them. -/
structure AsnBits where
  bitLen : Int32
  bits : List UInt8
  deriving DecidableEq

variable {β : Type}

/-- The state with all pieces dropped. -/
def DecState.resetStrStk (s : DecState β) : DecState β :=
  { s with glob := { s.glob with strStkG := ⟨[], 0⟩ } }

/-- The state with a piece added. -/
def DecState.pushStr (s : DecState β) (strPtr : Option Ptr) (strsLen : UInt64) : DecState β :=
  let stk := s.glob.strStkG
  { s with
    glob := { s.glob with strStkG := ⟨⟨strPtr, strsLen⟩ :: stk.stk, stk.totalByteLen + strsLen⟩ } }

/-- The state with another count of unused bits. -/
def DecState.setUnusedBitsG (s : DecState β) (unusedBits : UInt16) : DecState β :=
  { s with glob := { s.glob with unusedBitsG := unusedBits } }

@[simp] theorem DecState.resetStrStk_buf (s : DecState β) : s.resetStrStk.buf = s.buf := rfl

@[simp] theorem DecState.pushStr_buf (s : DecState β) (strPtr : Option Ptr) (strsLen : UInt64) :
    (s.pushStr strPtr strsLen).buf = s.buf := rfl

@[simp] theorem DecState.setUnusedBitsG_buf (s : DecState β) (unusedBits : UInt16) :
    (s.setUnusedBitsG unusedBits).buf = s.buf := rfl

/-- Drop all pieces. -/
def resetStrStk : Dec β Unit := fun s => .ok () s.resetStrStk

/-- Add a piece. -/
def pushStr (strPtr : Option Ptr) (strsLen : UInt64) : Dec β Unit := fun s =>
  .ok () (s.pushStr strPtr strsLen)

/-- The length of the collected pieces in all. -/
def getTotalByteLen : Dec β UInt64 := fun s => .ok s.glob.strStkG.totalByteLen s

/-- The count of unused bits the last piece left behind. -/
def getUnusedBitsG : Dec β UInt16 := fun s => .ok s.glob.unusedBitsG s

/-- Store a count of unused bits. -/
def setUnusedBitsG (unusedBits : UInt16) : Dec β Unit := fun s =>
  .ok () (s.setUnusedBitsG unusedBits)

@[simp] theorem run_resetStrStk (s : DecState β) :
    resetStrStk.run s = .ok () s.resetStrStk := rfl

@[simp] theorem run_pushStr (strPtr : Option Ptr) (strsLen : UInt64) (s : DecState β) :
    (pushStr strPtr strsLen).run s = .ok () (s.pushStr strPtr strsLen) := rfl

@[simp] theorem run_getTotalByteLen (s : DecState β) :
    getTotalByteLen.run s = .ok s.glob.strStkG.totalByteLen s := rfl

@[simp] theorem run_getUnusedBitsG (s : DecState β) :
    getUnusedBitsG.run s = .ok s.glob.unusedBitsG s := rfl

@[simp] theorem run_setUnusedBitsG (unusedBits : UInt16) (s : DecState β) :
    (setUnusedBitsG unusedBits).run s = .ok () (s.setUnusedBitsG unusedBits) := rfl

variable [GenBuf β]

/-- The length a loop over pieces works on and the length of the pieces it has passed. -/
structure StkPos where
  elmtLen0 : AsnLen
  totalElmtsLen1 : AsnLen

/-- More pieces are to come. -/
def StkPos.more (p : StkPos) : Bool :=
  p.totalElmtsLen1 < p.elmtLen0 || p.elmtLen0 == INDEFINITE_LEN

/--
The loop both string collectors run, apart from what they do with a primitive piece.

A collector calls itself on a constructed piece; the length of the inner pieces is then added up.
-/
def fillStringStk (tagCode : UInt32) (wrongTag : Exit) (primitivePiece : AsnLen → Dec β Unit) :
    Loop Exit (DecState β) AsnLen StkPos where
  test := StkPos.more
  result p := p.totalElmtsLen1
  turn p := do
    let (tagId1, totalElmtsLen1) ← bDecTag p.totalElmtsLen1
    if tagId1 == EOC_TAG_ID && p.elmtLen0 == INDEFINITE_LEN then
      return .stop (← bDec2ndEocOctet totalElmtsLen1)
    else
      let (elmtLen1, totalElmtsLen1) ← bDecLen totalElmtsLen1
      if tagId1 == makeTagId UNIV PRIM tagCode then
        primitivePiece elmtLen1
        return .next ⟨p.elmtLen0, totalElmtsLen1 + elmtLen1⟩
      else if tagId1 == makeTagId UNIV CONS tagCode then
        return .call ⟨elmtLen1, 0⟩ fun inner => ⟨p.elmtLen0, totalElmtsLen1 + inner⟩
      else throw wrongTag

/-- Refer to the octets of a primitive octet string piece, block by block. -/
def octetPieceLoop (elmtLen1 : AsnLen) : Nat → UInt64 → UInt64 → Dec β Unit
  | 0, _, _ => throw .outOfTurns
  | fuel + 1, refdLen, totalRefdLen => do
    let (strPtr, refdLen) ← bufGetSeg refdLen
    pushStr strPtr refdLen
    let totalRefdLen := totalRefdLen + refdLen
    if totalRefdLen == elmtLen1 then return ()
    else if refdLen == 0 then
      asn1Error "BDecConsOctetString: ERROR - attempt to decode past end of data\n" (-18)
    else octetPieceLoop elmtLen1 fuel (elmtLen1 - totalRefdLen) totalRefdLen

/-- The loop of `FillOctetStringStk`. -/
def octetStringLoop (fuel : Nat) : Loop Exit (DecState β) AsnLen StkPos :=
  fillStringStk OCTETSTRING_TAG_CODE
    (.longjmp
      (some ("BDecConsOctetString: ERROR - decoded non-OCTET STRING tag inside a " ++
        "constructed OCTET STRING\n"))
      (-19))
    fun elmtLen1 => octetPieceLoop elmtLen1 fuel elmtLen1 0

/-- Collect the pieces of a constructed octet string. -/
def fillOctetStringStk (fuel : Nat) (elmtLen0 bytesDecoded : AsnLen) : Dec β AsnLen := do
  let totalElmtsLen1 ← (octetStringLoop fuel).run .outOfTurns fuel ⟨elmtLen0, 0⟩
  return bytesDecoded + totalElmtsLen1

/-- Refer to the octets of a primitive bit string piece, block by block. -/
def bitPieceLoop : Nat → UInt64 → Dec β Unit
  | 0, _ => throw .outOfTurns
  | fuel + 1, lenToRef =>
    if lenToRef > 0 then do
      let (strPtr, refdLen) ← bufGetSeg lenToRef
      if refdLen == 0 then asn1Error "FillBitStringStk: ERROR - expecting more data\n" (-2)
      else
        pushStr strPtr refdLen
        bitPieceLoop fuel (lenToRef - refdLen)
    else return ()

/-- Refer to the octets of a primitive bit string piece behind its unused bits octet. -/
def bitPiece (fuel : Nat) (elmtLen1 : AsnLen) : Dec β Unit := do
  if elmtLen1 == 0 then
    asn1Error "BDecAsnBitsContent: ERROR - invalid length on primitive BIT STRING\n" (-6)
  else
    -- Only the last piece may have unused bits.
    if (← getUnusedBitsG) != 0 then
      asn1Error
        ("FillBitStringStk: ERROR - a component of a constructed BIT STRING that is not " ++
          "the last has non-zero unused bits\n")
        (-1)
    else
      let unusedBits ← bufGetByte
      setUnusedBitsG unusedBits.toUInt16
      bitPieceLoop fuel (elmtLen1 - 1)

/-- The loop of `FillBitStringStk`. -/
def bitStringLoop (fuel : Nat) : Loop Exit (DecState β) AsnLen StkPos :=
  fillStringStk BITSTRING_TAG_CODE
    (.longjmp
      (some ("FillBitStringStk: ERROR - decoded non-BIT STRING tag inside a " ++
        "constructed BIT STRING\n"))
      (-3))
    (bitPiece fuel)

/-- Collect the pieces of a constructed bit string. -/
def fillBitStringStk (fuel : Nat) (elmtLen0 bytesDecoded : AsnLen) : Dec β AsnLen := do
  let totalElmtsLen1 ← (bitStringLoop fuel).run .outOfTurns fuel ⟨elmtLen0, 0⟩
  return bytesDecoded + totalElmtsLen1

/-- The octets of the pieces, copied one after another. -/
def copyPieces : List StrStkElmt → Option (List UInt8)
  | [] => some []
  | piece :: rest => do
    let octets ← match piece.str with
      -- No octets are copied from a null pointer.
      | none => if piece.len == 0 then some [] else none
      | some p => memcpy p.mem p.addr piece.len
    let more ← copyPieces rest
    return octets ++ more

/-- Copy the collected pieces into a fresh block of `size` zero octets. -/
@[grind =] def mergePieces (size : Nat) : Dec β (List UInt8) := fun s =>
  match copyPieces s.glob.strStkG.stk.reverse with
  | none => .error .fault s
  | some octets => storeInto size octets s

/-- Read the contents of a constructed OCTET STRING. -/
@[grind =] def bDecConsAsnOcts (fuel : Nat) (len bytesDecoded : AsnLen) : Dec β (AsnOcts × AsnLen) := do
  resetStrStk
  let bytesDecoded ← fillOctetStringStk fuel len bytesDecoded
  let totalByteLen ← getTotalByteLen
  let size ← asn1Alloc (totalByteLen + 1)
  -- The pieces are followed by a null octet.
  let octs ← mergePieces size
  let _ ← storeInto size (octs.take totalByteLen.toNat ++ [0])
  return (⟨totalByteLen, octs.take totalByteLen.toNat⟩, bytesDecoded)

/-- Read the contents of an OCTET STRING. -/
@[grind =] def bDecAsnOctsContent (fuel : Nat) : ContentDecoder β AsnOcts := fun tagId len bytesDecoded =>
  if tagIsCons tagId then bDecConsAsnOcts fuel len bytesDecoded
  else if len == INDEFINITE_LEN then
    asn1Error "BDecAsnOctsContent: ERROR - indefinite length on primitive\n" (-67)
  else do
    let size ← asn1Alloc (len + 1)
    let octs ← bufCopy size len
    if ← bufReadError then
      asn1Error "BDecAsnOctsContent: ERROR - decoded past end of data\n" (-20)
    else
      -- The octets are followed by a null octet.
      let _ ← storeInto size (octs.take len.toNat ++ [0])
      return (⟨len, octs.take len.toNat⟩, bytesDecoded + len)

/-- Read the contents of a constructed BIT STRING. -/
@[grind =] def bDecConsAsnBits (fuel : Nat) (len bytesDecoded : AsnLen) : Dec β (AsnBits × AsnLen) := do
  resetStrStk
  let bytesDecoded ← fillBitStringStk fuel len bytesDecoded
  let totalByteLen ← getTotalByteLen
  let bitLen := intOf (totalByteLen * 8 - (← getUnusedBitsG).toUInt64)
  let size ← asn1Alloc totalByteLen
  let bits ← mergePieces size
  return (⟨bitLen, bits⟩, bytesDecoded)

/-- Read the contents of a BIT STRING. -/
@[grind =] def bDecAsnBitsContent (fuel : Nat) : ContentDecoder β AsnBits := fun tagId len bytesDecoded =>
  if tagIsCons tagId then bDecConsAsnBits fuel len bytesDecoded
  else if len == INDEFINITE_LEN then
    asn1Error "BDecAsnBitsContent: ERROR - indefinite len on primitive\n" (-5)
  else if len == 0 then
    asn1Error "BDecAsnBitsContent: ERROR - invalid len on primitive BIT STRING\n" (-6)
  else do
    let bytesDecoded := bytesDecoded + len
    let len := len - 1
    let unusedBits ← bufGetByte
    let bitLen := intOf (len * 8 - unusedBits.toUInt64)
    let size ← asn1Alloc len
    let bits ← bufCopy size len
    if ← bufReadError then
      asn1Error "BDecAsnBitsContent: ERROR - decoded past end of data\n" (-4)
    else return (⟨bitLen, bits⟩, bytesDecoded)

end Esnacc
