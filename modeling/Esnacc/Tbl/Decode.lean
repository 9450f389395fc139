import Esnacc.Ber.Strings
import Esnacc.Ber.Tag

/-! Type tables, and the decoder that is driven by them. -/

namespace Esnacc

open Lib

/-! ## Types and values -/

/-- The classes of tags in a table. -/
inductive TBLTagClass where
  | UNIVERSAL
  | APPLICATION
  | CONTEXT
  | PRIVATE
  deriving DecidableEq

/-- The form of a tag, which may be either where both are taken. -/
inductive BerForm where
  | ANY_FORM
  | PRIM
  | CONS
  deriving DecidableEq

/-- A tag of a type, with the word that is compared with the tags of a buffer. -/
structure TBLTag where
  tclass : TBLTagClass
  code : UInt32
  form : BerForm
  encTag : AsnTag
  deriving DecidableEq

/-- The types without elements. -/
inductive TBLPrimTypeId where
  | BOOLEAN
  | INTEGER
  | BITSTRING
  | OCTETSTRING
  | NULL
  | OID
  | REAL
  | ENUMERATED
  deriving DecidableEq

/-- The types with elements. -/
inductive TBLElmtsTypeId where
  | SEQUENCE
  | SET
  | SEQUENCEOF
  | SETOF
  | CHOICE
  deriving DecidableEq

/-- The number of a type definition in a table. -/
abbrev TBLTypeDefId := Int32

/-- A type as a table lists it, with what its kind of type has for content. -/
inductive TBLType where
  | primType (typeId : TBLPrimTypeId) (optional : Bool) (tagList : List TBLTag)
  | elmts (typeId : TBLElmtsTypeId) (optional : Bool) (tagList : List TBLTag)
      (elmts : List TBLType)
  | typeRef (optional : Bool) (tagList : List TBLTag) (typeDef : TBLTypeDefId) (implicit : Bool)

namespace TBLType

/-- The component may be missing. -/
def optional : TBLType → Bool
  | primType _ optional _ | elmts _ optional _ _ | typeRef optional _ _ _ => optional

/-- The tags of the type itself. -/
def tagList : TBLType → List TBLTag
  | primType _ _ tagList | elmts _ _ tagList _ | typeRef _ tagList _ _ => tagList

end TBLType

/-- A named type of a module. -/
structure TBLTypeDef where
  typeDefId : TBLTypeDefId
  typeName : String
  type : TBLType

/-- A module with its types. -/
structure TBLModule where
  name : String
  typeDefs : List TBLTypeDef

/-- A type table. -/
structure TBL where
  modules : List TBLModule

/-- The type definition of a module with a given name. -/
def tblFindTypeDefInMod (tblMod : TBLModule) (typeName : String) : Option TBLTypeDef :=
  tblMod.typeDefs.find? fun tblTd => tblTd.typeName = typeName

/-- The type definition with a given name, in a given module or in the first that has it. -/
def tblFindTypeDef (tbl : TBL) (modName : Option String) (typeName : String) :
    Option TBLTypeDef :=
  match modName with
  | some modName => do
    let tblMod ← tbl.modules.find? fun tblMod => tblMod.name = modName
    tblFindTypeDefInMod tblMod typeName
  | none => tbl.modules.findSome? fun tblMod => tblFindTypeDefInMod tblMod typeName

/-- The type definition with a given number, which a linked reference points to. -/
def tblFindTypeDefByIndex (tbl : TBL) (id : TBLTypeDefId) : Option TBLTypeDef :=
  tbl.modules.findSome? fun tblMod => tblMod.typeDefs.find? fun tblTd => tblTd.typeDefId = id

/--
A decoded value.

The array of a SEQUENCE or SET is what was stored in it, by the places of the components and in the
order of the stores; a later store takes the place of an earlier one.
-/
inductive AVal where
  | asnBool (v : Bool)
  | asnInt (v : Int32)
  | asnBits (v : AsnBits)
  | asnOcts (v : AsnOcts)
  | asnNull
  | asnOid (v : AsnOid)
  | asnReal (v : AsnReal)
  | aStructVal (stores : List (Nat × AVal))
  | asnList (elmts : List AVal)
  | aChoiceVal (choiceId : Nat) (val : AVal)

section

variable {β : Type}

/-! ## The stack of tags and lengths -/

/-- The number of entries that the stack has room for. -/
def TL_STK_SIZE : Nat := 128

/-- PUSH_TL. -/
@[grind =] def pushTL (entry : TagNLen) : Dec β Unit := fun s =>
  if s.glob.tlStkG.length ≥ TL_STK_SIZE then .error (.longjmp none (-1000)) s
  else .ok () { s with glob := { s.glob with tlStkG := entry :: s.glob.tlStkG } }

/-- LAST_TAG, LAST_LEN and LAST_SIZE, which look in front of the stack where it is empty. -/
@[grind =] def lastTL : Dec β TagNLen := fun s =>
  match s.glob.tlStkG with
  | [] => .error .fault s
  | entry :: _ => .ok entry s

/-- POP_TL. -/
@[grind =] def popTL : Dec β Unit := fun s =>
  match s.glob.tlStkG with
  | [] => .error (.longjmp none (-1001)) s
  | _ :: rest => .ok () { s with glob := { s.glob with tlStkG := rest } }

/-! ## Tags -/

/-- The tag with its constructed bit cleared. -/
def deconsify (tag : AsnTag) : AsnTag :=
  tag &&& ~~~(CONS <<< 24)

/-- A tag that was read is one of the type table. -/
def tagsEquiv (asnTag : AsnTag) (tblTag : TBLTag) : Bool :=
  tblTag.encTag = asnTag || tblTag.form = .ANY_FORM && tblTag.encTag = deconsify asnTag

/-- A tag begins values of a type; types without tags are gone through. -/
def tagsMatch (tbl : TBL) (asnTag : AsnTag) : Nat → TBLType → Except Exit Bool
  | 0, _ => throw .outOfTurns
  | turns + 1, t =>
    match t.tagList, t with
    | tblTag :: _, _ => return tagsEquiv asnTag tblTag
    | [], .typeRef _ _ typeDef _ =>
      match tblFindTypeDefByIndex tbl typeDef with
      | none => throw .fault
      | some tblTd => tagsMatch tbl asnTag turns tblTd.type
    | [], .elmts .CHOICE _ _ elmts => elmts.anyM (tagsMatch tbl asnTag turns)
    -- The first tag of an empty list is asked for.
    | [], _ => throw .fault

/-- The first type with a property, by its place. -/
def findElmt (isIt : TBLType → Except Exit Bool) :
    Nat → List TBLType → Except Exit (Option (Nat × TBLType))
  | _, [] => return none
  | currElmt, t :: rest => do
    if ← isIt t then return some (currElmt, t) else findElmt isIt (currElmt + 1) rest

section

variable [GenBuf β]

/-- Copy the next octets without passing over them. -/
@[grind =] def bufPeekCopy (len : UInt64) : Dec β (List UInt8) := fun s =>
  match GenBuf.peekCopy s.buf len with
  | none => .error .fault s
  | some (octets, _, buf) => .ok octets { s with buf }

/-- The octets of a long tag behind the first, of which the next one has the place `i`. -/
def peekTagLoop : Nat → AsnTag → Dec β (Nat × AsnTag)
  | 0, tagId => return (5, tagId)
  | room + 1, tagId => do
    let octets ← bufPeekCopy (UInt64.ofNat (4 - room))
    match octets[3 - room]? with
    -- An octet that was not written has no value.
    | none => throw .fault
    | some tmpTagId =>
      let tagId := tagId ||| tmpTagId.toUInt32 <<< UInt32.ofNat (8 * room)
      if tmpTagId &&& 0x80 != 0 then peekTagLoop room tagId else return (5 - room, tagId)

/-- The next tag, which is not passed over. -/
def peekTag : Dec β AsnTag := do
  let octets ← bufPeekCopy 1
  match octets[0]? with
  | none => throw .fault
  | some first =>
    let tagId := first.toUInt32 <<< 24
    let (i, tagId) ←
      (if tagId &&& LONG_TAG == LONG_TAG then peekTagLoop 3 tagId else pure (2, tagId))
    if i > 5 then asn1Error "BDecTag: ERROR - tag value overflow\n" (-1004) else return tagId

/-- The next octet is that of the end of contents. -/
def peekEoc : Dec β Bool :=
  return (← bufPeekByte) == 0

/-! ## Tags and lengths of a type -/

/-- The tags of a type that stand in the buffer. -/
def ownTags (tblT : TBLType) (implicit : Bool) : List TBLTag :=
  if implicit then tblT.tagList.tail else tblT.tagList

/-- Read tags with their lengths. -/
def decodeTagsAndLens : List TBLTag → Dec β Unit
  | [] => return ()
  | tblTag :: rest => do
    let (tag, encSize) ← bDecTag 0
    let (len, encSize) ← bDecLen encSize
    if !tagsEquiv tag tblTag then longjmp (-1002)
    else
      pushTL ⟨tag, len, encSize.toUInt32⟩
      decodeTagsAndLens rest

/-- TblDecodeTagsAndLens. -/
@[grind =] def tblDecodeTagsAndLens (tblT : TBLType) (implicit : Bool) : Dec β Unit :=
  decodeTagsAndLens (ownTags tblT implicit)

/-- Check the lengths of tags against what was decoded behind them, from the last one on. -/
def popTagsAndLens : List TBLTag → AsnLen → Dec β AsnLen
  | [], bytesDecoded => return bytesDecoded
  | _ :: rest, bytesDecoded => do
    let last ← lastTL
    let bytesDecoded ←
      (if last.len = INDEFINITE_LEN then bDecEoc bytesDecoded
      else if bytesDecoded ≠ last.len then longjmp (-1003)
      else return bytesDecoded)
    popTL
    popTagsAndLens rest (bytesDecoded + last.size.toUInt64)

/-- TblPopTagsAndLens. -/
def tblPopTagsAndLens (tblT : TBLType) (implicit : Bool) (bytesDecoded : AsnLen) :
    Dec β AsnLen :=
  popTagsAndLens (ownTags tblT implicit).reverse bytesDecoded

/-! ## Contents -/

/-- What was stored in the array of a SET, and how many mandatory components were met. -/
structure ASetVal where
  stores : List (Nat × AVal) := []
  mandatoryCount : Int32 := 0

/-- CountMandatoryElmts. -/
def countMandatoryElmts (elmts : List TBLType) : Int32 :=
  Int32.ofNat (elmts.countP fun t => !t.optional)

section

-- Which types a tag begins, and the decoder of a component.
variable (isMatch : AsnTag → TBLType → Except Exit Bool)
  (decodeType : TBLType → Bool → AsnLen → Dec β (AVal × AsnLen))

/-- Decode the components of a SEQUENCE from a given place on. -/
def decodeSequence :
    Nat → List TBLType → List (Nat × AVal) → AsnLen → Dec β (List (Nat × AVal) × AsnLen)
  | _, [], stores, bytesDecoded => return (stores, bytesDecoded)
  | currElmt, t :: rest, stores, bytesDecoded => do
    let asnTag ← peekTag
    if ← ofExcept (isMatch asnTag t) then
      let (v, bytesDecoded) ← decodeType t false bytesDecoded
      decodeSequence (currElmt + 1) rest (stores ++ [(currElmt, v)]) bytesDecoded
    else if !t.optional then longjmp (-1008)
    else decodeSequence (currElmt + 1) rest stores bytesDecoded

/-- Decode the component of a SET that begins with the next tag. -/
def decodeSetElmt (elmts : List TBLType) (noMatch : Int32) (x : ASetVal) (bytesDecoded : AsnLen) :
    Dec β (ASetVal × AsnLen) := do
  let asnTag ← peekTag
  match ← ofExcept (findElmt (isMatch asnTag) 0 elmts) with
  | none => longjmp noMatch
  | some (currElmt, t) =>
    let mandatoryCount := if t.optional then x.mandatoryCount else x.mandatoryCount + 1
    let (v, bytesDecoded) ← decodeType t false bytesDecoded
    return (⟨x.stores ++ [(currElmt, v)], mandatoryCount⟩, bytesDecoded)

/-- Decode components of a SET while there are more. -/
def decodeSetElmts (elmts : List TBLType) (more : AsnLen → Dec β Bool) (noMatch : Int32) :
    Nat → ASetVal → AsnLen → Dec β (ASetVal × AsnLen)
  | 0, _, _ => throw .outOfTurns
  | turns + 1, x, bytesDecoded => do
    if ← more bytesDecoded then
      let (x, bytesDecoded) ← decodeSetElmt isMatch decodeType elmts noMatch x bytesDecoded
      decodeSetElmts elmts more noMatch turns x bytesDecoded
    else return (x, bytesDecoded)

/-- More contents of indefinite length follow. -/
def notEoc (_ : AsnLen) : Dec β Bool :=
  return !(← peekEoc)

/-- More contents of the length on the stack follow. -/
def withinLen (bytesDecoded : AsnLen) : Dec β Bool :=
  return bytesDecoded < (← lastTL).len

/-- Decode the contents of a SET. -/
def decodeSet (elmts : List TBLType) (turns : Nat) : Dec β (List (Nat × AVal) × AsnLen) := do
  let last ← lastTL
  let (x, bytesDecoded) ←
    (if last.len = INDEFINITE_LEN then
      decodeSetElmts isMatch decodeType elmts notEoc (-1009) turns {} 0
    else decodeSetElmts isMatch decodeType elmts withinLen (-1007) turns {} 0)
  if x.mandatoryCount ≠ countMandatoryElmts elmts then longjmp (-1006)
  else return (x.stores, bytesDecoded)

/-- Decode elements of a list while there are more. -/
def decodeListElmts (listElmtType : TBLType) (more : AsnLen → Dec β Bool) :
    Nat → List AVal → AsnLen → Dec β (List AVal × AsnLen)
  | 0, _, _ => throw .outOfTurns
  | turns + 1, elmts, bytesDecoded => do
    if ← more bytesDecoded then
      let (v, bytesDecoded) ← decodeType listElmtType false bytesDecoded
      decodeListElmts listElmtType more turns (elmts ++ [v]) bytesDecoded
    else return (elmts, bytesDecoded)

/-- Decode the contents of a SEQUENCE OF or SET OF. -/
def decodeList (elmts : List TBLType) (turns : Nat) : Dec β (List AVal × AsnLen) := do
  match elmts with
  | [] => throw .fault
  | listElmtType :: _ =>
    let last ← lastTL
    if last.len = INDEFINITE_LEN then decodeListElmts decodeType listElmtType notEoc turns [] 0
    else decodeListElmts decodeType listElmtType withinLen turns [] 0

/-- Decode the alternative of a CHOICE that begins with the next tag. -/
def decodeChoice (elmts : List TBLType) : Dec β ((Nat × AVal) × AsnLen) := do
  let asnTag ← peekTag
  match ← ofExcept (findElmt (isMatch asnTag) 0 elmts), elmts.getLast? with
  | some (choiceId, t), _ =>
    let (v, bytesDecoded) ← decodeType t false 0
    return ((choiceId, v), bytesDecoded)
  -- Where no alternative matches, the last one is decoded as the first.
  | none, some t =>
    let (v, bytesDecoded) ← decodeType t false 0
    return ((0, v), bytesDecoded)
  | none, none => throw .fault

end

/-- Decode the contents of a type without elements, with the last tag and length read. -/
def decodePrimType (typeId : TBLPrimTypeId) (turns : Nat) : Dec β (AVal × AsnLen) := do
  let last ← lastTL
  match typeId with
  | .BOOLEAN =>
    let (v, bytesDecoded) ← bDecAsnBoolContent last.tag last.len 0
    return (.asnBool v, bytesDecoded)
  | .INTEGER | .ENUMERATED =>
    let (v, bytesDecoded) ← bDecAsnIntContent last.tag last.len 0
    return (.asnInt v, bytesDecoded)
  | .BITSTRING =>
    let (v, bytesDecoded) ← bDecAsnBitsContent turns last.tag last.len 0
    return (.asnBits v, bytesDecoded)
  | .OCTETSTRING =>
    let (v, bytesDecoded) ← bDecAsnOctsContent turns last.tag last.len 0
    return (.asnOcts v, bytesDecoded)
  | .NULL =>
    let (_, bytesDecoded) ← bDecAsnNullContent last.tag last.len 0
    return (.asnNull, bytesDecoded)
  | .OID =>
    let (v, bytesDecoded) ← bDecAsnOidContent last.tag last.len 0
    return (.asnOid v, bytesDecoded)
  | .REAL =>
    let (v, bytesDecoded) ← bDecAsnRealContent turns last.tag last.len 0
    return (.asnReal v, bytesDecoded)

/-- Decode what stands behind the tags and lengths of a type. -/
def tblDecodeContent (tbl : TBL) (isMatch : AsnTag → TBLType → Except Exit Bool)
    (decodeType : TBLType → Bool → AsnLen → Dec β (AVal × AsnLen)) (turns : Nat)
    (implicit : Bool) : TBLType → Dec β (AVal × AsnLen)
  | .primType typeId _ _ => decodePrimType typeId turns
  | .elmts .SEQUENCE _ _ elmts => do
    let (stores, bytesDecoded) ← decodeSequence isMatch decodeType 0 elmts [] 0
    return (.aStructVal stores, bytesDecoded)
  | .elmts .SET _ _ elmts => do
    let (stores, bytesDecoded) ← decodeSet isMatch decodeType elmts turns
    return (.aStructVal stores, bytesDecoded)
  | .elmts .SEQUENCEOF _ _ elmts | .elmts .SETOF _ _ elmts => do
    let (vs, bytesDecoded) ← decodeList decodeType elmts turns
    return (.asnList vs, bytesDecoded)
  | .elmts .CHOICE _ _ elmts => do
    let ((choiceId, v), bytesDecoded) ← decodeChoice isMatch decodeType elmts
    return (.aChoiceVal choiceId v, bytesDecoded)
  | .typeRef _ tagList typeDef implicitRef =>
    match tblFindTypeDefByIndex tbl typeDef with
    | none => throw .fault
    -- The reference is implicit, or was and has no tags of its own.
    | some tblTd => decodeType tblTd.type (implicitRef || implicit && tagList.isEmpty) 0

/-- TblDecodeType, on a stack with room for as many calls as turns. -/
@[grind =] def tblDecodeType (tbl : TBL) : Nat → TBLType → Bool → AsnLen → Dec β (AVal × AsnLen)
  | 0, _, _, _ => throw .outOfTurns
  | turns + 1, tblT, implicit, bytesDecoded => do
    tblDecodeTagsAndLens tblT implicit
    let (v, tmpBytesDecoded) ← tblDecodeContent tbl (fun tag => tagsMatch tbl tag turns)
      (tblDecodeType tbl turns) turns implicit tblT
    let tmpBytesDecoded ← tblPopTagsAndLens tblT implicit tmpBytesDecoded
    return (v, bytesDecoded + tmpBytesDecoded)

end

end

end Esnacc
