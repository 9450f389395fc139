import Esnacc.Ber.Tag
import Esnacc.Cxx.AsnBuf

/-! Tags and lengths read from the C++ buffer, and whole strings and elements copied out of it. -/

namespace Esnacc.Cxx

open Lib

/-! ## Tags and lengths -/

/-- The octets of a tag behind its first one, as many as still fit the word. -/
def moreTag : Nat → AsnTag → AsnLen → BufM (AsnTag × AsnLen)
  | 0, _, _ => throw (.snaccException "Tag value overflow" 6003)
  | left + 1, tagId, bytesDecoded => do
    let tagByte ← getByte
    let tagId := tagId ||| tagByte.toUInt32 <<< UInt32.ofNat (left * 8)
    if tagByte &&& 0x80 ≠ 0 then moreTag left tagId (bytesDecoded + 1)
    else return (tagId, bytesDecoded + 1)

/-- Read a tag. -/
def bDecTag (bytesDecoded : AsnLen) : BufM (AsnTag × AsnLen) := do
  let tagByte ← getByte
  let tagId := tagByte.toUInt32 <<< 24
  if tagByte &&& 0x1F = 0x1F then moreTag 3 tagId (bytesDecoded + 1)
  else return (tagId, bytesDecoded + 1)

/-- Shift some octets into a length. -/
def lenOctets : Nat → AsnLen → BufM AsnLen
  | 0, len => return len
  | lenBytes + 1, len => do
    let byte ← getByte
    lenOctets lenBytes (len <<< 8 ||| byte.toUInt64)

/-- Read a length. -/
def bDecLen (bytesDecoded : AsnLen) : BufM (AsnLen × AsnLen) := do
  let byte ← getByte
  let bytesDecoded := bytesDecoded + 1
  if byte < 0x80 then return (byte.toUInt64, bytesDecoded)
  else if byte = 0x80 then return (INDEFINITE_LEN, bytesDecoded)
  else
    let lenBytes := (byte &&& 0x7F).toNat
    if 8 < lenBytes then throw (boundsException "length overflow")
    else
      let len ← lenOctets lenBytes 0
      return (len, bytesDecoded + UInt64.ofNat lenBytes)

/-! ## Pieces of a constructed string -/

/-- A piece: its octets, unless they could not be had, and the length it was asked for with. -/
abbrev StringPair := Option (List UInt8) × AsnLen

/-- The octets of a new array; absent where it cannot be allocated or the data end. -/
def getNewSeg (segLen : Int64) : BufM (Option (List UInt8)) := fun b =>
  if segLen < 0 then .ok none b
  else
    match (getSeg segLen).run b with
    | .ok seg b' => .ok (some seg) b'
    | .error thrown b' => if thrown = pastEnd then .ok none b' else .error thrown b'

/-- A constructed piece: its length, and the number of its octets that are passed. -/
structure RefNode where
  length : AsnLen
  count : AsnLen
  deriving DecidableEq

/-- More of a constructed piece is to come. -/
def RefNode.more (node : RefNode) : Bool :=
  node.count < node.length || node.length == INDEFINITE_LEN

/-- What the collector keeps between two turns. -/
structure Collector where
  refList : List RefNode
  /-- The place of the node worked on; behind the last node it is the end of the list. -/
  curr : Nat
  strDeck : List StringPair
  deriving DecidableEq

/-- Another number of passed octets for the node worked on. -/
def Collector.setCount (st : Collector) (count : AsnLen) : Collector :=
  { st with refList := st.refList.modify st.curr fun node => { node with count := count } }

/-- Read one piece of the node worked on; the answer is whether its end was met. -/
def fillTurn (baseTag : AsnTag) (st : Collector) (node : RefNode) : BufM (Bool × Collector) := do
  let (tagId1, count) ← bDecTag node.count
  if tagId1 = EOC_TAG_ID ∧ node.length = INDEFINITE_LEN then
    if (← getByte) = 0 then return (true, st.setCount (count + 1))
    else throw (.snaccException "Partial EOC tag found" 6005)
  else if tagId1 = makeTagId UNIV PRIM baseTag ∨ baseTag = 0 then
    let (totalElmtsLen1, count) ← bDecLen count
    if totalElmtsLen1 = INDEFINITE_LEN then
      throw (.invalidTagException "Primitive String can not have INDEFINITE_LEN" tagId1)
    else if (← length) < totalElmtsLen1 then
      throw (.invalidTagException "Primitive String, length" tagId1)
    else
      let strPtr ← getNewSeg totalElmtsLen1.toInt64
      let st := st.setCount (count + totalElmtsLen1)
      return (false, { st with strDeck := st.strDeck ++ [(strPtr, totalElmtsLen1)] })
  else if tagId1 = makeTagId UNIV CONS baseTag ∨ baseTag = 0 ∧ tagIsCons tagId1 then
    let (totalElmtsLen1, count) ← bDecLen count
    if totalElmtsLen1 ≠ INDEFINITE_LEN ∧ node.length < totalElmtsLen1 + count then
      throw (boundsException "Invalid constructed object")
    else
      let st := st.setCount count
      -- The new node goes to the end of the list and is worked on next.
      return (false, { st with
        refList := st.refList ++ [⟨totalElmtsLen1, 0⟩], curr := st.refList.length })
  else throw (.invalidTagException "Constructed String" tagId1)

/-- Leave the node worked on; the answer is whether the collector is done. -/
def Collector.leave (st : Collector) : Bool × Collector :=
  match st.refList[st.curr]? with
  | none => (true, st)
  | some node =>
    if st.curr = 0 then (true, st)
    else
      let iTmpCount := intOf node.count
      let st := { st with refList := st.refList.eraseIdx st.curr }
      -- The node behind the erased one is worked on next, if there is one.
      match st.refList[st.curr]? with
      | none => (true, st)
      | some next => (false, st.setCount (next.count + ulongOf iTmpCount))

/-- Read one piece, if more of the node worked on is to come. -/
@[grind =] def nextTurn (baseTag : AsnTag) (st : Collector) : BufM (Bool × Collector) :=
  match st.refList[st.curr]? with
  | none => return (true, st)
  | some node => if node.more then fillTurn baseTag st node else return (true, st)

/-- Read pieces until the collector is done. -/
def fillTurns (baseTag : AsnTag) : Nat → Collector → BufM Collector
  | 0, _ => throw .outOfTurns
  | turns + 1, st => do
    let (ended, st) ← nextTurn baseTag st
    if ended then
      let (done, st) := st.leave
      if done then return st else fillTurns baseTag turns st
    else fillTurns baseTag turns st

/-- Collect the pieces of a constructed string. -/
@[grind =] def fill (turns : Nat) (baseTag : AsnTag) (elmtLen bytesDecoded : AsnLen) :
    BufM (List StringPair × AsnLen) := do
  let st ← fillTurns baseTag turns ⟨[⟨elmtLen, 0⟩], 0, []⟩
  return (st.strDeck, bytesDecoded + (st.refList.head?.map RefNode.count).getD 0)

/-- The octets of the pieces behind those of a string. -/
def collapse (strDeck : List StringPair) (str : List UInt8) : Except Thrown (List UInt8) :=
  match strDeck with
  | [] => return str
  | (some seg, len) :: rest => collapse rest (str ++ seg.take len.toNat)
  -- No octets can be taken from a null pointer.
  | (none, len) :: rest => if len = 0 then collapse rest str else throw .fault

/-! ## Whole elements -/

/-- A place to read from: a card's place in the deck, and the octets of it that are passed. -/
structure AsnBufLoc where
  card : Nat
  offset : Nat
  deriving DecidableEq

/-- The place that is read from. -/
@[grind =] def getReadLoc : BufM AsnBufLoc := do
  let b ← get
  match b.ahead with
  -- The end of the deck has no card to ask.
  | [] => throw .fault
  | c :: rest =>
    let (offset, c) := c.seekoff 0 .cur
    set { b with ahead := c :: rest }
    return ⟨b.passed.length, offset.getD 0⟩

/-- Go back to a place, with all other cards at their start. -/
def setReadLoc (bl : AsnBufLoc) : BufM Unit := do
  let b ← get
  if b.deck.length < bl.card then throw (bufferException "Invalid AsnBufLoc")
  else
    let b := b.resetMode
    set b
    match b.deck.drop bl.card with
    | [] => throw .fault
    | c :: rest => set (⟨b.deck.take bl.card, (c.seekpos bl.offset).2 :: rest⟩ : AsnBuf)

/-- What a routine throws is thrown as an exception of the buffer. -/
@[grind =] def catching {α : Type} (x : BufM α) (text : String) : BufM α := fun b =>
  match x.run b with
  | .ok r b' => .ok r b'
  | .error thrown b' =>
    -- These stand for no exception.
    if thrown = .fault ∨ thrown = .outOfTurns then .error thrown b'
    else .error (bufferException text) b'

/-- The number of octets behind the header of an element. -/
def grabLen (turns : Nat) (len : AsnLen) : BufM AsnLen := do
  if len = INDEFINITE_LEN then
    let (_, lTmpbytesDecoded) ← catching (fill turns 0 len 0)
      "deck.Fill(...) failed, unexpected exception (STACK?)"
    return lTmpbytesDecoded
  else if (← length) < len then throw (bufferException "len error from BDecLen call")
  else return len

/-- Copy an element to a new card in front of another buffer. -/
def grabAny (turns : Nat) (anyBuf : AsnBuf) (bytesDecoded : AsnLen) : BufM (AsnBuf × AsnLen) := do
  let readLoc ← getReadLoc
  let (_, count) ← bDecTag bytesDecoded
  let (len, count) ← bDecLen count
  let len ← grabLen turns len
  setReadLoc readLoc
  let tmpLen := count - bytesDecoded + len
  let seg ← getSeg tmpLen.toInt64
  return (⟨[], .ofSeg seg :: anyBuf.deck⟩, count + len)

end Esnacc.Cxx
