import Esnacc.Cxx.AsnRvsBuf
import Esnacc.Lib.StateExcept
import Esnacc.Lib.Word

/-! The C++ buffer: a deck of cards that is written backwards and read forwards. -/

namespace Esnacc.Cxx

open Lib

/-- A deck of cards: those in front of the current card, and the current one with those behind. -/
structure AsnBuf where
  passed : List AsnRvsBuf
  /-- Empty where the current card is the end of the deck. -/
  ahead : List AsnRvsBuf
  deriving DecidableEq

/-- A buffer without cards. -/
def AsnBuf.empty : AsnBuf :=
  { passed := [], ahead := [] }

/-- All the cards of a buffer. -/
@[grind =] def AsnBuf.deck (b : AsnBuf) : List AsnRvsBuf :=
  b.passed ++ b.ahead

/-- A buffer made of given octets. -/
def AsnBuf.ofSeg (seg : List UInt8) : AsnBuf :=
  { passed := [], ahead := [.ofSeg seg] }

/-- A routine that works on a buffer. -/
abbrev BufM := EStateM Thrown AsnBuf

/-- Run what changes a buffer or fails as a routine. -/
@[grind =] def onBuf {α : Type} (f : AsnBuf → Except Thrown (α × AsnBuf)) : BufM α := fun b =>
  match f b with
  | .ok (r, b') => .ok r b'
  | .error thrown => .error thrown b

theorem run_onBuf_of_ok {α : Type} {f : AsnBuf → Except Thrown (α × AsnBuf)} {b b' : AsnBuf} {r : α}
    (ran : f b = .ok (r, b')) : (onBuf f).run b = .ok r b' := by
  change onBuf f b = _
  rw [onBuf, ran]

/-- The exception of the readers at the end of the deck. -/
def pastEnd : Thrown :=
  bufferException "Read past end of data"

/-! ## Reading -/

/-- Read the next octet of the first card that has one; the cards before it are passed. -/
def bumpCards (passed : List AsnRvsBuf) :
    List AsnRvsBuf → Except Thrown (Option UInt8 × AsnBuf)
  | [] => return (none, ⟨passed, []⟩)
  | c :: rest => do
    match ← c.sbumpc with
    | (some octet, c) => return (some octet, ⟨passed, c :: rest⟩)
    | (none, c) => bumpCards (passed ++ [c]) rest

/-- Read an octet unless the deck is at its end; the answer of failure is no octet. -/
def getByteNoEx : BufM (Option UInt8) :=
  onBuf fun b => bumpCards b.passed b.ahead

/-- Read an octet. -/
def getByte : BufM UInt8 := do
  match ← getByteNoEx with
  | some octet => return octet
  | none => throw pastEnd

/-- Read octets from the cards, and say how many are still missing at the end of the deck. -/
def segCards (passed : List AsnRvsBuf) :
    List AsnRvsBuf → Nat → Except Thrown ((List UInt8 × Nat) × AsnBuf)
  | ahead, 0 => return (([], 0), ⟨passed, ahead⟩)
  | [], segLen => return (([], segLen), ⟨passed, []⟩)
  | c :: rest, segLen => do
    let (octets, c) ← c.sgetn segLen
    if octets.length = segLen then return ((octets, 0), ⟨passed, c :: rest⟩)
    else
      let ((more, missing), b) ← segCards (passed ++ [c]) rest (segLen - octets.length)
      return ((octets ++ more, missing), b)

/-- Read a number of octets; a negative number reads none. -/
def getSeg (segLen : Int64) : BufM (List UInt8) := do
  let (octets, missing) ← onBuf fun b => segCards b.passed b.ahead segLen.toInt.toNat
  if 0 < missing then throw pastEnd
  else return octets

/-- Look at an octet of a card, and at one more card where it is used up. -/
def peekByte : BufM UInt8 := do
  let b ← get
  match b.ahead with
  | [] => throw pastEnd
  | c :: rest =>
    match ← ofExcept c.sgetc with
    | (some octet, c) =>
      set ({ b with ahead := c :: rest } : AsnBuf)
      return octet
    | (none, c) =>
      let passed := b.passed ++ [c]
      match rest with
      | [] =>
        set (⟨passed, []⟩ : AsnBuf)
        throw pastEnd
      | d :: rest =>
        set (⟨passed, d :: rest⟩ : AsnBuf)
        match ← ofExcept d.sgetc with
        | (some octet, d) =>
          set (⟨passed, d :: rest⟩ : AsnBuf)
          return octet
        | (none, d) =>
          set (⟨passed, d :: rest⟩ : AsnBuf)
          throw pastEnd

/-- A place in a card, narrowed to an `int`; -1 where there is none. -/
def posOf (pos : Option Nat) : Int32 :=
  match pos with
  | none => -1
  | some n => intOf (UInt64.ofNat n)

/-- The octets still to come in a card, measured with its place and its end. -/
def measure (c : AsnRvsBuf) : UInt64 × AsnRvsBuf :=
  let (currPos, c) := c.seekoff 0 .cur
  let currPos := if posOf currPos = -1 then 0 else posOf currPos
  let (endPos, c) := c.seekoff 0 .end
  let (_, c) := c.seekpos currPos.toInt
  (ulongOf (posOf endPos - currPos), c)

/-- Add up the octets still to come in some cards. -/
def lengthCards : List AsnRvsBuf → UInt64 × List AsnRvsBuf
  | [] => (0, [])
  | c :: rest =>
    ((measure c).1 + (lengthCards rest).1, (measure c).2 :: (lengthCards rest).2)

/-- The number of octets still to come. -/
def length : BufM UInt64 := do
  let b ← get
  let (bytesRemaining, ahead) := lengthCards b.ahead
  set { b with ahead := ahead }
  return bytesRemaining

/-- Read a number of octets one by one. -/
def getBytes : Nat → BufM (List UInt8)
  | 0 => return []
  | n + 1 => do
    let octet ← getByte
    let octets ← getBytes n
    return octet :: octets

/-- Read a number of octets into a string, or all of them where the number is 0. -/
def getSegStr (segLen : Int64) : BufM (List UInt8) := do
  let segLen ← (if segLen = 0 then (return (← length).toInt64) else return segLen)
  if (← length) < segLen.toUInt64 then
    throw (bufferException "GetSeg attempt to read past end of data")
  else getBytes segLen.toInt.toNat

/-- Skip octets of the cards, and say how many are still missing at the end of the deck. -/
def skipCards (passed : List AsnRvsBuf) : List AsnRvsBuf → Nat → Nat × AsnBuf
  | ahead, 0 => (0, ⟨passed, ahead⟩)
  | [], skipBytes => (skipBytes, ⟨passed, []⟩)
  | c :: rest, skipBytes =>
    let (cardLen, c) := c.length
    if cardLen < skipBytes then
      let (_, c) := c.seekoff 0 .end
      skipCards (passed ++ [c]) rest (skipBytes - cardLen)
    else
      let (_, c) := c.seekoff skipBytes .cur
      (0, ⟨passed, c :: rest⟩)

/-- Skip a number of octets. -/
def skip (skipBytes : Nat) : BufM Unit := do
  let missing ← onBuf fun b => .ok (skipCards b.passed b.ahead skipBytes)
  if 0 < missing then throw (bufferException "Skipped past end of buffer")

/-! ## Writing -/

/-- A buffer that has a card to write to. -/
def AsnBuf.withCard (b : AsnBuf) : AsnBuf :=
  if b.deck = [] then ⟨[], [.new]⟩ else b

/-- Put an octet in front of the data. -/
@[grind =] def AsnBuf.putByteRvs (b : AsnBuf) (octet : UInt8) : Except Thrown AsnBuf :=
  let b := b.withCard
  match b.ahead with
  -- The card behind the last one is written to.
  | [] => throw .fault
  | c :: rest =>
    match c.sputc octet with
    | (true, c) => return { b with ahead := c :: rest }
    | (false, c) => return ⟨[], (AsnRvsBuf.new.sputc octet).2 :: b.passed ++ c :: rest⟩

/-- Put what is left of a segment in front of the data, one card after the other. -/
def AsnBuf.putTurns (b : AsnBuf) (seg : List UInt8) : Nat → Except Thrown AsnBuf
  | 0 => return b
  | turns + 1 =>
    if seg = [] then return b
    else
      match b.ahead with
      | [] => throw .fault
      | c :: rest =>
        let (written, c) := c.sputn seg
        let seg := seg.take (seg.length - written)
        if seg = [] then return { b with ahead := c :: rest }
        else
          match b.passed.getLast? with
          | none => AsnBuf.putTurns ⟨[], .new :: c :: rest⟩ seg turns
          | some d => AsnBuf.putTurns ⟨b.passed.dropLast, d :: c :: rest⟩ seg turns

/-- Put a segment in front of the data; every turn uses up a card in front or writes an octet. -/
def AsnBuf.putSegRvs (b : AsnBuf) (seg : List UInt8) : Except Thrown AsnBuf :=
  b.withCard.putTurns seg (b.passed.length + seg.length + 1)

/-- Go back to the start of all cards, to read them. -/
def AsnBuf.resetMode (b : AsnBuf) : AsnBuf :=
  { passed := [], ahead := b.deck.map fun c => (c.seekpos 0).2 }

end Esnacc.Cxx
