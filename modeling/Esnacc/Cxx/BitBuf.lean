import Esnacc.Cxx.SnaccException
import Esnacc.Lib.Bits
import Esnacc.Lib.StateExcept

/-! The C++ bit buffer: bits are put behind the last one and read from the front. -/

namespace Esnacc.Cxx

open Lib

/-- A bit buffer that owns its string buffer. -/
structure AsnBufBits where
  /-- The octets of the string buffer that are not read yet. -/
  pbuf : List UInt8
  bAlign : Bool
  /-- The octet being filled. -/
  writeCharBuf : UInt8
  /-- The number of its bits that are free: 8 where it is empty. -/
  writeBitPos : Nat
  /-- The octet being read. -/
  readCharBuf : UInt8
  /-- The number of its bits that are read: 8 where it is used up. -/
  readBitPos : Nat
  numBits : UInt64
  bitsLeft : UInt64
  deriving DecidableEq

/-- A fresh buffer with its own string buffer. -/
def AsnBufBits.make (bAligned : Bool) : AsnBufBits :=
  { pbuf := [], bAlign := bAligned, writeCharBuf := 0, writeBitPos := 8, readCharBuf := 0,
    readBitPos := 8, numBits := 0, bitsLeft := 0 }

/-- Keep the first bits of an octet and clear the others. -/
def maskBits (charToMask : UInt8) (bitsToMask : Nat) : UInt8 :=
  if bitsToMask < 8 ∧ 0 < bitsToMask then
    shl (shr charToMask (8 - bitsToMask)) (8 - bitsToMask)
  else charToMask

/-! ## Writing -/

/-- The octets and the number of bits that a caller puts; the octets have that many bits. -/
structure BitSegment where
  seg : List UInt8
  numBits : UInt64
  holds : numBits.toNat ≤ 8 * seg.length

/-- Append an octet to the string buffer, which always has room. -/
def AsnBufBits.sputc (b : AsnBufBits) (ch : UInt8) : AsnBufBits :=
  { b with pbuf := b.pbuf ++ [ch] }

/-- Put a whole octet: fill the partial one and start the next with the rest. -/
def AsnBufBits.putOctet (b : AsnBufBits) (octet : UInt8) : AsnBufBits :=
  let first := shr (maskBits octet b.writeBitPos) (8 - b.writeBitPos)
  { b.sputc (b.writeCharBuf ||| first) with
    writeCharBuf := shl octet b.writeBitPos
    bitsLeft := b.bitsLeft + 8
    numBits := b.numBits + 8 }

/-- Put the first bits of an octet, fewer than eight. -/
def AsnBufBits.putExtra (b : AsnBufBits) (octet : UInt8) (extraBits : Nat) : AsnBufBits :=
  let joined := b.writeCharBuf ||| shr octet (8 - b.writeBitPos)
  let counted := { b with
    bitsLeft := b.bitsLeft + UInt64.ofNat extraBits
    numBits := b.numBits + UInt64.ofNat extraBits }
  if extraBits = b.writeBitPos then
    { counted.sputc joined with writeBitPos := 8, writeCharBuf := 0 }
  else if extraBits < b.writeBitPos then
    -- The bits behind those asked for came along and are masked out again.
    let free := b.writeBitPos - extraBits
    { counted with writeBitPos := free, writeCharBuf := maskBits joined (8 - free) }
  else
    let free := 8 - (extraBits - b.writeBitPos)
    { counted.sputc joined with
      writeBitPos := free
      writeCharBuf := shl (shr octet (8 - extraBits)) free }

/-- Put the first bits of a segment; the number of bits asked for is returned. -/
def putBits (b : AsnBufBits) (bits : BitSegment) : AsnBufBits × UInt64 :=
  let numBytes := bits.numBits.toNat / 8
  let extraBits := bits.numBits.toNat % 8
  let b := (bits.seg.take numBytes).foldl AsnBufBits.putOctet b
  if more : extraBits ≠ 0 then
    have inside : numBytes < bits.seg.length := by
      have holds := bits.holds
      omega
    (b.putExtra bits.seg[numBytes] extraBits, bits.numBits)
  else (b, bits.numBits)

/-- Fill the partial octet with zeros, in an aligned buffer; their number is returned. -/
def octetAlignWrite (b : AsnBufBits) : AsnBufBits × Nat :=
  if b.bAlign ∧ b.writeBitPos < 8 then
    let padding := UInt64.ofNat b.writeBitPos
    ({ b.sputc b.writeCharBuf with
        numBits := b.numBits + padding
        bitsLeft := b.bitsLeft + padding
        writeCharBuf := 0
        writeBitPos := 8 }, b.writeBitPos)
  else (b, 0)

/-! ## Reading -/

/-- A routine that reads from a bit buffer. -/
abbrev BitsM := EStateM Thrown AsnBufBits

/-- Skip to the next octet, in an aligned buffer; the number of bits skipped is returned. -/
def octetAlignRead : BitsM Nat := do
  let b ← get
  if b.bAlign then
    let skipped := 8 - b.readBitPos
    -- The bits left are lowered without a look at how many there are.
    set { b with
      bitsLeft := b.bitsLeft - UInt64.ofNat skipped
      readBitPos := 8
      readCharBuf := 0 }
    return skipped
  else return 0

/-- Read the next octet, the partial one that is being written at last. -/
def readByte : BitsM UInt8 := do
  let b ← get
  match b.pbuf with
  | ch :: pbuf =>
    set { b with pbuf := pbuf }
    return ch
  | [] =>
    if b.writeBitPos < 8 then
      set { b with writeBitPos := 8, writeCharBuf := 0 }
      return b.writeCharBuf
    else if 0 < b.bitsLeft then
      set { b with bitsLeft := 0 }
      return b.readCharBuf
    else throw (bufferException "Read Past End of Buffer")

/-- Read a whole octet of a request for several bits. -/
def getOctet : BitsM UInt8 := do
  let b ← get
  let next ← readByte
  if b.readBitPos = 8 then return next
  else
    let first := shr (maskBits next b.readBitPos) (8 - b.readBitPos)
    modify fun b => { b with readCharBuf := shl next b.readBitPos }
    return b.readCharBuf ||| first

/-- Read the whole octets of a request for several bits. -/
def getOctets : Nat → BitsM (List UInt8)
  | 0 => return []
  | count + 1 => do
    let octet ← getOctet
    let octets ← getOctets count
    return octet :: octets

/-- Read the last bits of a request for several bits, fewer than eight. -/
def getExtra (extraBits : Nat) : BitsM UInt8 := do
  let b ← get
  if extraBits ≤ 8 - b.readBitPos then
    set { b with
      readCharBuf := shl b.readCharBuf extraBits
      readBitPos := b.readBitPos + extraBits }
    return maskBits b.readCharBuf extraBits
  else
    let next ← readByte
    let fromNext := extraBits - (8 - b.readBitPos)
    let masked := maskBits next fromNext
    let masked := if b.readBitPos ≠ 8 then shr masked (8 - b.readBitPos) else masked
    modify fun b => { b with readCharBuf := shl next fromNext, readBitPos := fromNext }
    return b.readCharBuf ||| masked

/-- The message for a request that exceeds the bits left. -/
def tooManyBits : Thrown :=
  bufferException "Trying to retrieve more bits than in the buffer"

/-- Read some bits as octets, the last one filled with zeros and a zero octet behind it. -/
@[grind =] def getBits (numBits : UInt64) : BitsM (List UInt8) := do
  let b ← get
  if b.bitsLeft < numBits then throw tooManyBits
  else
    let octets ← getOctets (numBits.toNat / 8)
    let extraBits := numBits.toNat % 8
    let last ← (if 0 < extraBits then (return [← getExtra extraBits]) else return [])
    modify fun b => { b with bitsLeft := b.bitsLeft - numBits }
    return octets ++ last ++ [0]

/-- Read one bit. -/
def getBit : BitsM Bool := do
  let b ← get
  if b.bitsLeft = 0 then throw (bufferException "No more bits in the buffer")
  else
    if b.readBitPos = 8 then
      let next ← readByte
      modify fun b => { b with readCharBuf := next, readBitPos := 0 }
    let b ← get
    set { b with
      readBitPos := b.readBitPos + 1
      readCharBuf := shl b.readCharBuf 1
      bitsLeft := b.bitsLeft - 1 }
    return b.readCharBuf &&& 0x80 ≠ 0

/-- Read eight bits as an octet. -/
@[grind =] def AsnBufBits.getByte : BitsM UInt8 := do
  let b ← get
  if b.bitsLeft < 8 then throw tooManyBits
  else
    let next ← readByte
    if b.readBitPos = 8 then
      modify fun b => { b with bitsLeft := b.bitsLeft - 8 }
      return next
    else
      modify fun b => { b with
        readCharBuf := shl next b.readBitPos
        bitsLeft := b.bitsLeft - 8 }
      return b.readCharBuf ||| shr next (8 - b.readBitPos)

end Esnacc.Cxx
