import Esnacc.Buf.GenBuf
import Esnacc.Lib.Word

/-! The expanding buffer: a doubly linked chain of blocks, written backwards and read forwards. -/

namespace Esnacc

open Lib

/-- One block of a chain, apart from its links. Every block has a data area of its own. -/
structure ExpBuf where
  mem : Mem
  dataStart : UInt64
  dataEnd : UInt64
  curr : UInt64
  blkStart : UInt64
  blkEnd : UInt64
  readError : Bool
  writeError : Bool

/--
A handle on one block of a chain.

The blocks reached through `prev` come nearest first, as the ones reached through `next` do.
-/
structure ExpBufRef where
  prev : List ExpBuf
  buf : ExpBuf
  next : List ExpBuf

/-- No more data can be read from the block. -/
def expBufAtEod (b : ExpBuf) : Bool :=
  b.curr == b.dataEnd

/-- No more reverse writes can be done to the block. -/
def expBufFull (b : ExpBuf) : Bool :=
  b.dataStart == b.blkStart

/-- The block holds no valid data. -/
def expBufHasNoData (b : ExpBuf) : Bool :=
  b.dataStart == b.dataEnd

/-- Put one block in read mode at its first data octet. -/
def expBufResetBlk (p : ExpBuf) : ExpBuf :=
  { p with curr := p.dataStart, readError := false, writeError := true }

/-- The walk of the read mode reset from a block over the ones after it. -/
def expBufResetInReadModeFrom (prev : List ExpBuf) (p : ExpBuf) : List ExpBuf → ExpBufRef
  | [] => ⟨prev, expBufResetBlk p, []⟩
  -- Each turn stores the block just reset in the caller's handle.
  | n :: rest => expBufResetInReadModeFrom (expBufResetBlk p :: prev) n rest

/-- Set the current location of each block, from the handle on, to its first octet. -/
def expBufResetInReadMode (b : ExpBufRef) : ExpBufRef :=
  expBufResetInReadModeFrom b.prev b.buf b.next

/-- Drop a block's data, so that writes start again from the end of its data area. -/
def expBufResetInWriteRvsMode (b : ExpBuf) : ExpBuf :=
  { b with dataEnd := b.blkEnd, dataStart := b.blkEnd, writeError := false, readError := true }

/-- The walk to the first block of a chain. -/
def expBufListFirstBufFrom : List ExpBuf → ExpBuf → List ExpBuf → ExpBufRef
  | [], b, next => ⟨[], b, next⟩
  | p :: prev, b, next => expBufListFirstBufFrom prev p (b :: next)

/-- The first block of a chain, given any block of it. -/
def expBufListFirstBuf (b : ExpBufRef) : ExpBufRef :=
  expBufListFirstBufFrom b.prev b.buf b.next

/-- A block set up for reverse writing over the data area an allocation returned. -/
def expBufAllocBufAndData (expBufDataBlkSizeG : UInt64) (data : Ptr) : ExpBuf :=
  let blkEnd := data.addr + expBufDataBlkSizeG
  { mem := data.mem, dataStart := blkEnd, dataEnd := blkEnd, curr := blkEnd,
    blkStart := data.addr, blkEnd, readError := true, writeError := false }

/-- A full block over the given data, ready for reading. -/
def expBufInstallDataInBuf (data : Ptr) (len : UInt64) : ExpBufRef :=
  { prev := []
    buf :=
      { mem := data.mem, dataStart := data.addr, dataEnd := data.addr + len, curr := data.addr,
        blkStart := data.addr, blkEnd := data.addr + len, readError := false, writeError := true }
    next := [] }

/-! ## Reading -/

/-- Move on over blocks without data, stopping at the last block in any case. -/
def skipNoData (prev : List ExpBuf) (b : ExpBuf) : List ExpBuf → ExpBufRef
  | [] => ⟨prev, b, []⟩
  | n :: rest => if expBufHasNoData b then skipNoData (b :: prev) n rest else ⟨prev, b, n :: rest⟩

/-- Set the current location of the handle's block to its first data octet. -/
def ExpBufRef.rewind (b : ExpBufRef) : ExpBufRef :=
  { b with buf := { b.buf with curr := b.buf.dataStart } }

/-- Move the current location of the handle's block over `len` octets. -/
def ExpBufRef.advance (b : ExpBufRef) (len : UInt64) : ExpBufRef :=
  { b with buf := { b.buf with curr := b.buf.curr + len } }

/-- Raise the read error of the handle's block. -/
def ExpBufRef.setReadError (b : ExpBufRef) : ExpBufRef :=
  { b with buf := { b.buf with readError := true } }

/-- The next octet, without passing over it; the routine reads it at the end of data too. -/
def expBufPeekByte (b : ExpBufRef) : UInt8 × ExpBufRef :=
  let b := if b.buf.curr == b.buf.dataEnd then b.setReadError else b
  (b.buf.mem b.buf.curr, b)

/-- A pointer to the next contiguous octets and how many of them it covers. -/
def expBufPeekSeg (b : ExpBufRef) (len : UInt64) : Option Ptr × UInt64 :=
  if expBufAtEod b.buf then (none, 0)
  else
    let bytesLeft := intOf (b.buf.dataEnd - b.buf.curr)
    -- The comparison converts the `int` to `unsigned long`.
    let len := if ulongOf bytesLeft ≤ len then ulongOf bytesLeft else len
    (some ⟨b.buf.mem, b.buf.curr⟩, len)

/-- A pointer to the next contiguous octets, how many of them it covers, and the chain past them. -/
def expBufGetSeg (b : ExpBufRef) (len : UInt64) : Option Ptr × UInt64 × ExpBufRef :=
  if expBufAtEod b.buf then (none, 0, b)
  else
    let bytesLeft := intOf (b.buf.dataEnd - b.buf.curr)
    let retVal : Option Ptr := some ⟨b.buf.mem, b.buf.curr⟩
    if bytesLeft ≤ intOf len then
      let len := ulongOf bytesLeft
      match b.next with
      | n :: rest => (retVal, len, (skipNoData (b.buf :: b.prev) n rest).rewind)
      | [] => (retVal, len, b.advance len)
    else (retVal, len, b.advance len)

/-- Copy the octets a segment pointer covers; a null pointer only ever comes with no octets. -/
def copySeg (srcPtr : Option Ptr) (gotLen : UInt64) : Option (List UInt8) :=
  match srcPtr with
  | none => some []
  | some p => memcpy p.mem p.addr gotLen

/--
The loop of `ExpBufCopy`, with the octets it wrote behind `totalGotLen` in order.

It ends without a result when a copy runs off the address space or the turns run out.
-/
def expBufCopyLoop (len : UInt64) :
    Nat → ExpBufRef → UInt64 → Int32 → Option (List UInt8 × Int32 × ExpBufRef)
  | 0, _, _, _ => none
  | fuel + 1, b, gotLen, totalGotLen => do
    let (srcPtr, gotLen, b) := expBufGetSeg b gotLen
    let octets ← copySeg srcPtr gotLen
    let totalGotLen := intOf (ulongOf totalGotLen + gotLen)
    if totalGotLen ≥ intOf len then return (octets, totalGotLen, b)
    else if gotLen == 0 then return (octets, totalGotLen, b.setReadError)
    else
      let (rest, total, b) ← expBufCopyLoop len fuel b (len - ulongOf totalGotLen) totalGotLen
      return (octets ++ rest, total, b)

/-- Copy the next `len` octets and pass over them. -/
def expBufCopy (b : ExpBufRef) (len : UInt64) : Option (List UInt8 × Int32 × ExpBufRef) :=
  -- Every turn but the last two leaves a block behind.
  expBufCopyLoop len (b.next.length + 3) b len 0

/-- The loop of `ExpBufSkip`. -/
def expBufSkipLoop : Nat → ExpBufRef → UInt64 → ExpBufRef
  | 0, b, _ => b
  | fuel + 1, b, len =>
    if len = 0 then b
    else
      match expBufGetSeg b len with
      | (none, _, b) => b
      | (some _, lenRemaining, b) =>
        if lenRemaining == 0 then b.setReadError
        else expBufSkipLoop fuel b (len - lenRemaining)

/-- Pass over the next `len` octets. -/
def expBufSkip (b : ExpBufRef) (len : UInt64) : ExpBufRef :=
  expBufSkipLoop (b.next.length + 3) b len

/-- Move back until `depth` blocks come before the handle. -/
def backTo (depth : Nat) : List ExpBuf → ExpBuf → List ExpBuf → ExpBufRef
  | [], b, next => ⟨[], b, next⟩
  | p :: prev, b, next =>
    if (p :: prev).length ≤ depth then ⟨p :: prev, b, next⟩ else backTo depth prev p (b :: next)

/-- Restore a handle to the block it referred to before it was moved forwards. -/
def ExpBufRef.restore (b origBuf : ExpBufRef) : ExpBufRef :=
  backTo origBuf.prev.length b.prev b.buf b.next

/-- The loop of `ExpBufPeekCopy`, which walks the blocks and then restores the handle. -/
def expBufPeekCopyLoop (len : UInt64) (origBuf : ExpBufRef) :
    Nat → ExpBufRef → UInt64 → UInt64 → Option (List UInt8 × Int32 × ExpBufRef)
  | 0, _, _, _ => none
  | fuel + 1, b, gotLen, totalGotLen => do
    let (srcPtr, gotLen) := expBufPeekSeg b gotLen
    let octets ← copySeg srcPtr gotLen
    let totalGotLen := totalGotLen + gotLen
    match b.next with
    | [] => return (octets, intOf totalGotLen, b.restore origBuf)
    | n :: rest =>
      if totalGotLen ≥ len then return (octets, intOf totalGotLen, b.restore origBuf)
      else if gotLen == 0 then
        return (octets, intOf totalGotLen, b.setReadError.restore origBuf)
      else
        let b := (skipNoData (b.buf :: b.prev) n rest).rewind
        let (more, total, b) ←
          expBufPeekCopyLoop len origBuf fuel b (len - totalGotLen) totalGotLen
        return (octets ++ more, total, b)

/-- Copy the next `len` octets without passing over them, and count them. -/
def expBufPeekCopy (b : ExpBufRef) (len : UInt64) : Option (List UInt8 × Int32 × ExpBufRef) :=
  -- Every turn but the last leaves a block behind.
  expBufPeekCopyLoop len b (b.next.length + 1) b len 0

/-- Go on to the next block, if there is one, from a block that has been read to its end. -/
def stepToNext (b : ExpBufRef) : ExpBufRef :=
  if expBufAtEod b.buf then
    match b.next with
    | n :: rest => ExpBufRef.rewind ⟨b.buf :: b.prev, n, rest⟩
    | [] => b
  else b

/-- Move on over finished blocks the way a single-octet read does. -/
def getByteBlock (b : ExpBufRef) : ExpBufRef :=
  -- The first move leaves the current location of the block it stops at alone.
  stepToNext (skipNoData b.prev b.buf b.next)

/-- The next octet, passing over it. -/
def expBufGetByte (b : ExpBufRef) : UInt8 × ExpBufRef :=
  let b := getByteBlock b
  if expBufAtEod b.buf then (0, b.setReadError)
  else (b.buf.mem b.buf.curr, b.advance 1)

/-- The read error is the one of the handle's block. -/
def expBufReadError (b : ExpBufRef) : Bool :=
  b.buf.readError

instance : GenBuf ExpBufRef where
  getByte := expBufGetByte
  getSeg := expBufGetSeg
  copy b len := (expBufCopy b len).map fun (octets, _, b) => (octets, b)
  skip := expBufSkip
  peekByte := expBufPeekByte
  peekCopy := expBufPeekCopy
  readError := expBufReadError

/-! ## Writing -/

/-- What `malloc` returns for the data area of a new block, given how many blocks came before. -/
abbrev Malloc := Nat → Option Ptr

/-- The handle moved to the block before it, or to a new one put at the head of the list. -/
def prevOrNewBuf (expBufDataBlkSizeG : UInt64) (malloc : Malloc) (b : ExpBufRef) :
    Option ExpBufRef :=
  match b.prev with
  | p :: prev => some ⟨prev, expBufResetInWriteRvsMode p, b.buf :: b.next⟩
  | [] => do
    let data ← malloc (b.next.length + 1)
    let new := expBufAllocBufAndData expBufDataBlkSizeG data
    return ⟨[], expBufResetInWriteRvsMode new, b.buf :: b.next⟩

/-- Note that the chain could not grow. -/
def ExpBufRef.setWriteError (b : ExpBufRef) : ExpBufRef :=
  { b with buf := { b.buf with writeError := true } }

/-- Store octets in front of a block's data. -/
def ExpBufRef.prepend (b : ExpBufRef) (octets : List UInt8) : ExpBufRef :=
  let dataStart := b.buf.dataStart - UInt64.ofNat octets.length
  { b with buf := { b.buf with mem := store b.buf.mem dataStart octets, dataStart } }

/-- Store octets at the start of a block's data area and count all of the area as data. -/
def ExpBufRef.fill (b : ExpBufRef) (octets : List UInt8) : ExpBufRef :=
  { b with
    buf :=
      { b.buf with mem := store b.buf.mem b.buf.blkStart octets, dataStart := b.buf.blkStart } }

/-- Write one octet in front of the data. -/
def expBufPutByteRvs (expBufDataBlkSizeG : UInt64) (malloc : Malloc) (b : ExpBufRef)
    (byte : UInt8) : ExpBufRef :=
  if b.buf.writeError then b
  else if expBufFull b.buf then
    match prevOrNewBuf expBufDataBlkSizeG malloc b with
    | none => b.setWriteError
    | some b => b.prepend [byte]
  else b.prepend [byte]

/--
The loop of `ExpBufPutSegRvs` on the octets still to be written.

It ends without a result when a copy has a negative length or the turns run out.
-/
def expBufPutSegRvsLoop (expBufDataBlkSizeG : UInt64) (malloc : Malloc) :
    Nat → ExpBufRef → List UInt8 → Option ExpBufRef
  | 0, _, _ => none
  | fuel + 1, b, data =>
    let bytesLeft := intOf (b.buf.dataStart - b.buf.blkStart)
    if bytesLeft > intOf (UInt64.ofNat data.length) then some (b.prepend data)
    else if bytesLeft < 0 then none
    else
      -- Fill this block with the last octets and go on with the others in another block.
      let kept := data.length - (ulongOf bytesLeft).toNat
      let filled := b.fill (data.drop kept)
      match prevOrNewBuf expBufDataBlkSizeG malloc filled with
      | none => some filled.setWriteError
      | some b => expBufPutSegRvsLoop expBufDataBlkSizeG malloc fuel b (data.take kept)

/-- Write a segment in front of the data. -/
def expBufPutSegRvs (expBufDataBlkSizeG : UInt64) (malloc : Malloc) (b : ExpBufRef)
    (data : List UInt8) : Option ExpBufRef :=
  if b.buf.writeError then some b
  else
    -- Every turn but the first and the last writes at least one octet or moves to a linked block.
    expBufPutSegRvsLoop expBufDataBlkSizeG malloc (data.length + b.prev.length + 2) b data

end Esnacc
