import Esnacc.Lib.Memory
import Esnacc.Lib.Word

/-! The reading half of the `GenBuf` operations table, and the simple buffer of one block behind it. -/

namespace Esnacc

open Lib

/-! ## The table -/

/-- A pointer into a data block: the memory it points into and the address there. -/
structure Ptr where
  mem : Mem
  addr : UInt64

/-- The octets found by following a pointer. -/
def Ptr.octets (p : Ptr) (n : Nat) : List UInt8 :=
  slice p.mem p.addr n

/--
The read operations a `GenBuf` dispatches to.

A copy that never completes, because it runs off the address space, has no result.
-/
class GenBuf (β : Type) where
  getByte : β → UInt8 × β
  /-- The pointer is absent where the C routine returns `NULL`; the length is what `*lenPtr` holds after. -/
  getSeg : β → UInt64 → Option Ptr × UInt64 × β
  copy : β → UInt64 → Option (List UInt8 × β)
  skip : β → UInt64 → β
  peekByte : β → UInt8 × β
  /-- The octets written to `dst`, and the `int` the routine returns. -/
  peekCopy : β → UInt64 → Option (List UInt8 × Int32 × β)
  readError : β → Bool

/-! ## The simple buffer -/

/-- One contiguous block. Every location is a 64-bit address, as the C pointers are. -/
structure SBuf where
  mem : Mem
  dataStart : UInt64
  dataEnd : UInt64
  blkStart : UInt64
  blkEnd : UInt64
  readLoc : UInt64
  writeError : Bool
  readError : Bool

/-- Point the buffer at an empty block, ready for writing. -/
def sBufInit (mem : Mem) (data : UInt64) (dataLen : Int64) : SBuf :=
  -- The data is empty, so its start, its end and the read location all stand at the block's end.
  let blkEnd := data + dataLen.toUInt64
  { mem, dataStart := blkEnd, dataEnd := blkEnd, blkStart := data, blkEnd, readLoc := blkEnd,
    writeError := true, readError := true }

/-- Restart reading at the first data octet. -/
def sBufResetInReadMode (b : SBuf) : SBuf :=
  { b with readLoc := b.dataStart, readError := false, writeError := true }

/-- Install a block of data and set the buffer up for reading it. -/
def sBufInstallData (mem : Mem) (data : UInt64) (dataLen : Int64) : SBuf :=
  let b := sBufInit mem data dataLen
  sBufResetInReadMode { b with dataStart := b.blkStart }

/-- No data is left to read. -/
def sBufEod (b : SBuf) : Bool :=
  b.readLoc ≥ b.dataEnd

/-- Pass over the next `skipLen` octets. -/
def sBufSkip (b : SBuf) (skipLen : Int64) : SBuf :=
  -- Adding a `long` to a pointer is addition of addresses modulo the word.
  if b.readLoc + skipLen.toUInt64 > b.dataEnd then
    { b with readLoc := b.dataEnd, readError := true }
  else
    { b with readLoc := b.readLoc + skipLen.toUInt64 }

/-- Copy the next `copyLen` octets and pass over them. -/
def sBufCopy (b : SBuf) (copyLen : Int64) : Option (List UInt8 × SBuf) :=
  if b.readLoc + copyLen.toUInt64 > b.dataEnd then do
    let octets ← memcpy b.mem b.readLoc (b.dataEnd - b.readLoc)
    return (octets, { b with readLoc := b.dataEnd, readError := true })
  else do
    let octets ← memcpy b.mem b.readLoc copyLen.toUInt64
    return (octets, { b with readLoc := b.readLoc + copyLen.toUInt64 })

/-- The next octet, without passing over it. -/
def sBufPeekByte (b : SBuf) : UInt8 × SBuf :=
  if sBufEod b then (0, { b with readError := true })
  else (b.mem b.readLoc, b)

/-- Copy the next `copyLen` octets without passing over them, and count them. -/
def sBufPeekCopy (b : SBuf) (copyLen : UInt64) : Option (List UInt8 × Int32 × SBuf) :=
  if b.readLoc + copyLen > b.dataEnd then do
    let octets ← memcpy b.mem b.readLoc (b.dataEnd - b.readLoc)
    return (octets, intOf (b.dataEnd - b.readLoc), { b with readError := true })
  else do
    let octets ← memcpy b.mem b.readLoc copyLen
    return (octets, intOf copyLen, b)

/-- A pointer to the next octets, how many of them it covers, and the location after them. -/
def sBufGetSeg (b : SBuf) (lenPtr : Int64) : Ptr × Int64 × SBuf :=
  let retVal : Ptr := ⟨b.mem, b.readLoc⟩
  if b.readLoc + lenPtr.toUInt64 > b.dataEnd then
    (retVal, (b.dataEnd - b.readLoc).toInt64, { b with readLoc := b.dataEnd })
  else
    (retVal, lenPtr, { b with readLoc := b.readLoc + lenPtr.toUInt64 })

/-- The next octet, passing over it. -/
def sBufGetByte (b : SBuf) : UInt8 × SBuf :=
  if sBufEod b then (0, { b with readError := true })
  else (b.mem b.readLoc, { b with readLoc := b.readLoc + 1 })

/-- The table casts each routine, so an unsigned length arrives as the `long` of the same bits. -/
instance : GenBuf SBuf where
  getByte := sBufGetByte
  getSeg b len :=
    let (seg, segLen, b) := sBufGetSeg b len.toInt64
    (some seg, segLen.toUInt64, b)
  copy b len := sBufCopy b len.toInt64
  skip b len := sBufSkip b len.toInt64
  peekByte := sBufPeekByte
  peekCopy := sBufPeekCopy
  readError b := b.readError

namespace SBuf

/-- The octets between the read location and the end of the data. -/
def unread (b : SBuf) : List UInt8 :=
  slice b.mem b.readLoc (b.dataEnd.toNat - b.readLoc.toNat)

/-- The buffer with the read location moved over the next `n` octets. -/
@[grind =] def advance (b : SBuf) (n : Nat) : SBuf :=
  { b with readLoc := b.readLoc + UInt64.ofNat n }

@[simp] theorem advance_dataEnd (b : SBuf) (n : Nat) : (b.advance n).dataEnd = b.dataEnd := rfl

@[simp] theorem advance_zero (b : SBuf) : b.advance 0 = b := by
  simp [advance]

@[simp] theorem advance_advance (b : SBuf) (m n : Nat) :
    (b.advance m).advance n = b.advance (m + n) := by
  simp [advance, UInt64.ofNat_add, UInt64.add_assoc]

theorem length_unread (b : SBuf) : b.unread.length = b.dataEnd.toNat - b.readLoc.toNat := by
  simp [unread]

theorem toNat_readLoc_advance {b : SBuf} {n : Nat} (room : n ≤ b.unread.length) :
    (b.advance n).readLoc.toNat = b.readLoc.toNat + n := by
  have bound := UInt64.toNat_lt b.dataEnd
  have start := UInt64.toNat_lt b.readLoc
  rw [length_unread] at room
  simp only [advance, UInt64.toNat_add, UInt64.toNat_ofNat']
  omega

theorem unread_advance {b : SBuf} {n : Nat} (room : n ≤ b.unread.length) :
    (b.advance n).unread = b.unread.drop n := by
  have moved := toNat_readLoc_advance room
  rw [length_unread] at room
  rw [unread, unread, drop_slice _ _ room, moved, Nat.sub_add_eq]
  rfl

theorem sBufEod_iff (b : SBuf) : sBufEod b = true ↔ b.unread = [] := by
  simp only [sBufEod, unread, slice_eq_nil_iff, decide_eq_true_eq, ge_iff_le,
    UInt64.le_iff_toNat_le]
  omega

/-- Reading an octet takes the first unread one. -/
theorem getByte_cons {b : SBuf} {x : UInt8} {rest : List UInt8} (held : b.unread = x :: rest) :
    GenBuf.getByte b = (x, b.advance 1) := by
  have left : ¬ sBufEod b = true := by simp [sBufEod_iff, held]
  -- The first octet of the unread region is the one at the read location.
  have first : b.mem b.readLoc = x := by
    have nonempty : 0 < b.dataEnd.toNat - b.readLoc.toNat := by
      rw [← length_unread, held]
      simp
    have here := getElem?_slice b.mem b.readLoc nonempty
    rw [← unread, held] at here
    simpa using here.symm
  change sBufGetByte b = _
  simp only [sBufGetByte, if_neg left, first]
  rfl

theorem getByte_nil {b : SBuf} (done : b.unread = []) :
    GenBuf.getByte b = (0, { b with readError := true }) := by
  change sBufGetByte b = _
  rw [sBufGetByte, if_pos ((sBufEod_iff b).mpr done)]

/-- Copying octets that are there delivers them and passes over them. -/
theorem copy_within {b : SBuf} {len : UInt64} (room : len.toNat ≤ b.unread.length)
    (inside : b.readLoc ≤ b.dataEnd) :
    GenBuf.copy b len = some (b.unread.take len.toNat, b.advance len.toNat) := by
  have bound := UInt64.toNat_lt b.dataEnd
  rw [UInt64.le_iff_toNat_le] at inside
  have fits := room
  rw [length_unread] at fits
  have sum : (b.readLoc + len).toNat = b.readLoc.toNat + len.toNat := by
    rw [UInt64.toNat_add]
    omega
  have notPast : ¬ b.readLoc + len > b.dataEnd := by
    rw [gt_iff_lt, UInt64.lt_iff_toNat_lt]
    omega
  change sBufCopy b len.toInt64 = _
  simp only [sBufCopy, UInt64.toUInt64_toInt64, if_neg notPast, memcpy,
    if_pos (show b.readLoc.toNat + len.toNat < 2 ^ 64 by omega), unread, take_slice _ _ fits,
    advance, UInt64.ofNat_toNat]
  rfl

end SBuf

end Esnacc
