import Esnacc.Buf.ExpBufReads

/-! Writing a chain of blocks backwards, block by block. -/

namespace Esnacc

open Lib

/-- A write, which goes in front of everything written before it. -/
inductive WriteCall where
  | byte (octet : UInt8)
  | seg (octets : List UInt8)

/-- The octets a write puts in front of the data. -/
def WriteCall.octets : WriteCall → List UInt8
  | byte octet => [octet]
  | seg octets => octets

/-- One write through a handle. -/
def writeCall (size : UInt64) (malloc : Malloc) (b : ExpBufRef) : WriteCall → Option ExpBufRef
  | .byte octet => some (expBufPutByteRvs size malloc b octet)
  | .seg octets => expBufPutSegRvs size malloc b octets

/-- A sequence of writes through one handle. -/
def writeAll (size : UInt64) (malloc : Malloc) : ExpBufRef → List WriteCall → Option ExpBufRef
  | b, [] => some b
  | b, call :: calls => do
    let b ← writeCall size malloc b call
    writeAll size malloc b calls

/-- What a sequence of writes puts down: the last write comes first. -/
def written : List WriteCall → List UInt8
  | [] => []
  | call :: calls => written calls ++ call.octets

/-! ## A block that is being filled -/

/-- A block filled from its end: the octets stand there, and the rest is as it was allocated. -/
structure ExpBuf.Holds (b : ExpBuf) (area : Ptr) (size : Nat) (octets : List UInt8) : Prop where
  block : b.blkStart = area.addr
  addressable : b.blkStart.toNat + size < 2 ^ 64
  stop : b.dataEnd.toNat = b.blkStart.toNat + size
  start : b.dataStart.toNat + octets.length = b.dataEnd.toNat
  within : octets.length ≤ size
  data : slice b.mem b.dataStart octets.length = octets
  untouched : ∀ i, i + octets.length < size →
    b.mem (b.blkStart + UInt64.ofNat i) = area.mem (area.addr + UInt64.ofNat i)
  writable : b.writeError = false

namespace ExpBuf.Holds

variable {b : ExpBuf} {area : Ptr} {size : Nat} {octets : List UInt8}

theorem toNat_room (holds : b.Holds area size octets) :
    (b.dataStart - b.blkStart).toNat = size - octets.length := by
  have start := holds.start
  have stop := holds.stop
  have within := holds.within
  rw [UInt64.toNat_sub_of_le _ _ (by rw [UInt64.le_iff_toNat_le]; omega)]
  omega

theorem full_iff (holds : b.Holds area size octets) :
    expBufFull b = true ↔ octets.length = size := by
  have start := holds.start
  have stop := holds.stop
  have within := holds.within
  rw [expBufFull, beq_iff_eq, ← UInt64.toNat_inj]
  omega

end ExpBuf.Holds

theorem holds_alloc {size : UInt64} {area : Ptr}
    (addressable : area.addr.toNat + size.toNat < 2 ^ 64) :
    (expBufAllocBufAndData size area).Holds area size.toNat [] := by
  have sum : (area.addr + size).toNat = area.addr.toNat + size.toNat := by
    rw [UInt64.toNat_add]
    omega
  exact ⟨rfl, addressable, sum, rfl, Nat.zero_le _, rfl, fun _ _ => rfl, rfl⟩

/-- Storing octets in front of a block's data extends what it holds. -/
theorem holds_prepend {b : ExpBufRef} {area : Ptr} {size : Nat} {old octets : List UInt8}
    (holds : b.buf.Holds area size old) (fits : octets.length + old.length ≤ size) :
    (b.prepend octets).buf.Holds area size (octets ++ old) := by
  obtain ⟨block, addressable, stop, start, within, data, untouched, writable⟩ := holds
  have small : (UInt64.ofNat octets.length).toNat = octets.length := by
    rw [UInt64.toNat_ofNat', Nat.mod_eq_of_lt (by omega)]
  have moved : (b.buf.dataStart - UInt64.ofNat octets.length).toNat =
      b.buf.dataStart.toNat - octets.length := by
    rw [UInt64.toNat_sub_of_le _ _ (by rw [UInt64.le_iff_toNat_le]; omega), small]
  have back : b.buf.dataStart - UInt64.ofNat octets.length + UInt64.ofNat octets.length =
      b.buf.dataStart := UInt64.sub_add_cancel ..
  refine ⟨block, addressable, stop, ?_, ?_, ?_, ?_, writable⟩
  · simp only [ExpBufRef.prepend, moved, List.length_append]
    omega
  · rw [List.length_append]
    omega
  · -- The new octets come first and the old ones follow where they were.
    have kept := slice_store_after b.buf.mem (b.buf.dataStart - UInt64.ofNat octets.length) octets
      (n := old.length) (by omega)
    rw [back, data] at kept
    simp only [ExpBufRef.prepend, List.length_append]
    rw [slice_add, slice_store _ _ (by omega), back, kept]
  · intro i below
    rw [List.length_append] at below
    -- The distance from the new start to an address in front of it wraps past every new octet.
    have here : (b.buf.blkStart + UInt64.ofNat i).toNat = b.buf.blkStart.toNat + i := by
      rw [UInt64.toNat_add, UInt64.toNat_ofNat', Nat.mod_eq_of_lt (by omega : i < 2 ^ 64)]
      omega
    have far : octets.length ≤ (b.buf.blkStart + UInt64.ofNat i -
        (b.buf.dataStart - UInt64.ofNat octets.length)).toNat := by
      rw [UInt64.toNat_sub, here, moved]
      omega
    simp only [ExpBufRef.prepend, store, List.getElem?_eq_none far, Option.getD_none]
    exact untouched i (by omega)

/-! ## One write -/

@[simp] theorem fill_prev (b : ExpBufRef) (octets : List UInt8) :
    (b.fill octets).prev = b.prev := rfl

@[simp] theorem fill_next (b : ExpBufRef) (octets : List UInt8) :
    (b.fill octets).next = b.next := rfl

/-- Every allocation succeeds, and the end of what it returns has an address. -/
def Allocates (malloc : Malloc) (size : UInt64) : Prop :=
  ∀ n, ∃ area, malloc n = some area ∧ area.addr.toNat + size.toNat < 2 ^ 64

theorem prevOrNewBuf_head {size : UInt64} {malloc : Malloc} {b : ExpBufRef}
    (allocates : Allocates malloc size) (head : b.prev = []) :
    ∃ area, prevOrNewBuf size malloc b =
        some ⟨[], expBufAllocBufAndData size area, b.buf :: b.next⟩ ∧
      (expBufAllocBufAndData size area).Holds area size.toNat [] := by
  obtain ⟨area, allocated, addressable⟩ := allocates (b.next.length + 1)
  refine ⟨area, ?_, holds_alloc addressable⟩
  simp only [prevOrNewBuf, head, allocated]
  rfl

section PutSeg

variable {size : UInt64} {malloc : Malloc} {b : ExpBufRef} {area : Ptr}
  {old octets : List UInt8} {fuel : Nat}

theorem room_gt_iff (holds : b.buf.Holds area size.toNat old) (short : octets.length < 2 ^ 31) :
    intOf (b.buf.dataStart - b.buf.blkStart) > intOf (UInt64.ofNat octets.length) ↔
      (octets.length : Int) < ((size.toNat - old.length : Nat) : Int).bmod (2 ^ 32) := by
  have small : (UInt64.ofNat octets.length).toNat = octets.length := by
    rw [UInt64.toNat_ofNat', Nat.mod_eq_of_lt (by omega)]
  rw [gt_iff_lt, Int32.lt_iff_toInt_lt, toInt_intOf_of_lt (by omega), small, toInt_intOf,
    holds.toNat_room]

theorem putSegLoop_fits (holds : b.buf.Holds area size.toNat old) (short : octets.length < 2 ^ 31)
    (fits : (octets.length : Int) < ((size.toNat - old.length : Nat) : Int).bmod (2 ^ 32)) :
    expBufPutSegRvsLoop size malloc (fuel + 1) b octets = some (b.prepend octets) := by
  simp only [expBufPutSegRvsLoop, if_pos ((room_gt_iff holds short).mpr fits)]

theorem putSegLoop_negative (holds : b.buf.Holds area size.toNat old)
    (short : octets.length < 2 ^ 31)
    (negative : ((size.toNat - old.length : Nat) : Int).bmod (2 ^ 32) < 0) :
    expBufPutSegRvsLoop size malloc (fuel + 1) b octets = none := by
  have exceeds : ¬ intOf (b.buf.dataStart - b.buf.blkStart) > intOf (UInt64.ofNat octets.length) := by
    rw [room_gt_iff holds short]
    omega
  have below : intOf (b.buf.dataStart - b.buf.blkStart) < 0 := by
    rw [Int32.lt_iff_toInt_lt, toInt_intOf, holds.toNat_room]
    exact negative
  simp only [expBufPutSegRvsLoop, if_neg exceeds, if_pos below]

/-- A segment that needs all the room read off the block fills it and goes on in a new block. -/
theorem putSegLoop_fill {room : Nat} (allocates : Allocates malloc size) (head : b.prev = [])
    (holds : b.buf.Holds area size.toNat old) (short : octets.length < 2 ^ 31)
    (reads : ((size.toNat - old.length : Nat) : Int).bmod (2 ^ 32) = room)
    (exceeds : room ≤ octets.length) :
    ∃ area', (expBufAllocBufAndData size area').Holds area' size.toNat [] ∧
      expBufPutSegRvsLoop size malloc (fuel + 1) b octets =
        expBufPutSegRvsLoop size malloc fuel
          ⟨[], expBufAllocBufAndData size area',
            (b.fill (octets.drop (octets.length - room))).buf :: b.next⟩
          (octets.take (octets.length - room)) := by
  have notFits : ¬ intOf (b.buf.dataStart - b.buf.blkStart) >
      intOf (UInt64.ofNat octets.length) := by
    rw [room_gt_iff holds short, reads]
    omega
  have bytesLeft : (intOf (b.buf.dataStart - b.buf.blkStart)).toInt = room := by
    rw [toInt_intOf, holds.toNat_room, reads]
  have notBelow : ¬ intOf (b.buf.dataStart - b.buf.blkStart) < 0 := by
    rw [Int32.lt_iff_toInt_lt, bytesLeft, Int32.toInt_zero]
    omega
  have count : (ulongOf (intOf (b.buf.dataStart - b.buf.blkStart))).toNat = room := by
    have wide := toNat_ulongOf_of_nonneg (i := intOf (b.buf.dataStart - b.buf.blkStart)) (by omega)
    omega
  obtain ⟨area', moved, fresh⟩ := prevOrNewBuf_head allocates
    ((fill_prev b (octets.drop (octets.length - room))).trans head)
  refine ⟨area', fresh, ?_⟩
  simp only [expBufPutSegRvsLoop, if_neg notFits, if_neg notBelow, count, moved, fill_next]

/-- Filling a block exactly is writing in front of its data. -/
theorem fill_eq_prepend (holds : b.buf.Holds area size.toNat old)
    (exactly : octets.length = size.toNat - old.length) : b.fill octets = b.prepend octets := by
  have start := holds.start
  have stop := holds.stop
  have bound := holds.addressable
  have within := holds.within
  have same : b.buf.dataStart - UInt64.ofNat octets.length = b.buf.blkStart := by
    rw [← UInt64.toNat_inj, UInt64.toNat_sub_of_le, UInt64.toNat_ofNat']
    · rw [Nat.mod_eq_of_lt (by omega)]
      omega
    · rw [UInt64.le_iff_toNat_le, UInt64.toNat_ofNat', Nat.mod_eq_of_lt (by omega)]
      omega
  rw [ExpBufRef.fill, ExpBufRef.prepend, same]

/-- Blocks whose size reads as no room at all are allocated without end. -/
theorem putSegLoop_noRoom (allocates : Allocates malloc size) (head : b.prev = [])
    (holds : b.buf.Holds area size.toNat [])
    (noRoom : (size.toNat : Int).bmod (2 ^ 32) ≤ 0) :
    expBufPutSegRvsLoop size malloc fuel b [] = none := by
  -- Each turn ends in a fault or hands over to a new block, which has no room either.
  induction fuel generalizing b area with
  | zero => rfl
  | succ fuel ih =>
    by_cases negative : (size.toNat : Int).bmod (2 ^ 32) < 0
    · exact putSegLoop_negative holds (by simp) (by simpa using negative)
    · have none : ((size.toNat - ([] : List UInt8).length : Nat) : Int).bmod (2 ^ 32) =
          (0 : Nat) := by
        rw [List.length_nil, Nat.sub_zero]
        omega
      have short : ([] : List UInt8).length < 2 ^ 31 := by simp
      obtain ⟨area', fresh, turned⟩ :=
        putSegLoop_fill allocates head holds short none (Nat.le_refl _)
      rw [turned, List.take_nil]
      exact ih rfl fresh

end PutSeg

end Esnacc
