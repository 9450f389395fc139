import Esnacc.Buf.ExpBufWrites

/-! Writing through a handle, putting the chain in read mode and reading it to its end. -/

namespace Esnacc

open Lib

/-- Reading single octets until the read error is set delivers these octets. -/
inductive Drains : ExpBufRef → List UInt8 → Prop
  | done {b b' : ExpBufRef} {x : UInt8} (read : expBufGetByte b = (x, b'))
      (failed : expBufReadError b' = true) : Drains b []
  | more {b b' : ExpBufRef} {x : UInt8} {rest : List UInt8} (read : expBufGetByte b = (x, b'))
      (succeeded : expBufReadError b' = false) (later : Drains b' rest) : Drains b (x :: rest)

/-- A chain delivers one string of octets only. -/
theorem Drains.unique {b : ExpBufRef} {octets octets' : List UInt8} (drains : Drains b octets)
    (drains' : Drains b octets') : octets = octets' := by
  induction drains generalizing octets' with
  | done read failed =>
    cases drains' with
    | done => rfl
    | more read' succeeded _ =>
      rw [read, Prod.mk.injEq] at read'
      rw [← read'.2, failed] at succeeded
      contradiction
  | more read succeeded _ ih =>
    cases drains' with
    | done read' failed =>
      rw [read, Prod.mk.injEq] at read'
      rw [← read'.2, succeeded] at failed
      contradiction
    | more read' _ later' =>
      rw [read, Prod.mk.injEq] at read'
      obtain ⟨rfl, rfl⟩ := read'
      rw [ih later']

theorem expBufGetByte_last {b : ExpBufRef} (last : b.next = []) :
    (expBufGetByte b).2.next = [] := by
  obtain ⟨prev, buf, next⟩ := b
  subst last
  by_cases eod : expBufAtEod buf = true <;>
    simp [expBufGetByte, getByteBlock_last, eod, ExpBufRef.setReadError, ExpBufRef.advance]

/-- A chain standing on its last block drains to what that block still has. -/
theorem drains_last {b : ExpBufRef} (readable : b.Readable) (last : b.next = [])
    (noError : b.buf.readError = false) : Drains b b.unread := by
  have stays : b.NextHolds := by
    refine Or.inr (Or.inr fun n rest linked => ?_)
    rw [last] at linked
    contradiction
  generalize held : b.unread = octets
  induction octets generalizing b with
  | nil =>
    obtain ⟨b', read, -, -, failed⟩ := expBufGetByte_nil readable stays (by simp [noError]) held
    exact Drains.done read failed
  | cons x rest ih =>
    obtain ⟨b', read, readable', after, succeeded⟩ :=
      expBufGetByte_cons readable stays (by simp [noError]) held
    have last' := expBufGetByte_last last
    rw [read] at last'
    refine Drains.more read succeeded (ih readable' last' succeeded ?_ after)
    refine Or.inr (Or.inr fun n rest linked => ?_)
    rw [last'] at linked
    contradiction

/-- The last block of a chain. -/
def ExpBufRef.lastBuf (b : ExpBufRef) : ExpBuf :=
  b.next.getLast?.getD b.buf

theorem resetInReadModeFrom_last (prev : List ExpBuf) (p : ExpBuf) (next : List ExpBuf) :
    (expBufResetInReadModeFrom prev p next).buf = expBufResetBlk (next.getLast?.getD p) ∧
      (expBufResetInReadModeFrom prev p next).next = [] := by
  induction next generalizing prev p with
  | nil => exact ⟨rfl, rfl⟩
  | cons n rest ih =>
    rw [expBufResetInReadModeFrom, List.getLast?_cons]
    exact ih (expBufResetBlk p :: prev) n

/-- After the read mode reset a chain drains to the data of its last block and to nothing else. -/
theorem drains_resetInReadMode_iff {b : ExpBufRef} {octets : List UInt8}
    (ordered : b.lastBuf.dataStart ≤ b.lastBuf.dataEnd) :
    Drains (expBufResetInReadMode b) octets ↔
      octets = slice b.lastBuf.mem b.lastBuf.dataStart
        (b.lastBuf.dataEnd.toNat - b.lastBuf.dataStart.toNat) := by
  have reset : (expBufResetInReadMode b).buf = expBufResetBlk b.lastBuf ∧
      (expBufResetInReadMode b).next = [] := resetInReadModeFrom_last b.prev b.buf b.next
  have held : (expBufResetInReadMode b).unread = slice b.lastBuf.mem b.lastBuf.dataStart
      (b.lastBuf.dataEnd.toNat - b.lastBuf.dataStart.toNat) := by
    rw [ExpBufRef.unread, reset.1, reset.2, List.flatMap_nil, List.append_nil]
    rfl
  have readable : (expBufResetInReadMode b).Readable := by
    refine ⟨?_, by simp [reset.2]⟩
    rw [reset.1]
    exact ⟨UInt64.le_refl _, ordered⟩
  have drains := drains_last readable reset.2 (by rw [reset.1]; rfl)
  rw [← held]
  exact ⟨fun other => other.unique drains, fun same => same ▸ drains⟩

/-! ## Writing while one block is enough -/

/--
A chain in which only the last block holds data.

A new head block is there only after a segment filled the last block exactly.
-/
structure Growing (b : ExpBufRef) (area : Ptr) (size : Nat) (old : List UInt8) : Prop where
  head : b.prev = []
  filled : (b.next = [] ∧ b.buf.Holds area size old) ∨
    ∃ area' last, b.next = [last] ∧ b.buf.Holds area' size [] ∧ last.Holds area size old ∧
      old.length = size

/-- A segment of `n` octets fits a block with this room, as the writer's `int` reads the sizes. -/
def SegWritable (size room n : Nat) : Prop :=
  (n : Int) < (room : Int).bmod (2 ^ 32) ∨
    (n = room ∧ room < 2 ^ 31 ∧ 0 < (size : Int).bmod (2 ^ 32))

/-- A write fits the block that already holds `sofar` octets. -/
def CallFits (size sofar : Nat) : WriteCall → Prop
  | .byte _ => sofar < size
  | .seg octets => SegWritable size (size - sofar) octets.length

/-- Every write of a sequence fits the block that already holds `sofar` octets. -/
def WritesFit (size : Nat) : Nat → List WriteCall → Prop
  | _, [] => True
  | sofar, call :: calls =>
    CallFits size sofar call ∧ WritesFit size (sofar + call.octets.length) calls

section

variable {size : UInt64} {malloc : Malloc} {b : ExpBufRef} {area : Ptr} {old : List UInt8}

/-- A single octet that fits goes in front of the data. -/
theorem putByte_growing (growing : Growing b area size.toNat old) (fits : old.length < size.toNat)
    (octet : UInt8) :
    Growing (expBufPutByteRvs size malloc b octet) area size.toNat (octet :: old) := by
  obtain ⟨head, ⟨alone, holds⟩ | ⟨_, _, _, _, _, full⟩⟩ := growing
  · have room : ¬ expBufFull b.buf = true := by
      rw [holds.full_iff]
      omega
    have notShut : ¬ b.buf.writeError = true := by simp [holds.writable]
    have enough : [octet].length + old.length ≤ size.toNat := by
      rw [List.length_singleton]
      omega
    have grown := holds_prepend holds enough
    rw [expBufPutByteRvs, if_neg notShut, if_neg room]
    exact ⟨head, Or.inl ⟨alone, grown⟩⟩
  · omega

/-- A segment that fits goes in front of the data, at most opening an empty block behind it. -/
theorem putSeg_growing (allocates : Allocates malloc size) {octets : List UInt8}
    (short : octets.length < 2 ^ 31) (growing : Growing b area size.toNat old)
    (fits : SegWritable size.toNat (size.toNat - old.length) octets.length) :
    ∃ b', expBufPutSegRvs size malloc b octets = some b' ∧
      Growing b' area size.toNat (octets ++ old) := by
  obtain ⟨head, ⟨alone, holds⟩ | ⟨area', last, linked, empty, holds, full⟩⟩ := growing
  · have notShut : ¬ b.buf.writeError = true := by simp [holds.writable]
    rw [expBufPutSegRvs, if_neg notShut]
    rcases fits with below | ⟨exactly, small, roomy⟩
    · -- The block keeps room, so the first turn ends the loop.
      have within := holds.within
      have enough : octets.length + old.length ≤ size.toNat := by
        have atMost : ((size.toNat - old.length : Nat) : Int).bmod (2 ^ 32) ≤
            (size.toNat - old.length : Nat) := by
          rw [Int.bmod_def]
          split <;> omega
        omega
      exact ⟨_, putSegLoop_fits holds short below, head,
        Or.inl ⟨alone, holds_prepend holds enough⟩⟩
    · -- The block is filled exactly, and the second turn writes nothing into a new one.
      have reads : ((size.toNat - old.length : Nat) : Int).bmod (2 ^ 32) =
          (octets.length : Nat) := by
        rw [exactly]
        exact Int.bmod_eq_of_le (by omega) (by omega)
      obtain ⟨area', fresh, turned⟩ := @putSegLoop_fill size malloc b area old octets
        (octets.length + b.prev.length + 1) _ allocates head holds short reads (Nat.le_refl _)
      rw [Nat.sub_self, List.drop_zero, List.take_zero, fill_eq_prepend holds exactly] at turned
      have none : ([] : List UInt8).length < 2 ^ 31 := by simp
      have closed := holds_prepend (b := b) holds (show octets.length + old.length ≤ size.toNat by
        have := holds.within
        omega)
      refine ⟨_, turned.trans (putSegLoop_fits fresh none (by simpa using roomy)), rfl,
        Or.inr ⟨area', (b.prepend octets).buf, ?_, holds_prepend fresh (by simp), closed, ?_⟩⟩
      · simp [ExpBufRef.prepend, alone]
      · have := holds.within
        rw [List.length_append]
        omega
  · -- Only an empty segment still fits, and it goes into the empty head block.
    obtain ⟨nothing, roomy⟩ : octets = [] ∧ 0 < (size.toNat : Int).bmod (2 ^ 32) := by
      rw [full, Nat.sub_self] at fits
      rcases fits with below | ⟨exactly, -, roomy⟩
      · have none : ((0 : Nat) : Int).bmod (2 ^ 32) = 0 := by decide
        omega
      · exact ⟨List.length_eq_zero_iff.mp exactly, roomy⟩
    subst nothing
    have notShut : ¬ b.buf.writeError = true := by simp [empty.writable]
    rw [expBufPutSegRvs, if_neg notShut]
    refine ⟨_, putSegLoop_fits empty short (by simpa using roomy), head,
      Or.inr ⟨area', last, linked, holds_prepend empty (by simp), holds, full⟩⟩

theorem writeCall_growing (allocates : Allocates malloc size) {call : WriteCall}
    (short : call.octets.length < 2 ^ 31) (growing : Growing b area size.toNat old)
    (fits : CallFits size.toNat old.length call) :
    ∃ b', writeCall size malloc b call = some b' ∧
      Growing b' area size.toNat (call.octets ++ old) := by
  cases call with
  | byte octet => exact ⟨_, rfl, putByte_growing growing fits octet⟩
  | seg octets => exact putSeg_growing allocates short growing fits

/-- Writes that all fit put down exactly what was written, in the last block. -/
theorem writeAll_growing (allocates : Allocates malloc size) {calls : List WriteCall}
    (short : ∀ call ∈ calls, call.octets.length < 2 ^ 31)
    (growing : Growing b area size.toNat old) (fits : WritesFit size.toNat old.length calls) :
    ∃ b', writeAll size malloc b calls = some b' ∧
      Growing b' area size.toNat (written calls ++ old) := by
  induction calls generalizing b old with
  | nil => exact ⟨b, rfl, growing⟩
  | cons call calls ih =>
    obtain ⟨here, later⟩ := fits
    obtain ⟨mid, put, grownMid⟩ :=
      writeCall_growing allocates (short call List.mem_cons_self) growing here
    have later' : WritesFit size.toNat (call.octets ++ old).length calls := by
      rwa [List.length_append, Nat.add_comm]
    obtain ⟨b', wrote, grown⟩ :=
      ih (fun other listed => short other (List.mem_cons_of_mem _ listed)) grownMid later'
    refine ⟨b', ?_, ?_⟩
    · simpa only [writeAll, put, Option.bind_eq_bind, Option.bind_some] using wrote
    · simpa [written] using grown

/-! ## Writing more than one block takes -/

theorem prevOrNewBuf_next {b b' : ExpBufRef} (head : b.prev = [])
    (moved : prevOrNewBuf size malloc b = some b') :
    b'.prev = [] ∧ b'.next = b.buf :: b.next := by
  simp only [prevOrNewBuf, head] at moved
  cases allocated : malloc (b.next.length + 1) with
  | none => simp [allocated] at moved
  | some area =>
    rw [allocated] at moved
    cases moved
    exact ⟨rfl, rfl⟩

theorem putSegLoop_next {fuel : Nat} {b b' : ExpBufRef} {octets : List UInt8} (head : b.prev = [])
    (put : expBufPutSegRvsLoop size malloc fuel b octets = some b') :
    b'.prev = [] ∧ ∃ pre, b'.next = pre ++ b.next := by
  -- Every turn either ends at the block it is in or opens one new block in front of it.
  induction fuel generalizing b octets with
  | zero => simp [expBufPutSegRvsLoop] at put
  | succ fuel ih =>
    simp only [expBufPutSegRvsLoop] at put
    split at put
    · cases put
      exact ⟨head, [], rfl⟩
    · split at put
      · contradiction
      · split at put
        · cases put
          exact ⟨head, [], rfl⟩
        · rename_i mid moved
          obtain ⟨headMid, nextMid⟩ := prevOrNewBuf_next (by simpa using head) moved
          obtain ⟨head', pre, next'⟩ := ih headMid put
          rw [fill_next] at nextMid
          generalize (b.fill _).buf = filled at nextMid
          exact ⟨head', pre ++ [filled], by simp [next', nextMid]⟩

theorem writeCall_next {b b' : ExpBufRef} {call : WriteCall} (head : b.prev = [])
    (wrote : writeCall size malloc b call = some b') :
    b'.prev = [] ∧ ∃ pre, b'.next = pre ++ b.next := by
  cases call with
  | byte octet =>
    simp only [writeCall, expBufPutByteRvs, Option.some.injEq] at wrote
    split at wrote
    · exact wrote ▸ ⟨head, [], rfl⟩
    · split at wrote
      · split at wrote
        · exact wrote ▸ ⟨head, [], rfl⟩
        · rename_i mid moved
          obtain ⟨headMid, nextMid⟩ := prevOrNewBuf_next head moved
          exact wrote ▸ ⟨headMid, [_], nextMid⟩
      · exact wrote ▸ ⟨head, [], rfl⟩
  | seg octets =>
    simp only [writeCall, expBufPutSegRvs] at wrote
    split at wrote
    · cases wrote
      exact ⟨head, [], rfl⟩
    · exact putSegLoop_next head wrote

/-- Once a chain has a block behind its head, its last block stays as it is. -/
theorem writeAll_lastBuf {b b' : ExpBufRef} {calls : List WriteCall} {pre : List ExpBuf}
    {last : ExpBuf} (head : b.prev = []) (linked : b.next = pre ++ [last])
    (wrote : writeAll size malloc b calls = some b') : b'.lastBuf = last := by
  induction calls generalizing b pre with
  | nil =>
    cases wrote
    simp [ExpBufRef.lastBuf, linked]
  | cons call calls ih =>
    simp only [writeAll, Option.bind_eq_bind] at wrote
    obtain ⟨mid, put, rest⟩ := Option.bind_eq_some_iff.mp wrote
    obtain ⟨headMid, front, nextMid⟩ := writeCall_next head put
    have linkedMid : mid.next = (front ++ pre) ++ [last] := by
      rw [nextMid, linked, List.append_assoc]
    exact ih headMid linkedMid rest

/-- A last block all of which counts as data, closed off by a write that did not fit. -/
structure Closed (area : Ptr) (size total : Nat) (at_ : Nat) (last : ExpBuf) : Prop where
  ordered : last.dataStart ≤ last.dataEnd
  whole : last.dataEnd.toNat - last.dataStart.toNat = size
  spoiled : size < total ∨ at_ < size ∧
    last.mem (last.dataStart + UInt64.ofNat at_) = area.mem (area.addr + UInt64.ofNat at_)

/-- A segment that needs more room than there is, or reads the room wrongly, closes the block. -/
theorem putSeg_closes (allocates : Allocates malloc size) {b' : ExpBufRef} {octets : List UInt8}
    (short : octets.length < 2 ^ 31) (growing : Growing b area size.toNat old)
    (bad : ¬ SegWritable size.toNat (size.toNat - old.length) octets.length)
    (put : expBufPutSegRvs size malloc b octets = some b') :
    ∃ pre last, b'.prev = [] ∧ b'.next = pre ++ [last] ∧
      Closed area size.toNat (octets.length + old.length)
        (((size.toNat - old.length : Nat) : Int).bmod (2 ^ 32)).toNat last := by
  obtain ⟨head, ⟨alone, holds⟩ | ⟨area', last, linked, empty, holds, full⟩⟩ := growing
  · have notShut : ¬ b.buf.writeError = true := by simp [holds.writable]
    rw [expBufPutSegRvs, if_neg notShut] at put
    have passed : ¬ (octets.length : Int) <
        ((size.toNat - old.length : Nat) : Int).bmod (2 ^ 32) := fun below => bad (Or.inl below)
    by_cases negative : ((size.toNat - old.length : Nat) : Int).bmod (2 ^ 32) < 0
    · rw [putSegLoop_negative holds short negative] at put
      contradiction
    obtain ⟨room, reads⟩ : ∃ room : Nat,
        ((size.toNat - old.length : Nat) : Int).bmod (2 ^ 32) = room :=
      Int.eq_ofNat_of_zero_le (by omega)
    rw [reads] at passed
    obtain ⟨area', fresh, turned⟩ := @putSegLoop_fill size malloc b area old octets
      (octets.length + b.prev.length + 1) _ allocates head holds short reads (by omega)
    rw [turned] at put
    obtain ⟨head', pre, next'⟩ := putSegLoop_next rfl put
    refine ⟨pre, (b.fill (octets.drop (octets.length - room))).buf, head', ?_, ?_⟩
    · rw [next', alone]
    have start := holds.start
    have stop := holds.stop
    have bound := holds.addressable
    have within := holds.within
    have stored : (octets.drop (octets.length - room)).length = room := by
      rw [List.length_drop]
      omega
    refine ⟨?_, ?_, ?_⟩
    · simp only [ExpBufRef.fill, UInt64.le_iff_toNat_le]
      omega
    · simp only [ExpBufRef.fill]
      omega
    · rw [reads, Int.toNat_natCast]
      by_cases more : size.toNat < octets.length + old.length
      · exact Or.inl more
      -- The segment would have fitted, so the room must have been read wrongly.
      have wrapped : 2 ^ 31 ≤ size.toNat - old.length := by
        by_contra small
        have same : ((size.toNat - old.length : Nat) : Int).bmod (2 ^ 32) =
            (size.toNat - old.length : Nat) := Int.bmod_eq_of_le (by omega) (by omega)
        have noRoom : (size.toNat : Int).bmod (2 ^ 32) ≤ 0 :=
          Int.not_lt.mp fun roomy => bad (Or.inr ⟨by omega, by omega, roomy⟩)
        rw [show octets.length - room = 0 by omega, List.take_zero,
          putSegLoop_noRoom allocates rfl fresh noRoom] at put
        simp at put
      have below : ((size.toNat - old.length : Nat) : Int).bmod (2 ^ 32) < 2 ^ 31 := by
        rw [Int.bmod_def]
        split <;> omega
      refine Or.inr ⟨by omega, ?_⟩
      have past : (octets.drop (octets.length - room))[(b.buf.blkStart + UInt64.ofNat room -
          b.buf.blkStart).toNat]? = none := by
        rw [toNat_add_ofNat_sub (by omega), List.getElem?_eq_none (by omega)]
      simp only [ExpBufRef.fill, store, past, Option.getD_none]
      exact holds.untouched room (by omega)
  · have notShut : ¬ b.buf.writeError = true := by simp [empty.writable]
    rw [expBufPutSegRvs, if_neg notShut] at put
    obtain ⟨head', pre, next'⟩ := putSegLoop_next head put
    have start := holds.start
    have stop := holds.stop
    refine ⟨pre, last, head', by rw [next', linked], ?_, by omega, Or.inl ?_⟩
    · rw [UInt64.le_iff_toNat_le]
      omega
    · -- An empty segment would have found no room in the empty head block.
      by_contra none
      have nothing : octets = [] := List.length_eq_zero_iff.mp (by omega)
      have noRoom : (size.toNat : Int).bmod (2 ^ 32) ≤ 0 :=
        Int.not_lt.mp fun roomy => bad (Or.inr ⟨by omega, by omega, roomy⟩)
      rw [nothing, putSegLoop_noRoom allocates head empty noRoom] at put
      contradiction

/-- A write that does not fit closes the last block before all of the data is in it. -/
theorem writeCall_closes (allocates : Allocates malloc size) (atLeastOne : 1 ≤ size.toNat)
    {b' : ExpBufRef} {call : WriteCall} (short : call.octets.length < 2 ^ 31)
    (growing : Growing b area size.toNat old) (bad : ¬ CallFits size.toNat old.length call)
    (wrote : writeCall size malloc b call = some b') :
    ∃ pre last, b'.prev = [] ∧ b'.next = pre ++ [last] ∧
      Closed area size.toNat (call.octets.length + old.length)
        (((size.toNat - old.length : Nat) : Int).bmod (2 ^ 32)).toNat last := by
  cases call with
  | seg octets => exact putSeg_closes allocates short growing bad wrote
  | byte octet =>
    have more : size.toNat < [octet].length + old.length := by
      rw [List.length_singleton]
      simp only [CallFits] at bad
      omega
    obtain ⟨head, ⟨alone, holds⟩ | ⟨area', last, linked, empty, holds, full⟩⟩ := growing
    · -- The full block is left behind a new head block.
      have within := holds.within
      simp only [CallFits] at bad
      have isFull : expBufFull b.buf = true := by
        rw [holds.full_iff]
        omega
      obtain ⟨area', moved, -⟩ := prevOrNewBuf_head allocates head
      have notShut : ¬ b.buf.writeError = true := by simp [holds.writable]
      simp only [writeCall, expBufPutByteRvs, if_neg notShut, if_pos isFull, moved,
        Option.some.injEq] at wrote
      have start := holds.start
      have stop := holds.stop
      subst wrote
      refine ⟨[], b.buf, rfl, by simp [ExpBufRef.prepend, alone], ?_, by omega, Or.inl more⟩
      rw [UInt64.le_iff_toNat_le]
      omega
    · obtain ⟨head', pre, next'⟩ := writeCall_next head wrote
      have start := holds.start
      have stop := holds.stop
      refine ⟨pre, last, head', by rw [next', linked], ?_, by omega, Or.inl more⟩
      rw [UInt64.le_iff_toNat_le]
      omega

end

/-! ## The round trip -/

/-- A buffer with a new, empty block. -/
def freshBuf (size : UInt64) (area : Ptr) : ExpBufRef :=
  ⟨[], expBufAllocBufAndData size area, []⟩

/-- Written data is read back in full after the read mode reset of the same handle. -/
def RoundTrips (size : UInt64) (malloc : Malloc) (area : Ptr) (calls : List WriteCall) : Prop :=
  ∃ b, writeAll size malloc (freshBuf size area) calls = some b ∧
    Drains (expBufResetInReadMode b) (written calls)

theorem growing_freshBuf {size : UInt64} {area : Ptr}
    (addressable : area.addr.toNat + size.toNat < 2 ^ 64) :
    Growing (freshBuf size area) area size.toNat [] :=
  ⟨rfl, Or.inl ⟨rfl, holds_alloc addressable⟩⟩

theorem drains_of_growing {b : ExpBufRef} {area : Ptr} {size : Nat} {octets : List UInt8}
    (growing : Growing b area size octets) : Drains (expBufResetInReadMode b) octets := by
  obtain ⟨last, here, holds⟩ : ∃ last, b.lastBuf = last ∧ last.Holds area size octets := by
    obtain ⟨-, ⟨alone, holds⟩ | ⟨area', last, linked, -, holds, -⟩⟩ := growing
    · exact ⟨b.buf, by simp [ExpBufRef.lastBuf, alone], holds⟩
    · exact ⟨last, by simp [ExpBufRef.lastBuf, linked], holds⟩
  have start := holds.start
  rw [drains_resetInReadMode_iff, here, show last.dataEnd.toNat - last.dataStart.toNat =
    octets.length by omega, holds.data]
  rw [here, UInt64.le_iff_toNat_le]
  omega

/--
Writes that do not all fit leave a last block that cannot be what was written.

Which octet of it gives it away depends on the sizes only, not on what the allocations return.
-/
theorem writeAll_closes {size : UInt64} (atLeastOne : 1 ≤ size.toNat) {calls : List WriteCall}
    (short : ∀ call ∈ calls, call.octets.length < 2 ^ 31) {sofar : Nat}
    (bad : ¬ WritesFit size.toNat sofar calls) :
    ∃ at_, ∀ (malloc : Malloc) (area : Ptr) (b b' : ExpBufRef) (old : List UInt8),
      old.length = sofar → Allocates malloc size → Growing b area size.toNat old →
      writeAll size malloc b calls = some b' →
      Closed area size.toNat (written calls ++ old).length at_ b'.lastBuf := by
  induction calls generalizing sofar with
  | nil => exact absurd trivial bad
  | cons call calls ih =>
    have shortRest : ∀ other ∈ calls, other.octets.length < 2 ^ 31 :=
      fun other listed => short other (List.mem_cons_of_mem _ listed)
    by_cases here : CallFits size.toNat sofar call
    · -- This write fits, so a later one does not.
      have later : ¬ WritesFit size.toNat (sofar + call.octets.length) calls :=
        fun rest => bad ⟨here, rest⟩
      obtain ⟨at_, closes⟩ := ih shortRest later
      refine ⟨at_, fun malloc area b b' old length allocates growing wrote => ?_⟩
      obtain ⟨mid, put, grown⟩ := writeCall_growing allocates (short call List.mem_cons_self)
        growing (length ▸ here)
      simp only [writeAll, put, Option.bind_eq_bind, Option.bind_some] at wrote
      have closed := closes malloc area mid b' (call.octets ++ old)
        (by rw [List.length_append]; omega) allocates grown wrote
      simpa [written] using closed
    · refine ⟨(((size.toNat - sofar : Nat) : Int).bmod (2 ^ 32)).toNat,
        fun malloc area b b' old length allocates growing wrote => ?_⟩
      simp only [writeAll, Option.bind_eq_bind] at wrote
      obtain ⟨mid, put, rest⟩ := Option.bind_eq_some_iff.mp wrote
      obtain ⟨pre, last, head, linked, closed⟩ := writeCall_closes allocates atLeastOne
        (short call List.mem_cons_self) growing (length ▸ here) put
      rw [length] at closed
      rw [writeAll_lastBuf head linked rest]
      refine ⟨closed.ordered, closed.whole, closed.spoiled.imp (fun more => ?_) id⟩
      simp only [written, List.length_append]
      omega

theorem closed_octet {area : Ptr} {size at_ : Nat} {last : ExpBuf} {octets : List UInt8}
    (closed : Closed area size octets.length at_ last)
    (same : octets = slice last.mem last.dataStart (last.dataEnd.toNat - last.dataStart.toNat)) :
    octets[at_]? = some (area.mem (area.addr + UInt64.ofNat at_)) := by
  have length := congrArg List.length same
  rw [length_slice, closed.whole] at length
  rcases closed.spoiled with more | ⟨inside, kept⟩
  · omega
  · rw [same, getElem?_slice _ _ (by rw [closed.whole]; exact inside), kept]

/--
Whatever the allocations return, the written data is read back in full exactly when all of it fits
the first block, its room read as the writer's `int` reads it.
-/
theorem write_read_round_trip_iff (size : UInt64) (calls : List WriteCall)
    (atLeastOne : 1 ≤ size.toNat) (short : ∀ call ∈ calls, call.octets.length < 2 ^ 31) :
    (∀ malloc area, Allocates malloc size → area.addr.toNat + size.toNat < 2 ^ 64 →
      RoundTrips size malloc area calls) ↔ WritesFit size.toNat 0 calls := by
  constructor
  · intro trips
    by_contra bad
    obtain ⟨at_, closes⟩ := writeAll_closes atLeastOne short bad
    -- Two allocators whose areas differ everywhere make two copies of the same written data.
    have octet : ∀ x : UInt8, (written calls)[at_]? = some x := by
      intro x
      have bound := UInt64.toNat_lt size
      have addressable : (0 : UInt64).toNat + size.toNat < 2 ^ 64 := by
        rw [UInt64.toNat_zero]
        omega
      have allocates : Allocates (fun _ => some ⟨fun _ => x, 0⟩) size :=
        fun _ => ⟨_, rfl, addressable⟩
      obtain ⟨b, wrote, drains⟩ := trips _ ⟨fun _ => x, 0⟩ allocates addressable
      have closed := closes _ _ _ b [] rfl allocates (growing_freshBuf addressable) wrote
      rw [List.append_nil] at closed
      exact closed_octet closed ((drains_resetInReadMode_iff closed.ordered).mp drains)
    have zero := octet 0
    rw [octet 1] at zero
    simp at zero
  · intro fits malloc area allocates addressable
    obtain ⟨b, wrote, growing⟩ :=
      writeAll_growing allocates short (growing_freshBuf addressable) fits
    rw [List.append_nil] at growing
    exact ⟨b, wrote, drains_of_growing growing⟩

theorem write_read_round_trip_iff_one_block :
    WritesFit 4 0 [.byte 1, .seg [2, 3]] ∧
      ((∀ malloc area, Allocates malloc 4 → area.addr.toNat + (4 : UInt64).toNat < 2 ^ 64 →
        RoundTrips 4 malloc area [.byte 1, .seg [2, 3]]) ↔
        WritesFit (4 : UInt64).toNat 0 [.byte 1, .seg [2, 3]]) :=
  ⟨⟨by simp [CallFits], Or.inl (by decide), trivial⟩,
    write_read_round_trip_iff 4 [.byte 1, .seg [2, 3]] (by decide) (by decide)⟩

/-- Of two octets written to blocks of one octet each, only the first one written is read back. -/
theorem write_read_loses_head_block :
    ¬ ∀ (size : UInt64) (calls : List WriteCall), 1 ≤ size.toNat →
      (∀ call ∈ calls, call.octets.length < 2 ^ 31) →
      ∀ malloc area, Allocates malloc size → area.addr.toNat + size.toNat < 2 ^ 64 →
        RoundTrips size malloc area calls := by
  intro trips
  obtain ⟨b, wrote, drains⟩ := trips 1 [.byte 1, .byte 2] (by decide) (by decide)
    (fun n => some ⟨fun _ => 0, 4096 + 16 * UInt64.ofNat (n % 2)⟩) ⟨fun _ => 0, 4096⟩
    (fun n => ⟨_, rfl, by rcases Nat.mod_two_eq_zero_or_one n with h | h <;> rw [h] <;> decide⟩)
    (by decide)
  cases wrote
  rw [drains_resetInReadMode_iff (by decide)] at drains
  revert drains
  decide

end Esnacc
