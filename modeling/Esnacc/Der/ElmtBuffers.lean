import Esnacc.Buf.WriteRead
import Mathlib.Data.List.Induction
import Mathlib.Data.UInt

/-! A DER encoder for SET OF: what its comparison tells, and what the buffers of its elements give back. -/

namespace Esnacc

open Lib

/-! ## Encoding the elements -/

/-- The encoding of an element in a buffer of its own, with the number of its octets. -/
structure EncodedElmt where
  b : ExpBufRef
  len : UInt64

/-- The loop of the comparison on the octets still to be compared, with its verdict so far. -/
def encodedElmtCmpLoop : Nat → Int → ExpBufRef → ExpBufRef → Int × ExpBufRef × ExpBufRef
  | 0, cmp, a, b => (cmp, a, b)
  | len + 1, cmp, a, b =>
    let (data1, a) := expBufGetByte a
    let (data2, b) := expBufGetByte b
    -- Both octets are incremented behind the first test.
    let cmp := if data1 ≠ data2 then (if data1 + 1 < data2 + 1 then -1 else 1) else cmp
    encodedElmtCmpLoop len cmp a b

/-- Compare two encodings as far as the shorter one goes, and set both buffers back to their start. -/
def encodedElmtCmp (a b : EncodedElmt) : Int × EncodedElmt × EncodedElmt :=
  let len := intOf (if b.len < a.len then b.len else a.len)
  let (cmp, aBuf, bBuf) := encodedElmtCmpLoop len.toInt.toNat (-1) a.b b.b
  (cmp, { a with b := expBufResetInReadMode aBuf }, { b with b := expBufResetInReadMode bBuf })

/-- Encode an element, which is given by its writes, into a buffer of its own. -/
def encodeElmt (expBufDataBlkSizeG : UInt64) (data : Ptr) (malloc : Malloc)
    (calls : List WriteCall) : Option EncodedElmt := do
  let xbufp := expBufResetInWriteRvsMode (expBufAllocBufAndData expBufDataBlkSizeG data)
  let b ← writeAll expBufDataBlkSizeG malloc ⟨[], xbufp, []⟩ calls
  return ⟨expBufResetInReadMode b, .ofNat (written calls).length⟩

/-- The data area of the first block of each element, and those of the blocks behind it. -/
abbrev ElmtAllocs := Nat → Ptr × Malloc

/-- Encode elements into an array, from a place in it on. -/
def encodeElmts (expBufDataBlkSizeG : UInt64) (allocs : ElmtAllocs) :
    Nat → List (List WriteCall) → Option (List EncodedElmt)
  | _, [] => some []
  | i, calls :: rest => do
    let elmt ← encodeElmt expBufDataBlkSizeG (allocs i).1 (allocs i).2 calls
    return elmt :: (← encodeElmts expBufDataBlkSizeG allocs (i + 1) rest)

/-- Copy an encoding out of its buffer. -/
def copyElmt (e : EncodedElmt) : Option (List UInt8) := do
  let (dst, _, _) ← expBufCopy (expBufResetInReadMode e.b) e.len
  -- Where octets are missing, the copy has whatever was in memory.
  if dst.length = e.len.toNat then return dst else none

/-- The writes that encode the elements of a SET OF, and the number of their octets. -/
def encodeSetOf (expBufDataBlkSizeG : UInt64) (allocs : ElmtAllocs)
    (qsort : (EncodedElmt → EncodedElmt → Int) → List EncodedElmt → List EncodedElmt)
    (components : List (List WriteCall)) : Option (List WriteCall × UInt64) := do
  -- The last component is encoded first.
  let bufs ← encodeElmts expBufDataBlkSizeG allocs 0 components.reverse
  let listLen := (bufs.map EncodedElmt.len).sum
  let bufs := qsort (fun a b => (encodedElmtCmp a b).1) bufs
  -- What is written first comes to stand last.
  let segs ← bufs.reverse.mapM copyElmt
  return (segs.map .seg, listLen)

/-! ## Buffers -/

/-- A chain that is read in its last block, which has these octets left. -/
structure ExpBufRef.ReadsLast (b : ExpBufRef) (octets : List UInt8) : Prop where
  readable : b.Readable
  last : b.next = []
  clear : b.buf.readError = false
  unread : b.unread = octets

/-- The buffer of an element stands at the start of its encoding. -/
structure EncodedElmt.Loaded (e : EncodedElmt) (octets : List UInt8) : Prop where
  reads : e.b.ReadsLast octets
  rewound : expBufResetInReadMode e.b = e.b
  len : e.len = .ofNat octets.length
  short : octets.length < 2 ^ 31

theorem expBufGetByte_reset {b : ExpBufRef} (last : b.next = []) :
    expBufResetInReadMode (expBufGetByte b).2 = expBufResetInReadMode b := by
  obtain ⟨prev, buf, next⟩ := b
  subst last
  by_cases eod : expBufAtEod buf = true <;>
    simp [expBufGetByte, getByteBlock_last, eod, ExpBufRef.setReadError, ExpBufRef.advance,
      expBufResetInReadMode, expBufResetInReadModeFrom, expBufResetBlk]

/-- A last block with octets left delivers the first one of them. -/
theorem ExpBufRef.ReadsLast.getByte {b : ExpBufRef} {x : UInt8} {rest : List UInt8}
    (reads : b.ReadsLast (x :: rest)) :
    ∃ b', expBufGetByte b = (x, b') ∧ b'.ReadsLast rest ∧
      expBufResetInReadMode b' = expBufResetInReadMode b := by
  have stays : b.NextHolds := by
    refine Or.inr (Or.inr fun n more linked => ?_)
    rw [reads.last] at linked
    contradiction
  obtain ⟨b', read, readable, after, clear⟩ :=
    expBufGetByte_cons reads.readable stays (by simp [reads.clear]) reads.unread
  have last := expBufGetByte_last reads.last
  have reset := expBufGetByte_reset reads.last
  rw [read] at last reset
  exact ⟨b', read, ⟨readable, last, clear, after⟩, reset⟩

/-! ## The verdict -/

/-- The verdict of the comparison behind two more octets. -/
def nextVerdict (cmp : Int) (data : UInt8 × UInt8) : Int :=
  if data.1 ≠ data.2 then (if data.1 + 1 < data.2 + 1 then -1 else 1) else cmp

/-- The verdict on two encodings: the one on the last octets that differ, or less. -/
def verdict (x y : List UInt8) : Int :=
  (x.zip y).foldl nextVerdict (-1)

theorem encodedElmtCmpLoop_spec {n : Nat} {x y : List UInt8} (within : n ≤ x.length)
    (withinRight : n ≤ y.length) (cmp : Int) {a b : ExpBufRef} (left : a.ReadsLast x)
    (right : b.ReadsLast y) :
    ∃ a' b', encodedElmtCmpLoop n cmp a b =
        (((x.take n).zip (y.take n)).foldl nextVerdict cmp, a', b') ∧
      expBufResetInReadMode a' = expBufResetInReadMode a ∧
      expBufResetInReadMode b' = expBufResetInReadMode b := by
  -- The induction is on the octets that are left to compare.
  induction n generalizing x y cmp a b with
  | zero => exact ⟨a, b, by rw [encodedElmtCmpLoop]; simp, rfl, rfl⟩
  | succ n ih =>
    cases x with
    | nil => simp at within
    | cons c x =>
      cases y with
      | nil => simp at withinRight
      | cons d y =>
        obtain ⟨a₁, read, left₁, reset₁⟩ := left.getByte
        obtain ⟨b₁, readRight, right₁, resetRight₁⟩ := right.getByte
        obtain ⟨a', b', ran, reset, resetRight⟩ := ih (Nat.le_of_succ_le_succ within)
          (Nat.le_of_succ_le_succ withinRight) (nextVerdict cmp (c, d)) left₁ right₁
        refine ⟨a', b', ?_, reset.trans reset₁, resetRight.trans resetRight₁⟩
        rw [encodedElmtCmpLoop, read, readRight]
        exact ran

/-- Comparing two elements gives the verdict on their encodings, and leaves both as they are. -/
theorem encodedElmtCmp_eq {a b : EncodedElmt} {x y : List UInt8} (left : a.Loaded x)
    (right : b.Loaded y) : encodedElmtCmp a b = (verdict x y, a, b) := by
  have shortLeft := left.short
  have shortRight := right.short
  have lenLeft : a.len.toNat = x.length := by
    rw [left.len, UInt64.toNat_ofNat']
    omega
  have lenRight : b.len.toNat = y.length := by
    rw [right.len, UInt64.toNat_ofNat']
    omega
  -- The shorter length is an `int`.
  have len : (intOf (if b.len < a.len then b.len else a.len)).toInt.toNat =
      min x.length y.length := by
    by_cases longer : b.len < a.len
    · have less := UInt64.lt_iff_toNat_lt.mp longer
      rw [if_pos longer, toInt_intOf_of_lt (by omega), lenRight]
      omega
    · have less := UInt64.lt_iff_toNat_lt.not.mp longer
      rw [if_neg longer, toInt_intOf_of_lt (by omega), lenLeft]
      omega
  obtain ⟨a', b', ran, reset, resetRight⟩ := encodedElmtCmpLoop_spec
    (Nat.min_le_left x.length y.length) (Nat.min_le_right x.length y.length) (-1) left.reads
    right.reads
  have all : (x.take (min x.length y.length)).zip (y.take (min x.length y.length)) = x.zip y :=
    List.zip_eq_zip_take_min.symm
  unfold encodedElmtCmp
  simp only [len, ran, all, reset, resetRight, left.rewound, right.rewound]
  rfl

/-- The octets of two encodings at the last place where they differ, as far as both go. -/
def lastDifference (x y : List UInt8) : Option (UInt8 × UInt8) :=
  ((x.zip y).filter fun data => data.1 ≠ data.2).getLast?

/-- The verdict is that on the last octets that differ, each increased by one. -/
theorem foldl_nextVerdict (datas : List (UInt8 × UInt8)) (cmp : Int) :
    datas.foldl nextVerdict cmp =
      match (datas.filter fun data => data.1 ≠ data.2).getLast? with
      | none => cmp
      | some data => if data.1 + 1 < data.2 + 1 then -1 else 1 := by
  induction datas using List.reverseRecOn with
  | nil => rfl
  | append_singleton front data ih =>
    rw [List.foldl_append, List.foldl_cons, List.foldl_nil, ih, List.filter_append]
    by_cases same : data.1 = data.2
    · -- Equal octets leave the verdict as it is.
      have none : [data].filter (fun data => data.1 ≠ data.2) = [] := by simp [same]
      rw [none, List.append_nil, nextVerdict, if_neg (not_not.mpr same)]
    · have one : [data].filter (fun data => data.1 ≠ data.2) = [data] := by simp [same]
      rw [one, List.getLast?_concat, nextVerdict, if_pos same]

theorem verdict_eq (x y : List UInt8) : verdict x y =
    match lastDifference x y with
    | none => -1
    | some data => if data.1 + 1 < data.2 + 1 then -1 else 1 :=
  foldl_nextVerdict _ _

/-! ## What fits a block -/

theorem length_le_written {calls : List WriteCall} {call : WriteCall} (listed : call ∈ calls) :
    call.octets.length ≤ (written calls).length := by
  induction calls with
  | nil => cases listed
  | cons first rest ih =>
    rw [written, List.length_append]
    rcases List.mem_cons.mp listed with rfl | later
    · omega
    · have shorter := ih later
      omega

/-- Writes fit a block of fewer than 2³¹ octets exactly when all their octets do. -/
theorem writesFit_iff {size sofar : Nat} (atLeastOne : 1 ≤ size) (small : size < 2 ^ 31)
    (within : sofar ≤ size) (calls : List WriteCall) :
    WritesFit size sofar calls ↔ sofar + (written calls).length ≤ size := by
  induction calls generalizing sofar with
  | nil => simp [WritesFit, written, within]
  | cons call rest ih =>
    have room : ((size - sofar : Nat) : Int).bmod (2 ^ 32) = (size - sofar : Nat) :=
      Int.bmod_eq_of_le (by omega) (by omega)
    have whole : (size : Int).bmod (2 ^ 32) = size := Int.bmod_eq_of_le (by omega) (by omega)
    -- One write fits exactly when its octets do.
    have here : CallFits size sofar call ↔ sofar + call.octets.length ≤ size := by
      cases call with
      | byte octet =>
        simp only [CallFits, WriteCall.octets, List.length_singleton]
        omega
      | seg octets =>
        simp only [CallFits, WriteCall.octets, SegWritable, room, whole]
        omega
    rw [WritesFit, here, written, List.length_append]
    constructor
    · rintro ⟨first, later⟩
      have others := (ih first).mp later
      omega
    · intro all
      have first : sofar + call.octets.length ≤ size := by omega
      exact ⟨first, (ih first).mpr (by omega)⟩

/-! ## Buffers in read mode -/

theorem reset_of_last {b : ExpBufRef} {p : ExpBuf} (block : b.buf = expBufResetBlk p)
    (last : b.next = []) : expBufResetInReadMode b = b := by
  obtain ⟨prev, buf, next⟩ := b
  subst last
  subst block
  rfl

/-- After the read mode reset a chain is read in its last block. -/
theorem readsLast_reset {b : ExpBufRef} (ordered : b.lastBuf.dataStart ≤ b.lastBuf.dataEnd) :
    (expBufResetInReadMode b).ReadsLast (slice b.lastBuf.mem b.lastBuf.dataStart
        (b.lastBuf.dataEnd.toNat - b.lastBuf.dataStart.toNat)) ∧
      expBufResetInReadMode (expBufResetInReadMode b) = expBufResetInReadMode b := by
  have reset : (expBufResetInReadMode b).buf = expBufResetBlk b.lastBuf ∧
      (expBufResetInReadMode b).next = [] := resetInReadModeFrom_last b.prev b.buf b.next
  refine ⟨⟨⟨?_, ?_⟩, reset.2, ?_, ?_⟩, reset_of_last reset.1 reset.2⟩
  · rw [reset.1]
    exact ⟨UInt64.le_refl _, ordered⟩
  · simp [reset.2]
  · rw [reset.1]
    rfl
  · rw [ExpBufRef.unread, reset.1, reset.2, List.flatMap_nil, List.append_nil]
    rfl

/-- Copying from the last block gives as many octets as there are, and as are asked for. -/
theorem ExpBufRef.ReadsLast.copy {b : ExpBufRef} {octets : List UInt8} (reads : b.ReadsLast octets)
    (short : octets.length < 2 ^ 31) {len : UInt64} (small : len.toNat < 2 ^ 31) :
    ∃ b' total, expBufCopy b len = some (octets.take len.toNat, total, b') := by
  have going : ¬b.Stalled := by
    rintro ⟨-, more⟩
    apply more
    rw [NothingAfter, reads.last]
    simp
  have left : b.buf.left = octets.length := by
    have unread := reads.unread
    rw [ExpBufRef.unread, reads.last, List.flatMap_nil, List.append_nil] at unread
    rw [← unread, ExpBuf.length_unread]
  have fits : SegsFit len.toNat (b.buf.left :: b.next.map ExpBuf.left) := by
    rw [reads.last, left]
    exact ⟨.inl short, fun _ => trivial⟩
  obtain ⟨b', total, copied, -⟩ :=
    expBufCopy_spec small reads.readable (fun _ => going) fits (by simp [reads.clear])
  rw [reads.unread] at copied
  exact ⟨b', total, copied⟩

/-! ## Elements -/

/-- An encoding is copied out of the buffer of its element. -/
theorem EncodedElmt.Loaded.copy {e : EncodedElmt} {octets : List UInt8} (loaded : e.Loaded octets) :
    copyElmt e = some octets := by
  have short := loaded.short
  have len : e.len.toNat = octets.length := by
    rw [loaded.len, UInt64.toNat_ofNat']
    omega
  have small : e.len.toNat < 2 ^ 31 := by omega
  obtain ⟨b', total, copied⟩ := loaded.reads.copy short small
  rw [len, List.take_length] at copied
  unfold copyElmt
  rw [loaded.rewound, copied]
  change (if octets.length = e.len.toNat then some octets else none) = _
  rw [if_pos len.symm]

section

variable {size : UInt64} (atLeastOne : 1 ≤ size.toNat) (small : size.toNat < 2 ^ 31)
  {malloc : Malloc} (allocates : Allocates malloc size) {data : Ptr}
  (addressable : data.addr.toNat + size.toNat < 2 ^ 64) {calls : List WriteCall}
  (short : (written calls).length < 2 ^ 31)

include atLeastOne small allocates addressable short

/-- An encoding for which a block has room is loaded. -/
theorem encodeElmt_loaded (room : (written calls).length ≤ size.toNat) :
    ∃ e, encodeElmt size data malloc calls = some e ∧ e.Loaded (written calls) := by
  have shorter : ∀ call ∈ calls, call.octets.length < 2 ^ 31 := by
    intro call listed
    have less := length_le_written listed
    omega
  have fits : WritesFit size.toNat 0 calls :=
    (writesFit_iff atLeastOne small (Nat.zero_le _) calls).mpr (by omega)
  obtain ⟨b, wrote, growing⟩ :=
    writeAll_growing allocates shorter (growing_freshBuf addressable) fits
  rw [List.append_nil] at growing
  -- The last block holds everything.
  obtain ⟨last, here, holds⟩ : ∃ last, b.lastBuf = last ∧
      last.Holds data size.toNat (written calls) := by
    obtain ⟨-, ⟨alone, holds⟩ | ⟨area, last, linked, -, holds, -⟩⟩ := growing
    · exact ⟨b.buf, by simp [ExpBufRef.lastBuf, alone], holds⟩
    · exact ⟨last, by simp [ExpBufRef.lastBuf, linked], holds⟩
  have start := holds.start
  have ordered : b.lastBuf.dataStart ≤ b.lastBuf.dataEnd := by
    rw [here, UInt64.le_iff_toNat_le]
    omega
  have width : last.dataEnd.toNat - last.dataStart.toNat = (written calls).length := by omega
  obtain ⟨reads, rewound⟩ := readsLast_reset ordered
  rw [here, width, holds.data] at reads
  refine ⟨⟨expBufResetInReadMode b, .ofNat (written calls).length⟩, ?_, reads, rewound, rfl, short⟩
  have made : writeAll size malloc ⟨[], expBufResetInWriteRvsMode (expBufAllocBufAndData size data),
      []⟩ calls = some b := wrote
  rw [encodeElmt, made]
  rfl

/-- An encoding for which a block has no room is not copied out of its buffer. -/
theorem copyElmt_of_long (long : size.toNat < (written calls).length) {e : EncodedElmt}
    (encoded : encodeElmt size data malloc calls = some e) : copyElmt e = none := by
  have shorter : ∀ call ∈ calls, call.octets.length < 2 ^ 31 := by
    intro call listed
    have less := length_le_written listed
    omega
  have bad : ¬WritesFit size.toNat 0 calls := by
    rw [writesFit_iff atLeastOne small (Nat.zero_le _)]
    omega
  obtain ⟨at_, closes⟩ := writeAll_closes atLeastOne shorter bad
  rw [encodeElmt] at encoded
  obtain ⟨b, wrote, made⟩ := Option.bind_eq_some_iff.mp encoded
  cases made
  have closed := closes malloc data _ b [] rfl allocates (growing_freshBuf addressable) wrote
  obtain ⟨reads, rewound⟩ := readsLast_reset closed.ordered
  rw [closed.whole] at reads
  -- Only the octets of the last block are there.
  have len : (UInt64.ofNat (written calls).length).toNat = (written calls).length := by
    rw [UInt64.toNat_ofNat']
    omega
  have few : (UInt64.ofNat (written calls).length).toNat < 2 ^ 31 := by omega
  obtain ⟨b', total, copied⟩ := reads.copy (by rw [length_slice]; exact small) few
  unfold copyElmt
  dsimp only
  rw [rewound, copied]
  apply if_neg
  rw [len, List.length_take, length_slice]
  omega

end

end Esnacc
