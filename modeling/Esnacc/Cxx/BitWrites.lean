import Esnacc.Cxx.BitBuf

/-! What a bit buffer stores as a list of bits, and what the routines that write add to it. -/

namespace Esnacc.Cxx

open Lib

/-- The bits left in the octet being read. -/
@[grind =] def AsnBufBits.partRead (b : AsnBufBits) : List Bool :=
  (bitsOf b.readCharBuf).take (8 - b.readBitPos)

/-- The bits in the octet being filled. -/
def AsnBufBits.partWritten (b : AsnBufBits) : List Bool :=
  (bitsOf b.writeCharBuf).take (8 - b.writeBitPos)

/-- The bits behind the octet being read. -/
@[grind =] def AsnBufBits.queued (b : AsnBufBits) : List Bool :=
  b.pbuf.flatMap bitsOf ++ b.partWritten

/-- All the bits that the buffer stores. -/
@[grind =] def AsnBufBits.stored (b : AsnBufBits) : List Bool :=
  b.partRead ++ b.queued

/-- Both partial octets are within their bounds and hold zeros outside their bits. -/
structure AsnBufBits.WellFormed (b : AsnBufBits) : Prop where
  readPos : 1 ≤ b.readBitPos ∧ b.readBitPos ≤ 8
  read : Holds b.readCharBuf b.partRead
  writePos : 1 ≤ b.writeBitPos ∧ b.writeBitPos ≤ 8
  written : Holds b.writeCharBuf b.partWritten

theorem AsnBufBits.make_wellFormed (bAligned : Bool) : (make bAligned).WellFormed :=
  ⟨⟨by simp [make], by simp [make]⟩, holds_zero, ⟨by simp [make], by simp [make]⟩, holds_zero⟩

@[simp] theorem AsnBufBits.length_partRead (b : AsnBufBits) :
    b.partRead.length = 8 - b.readBitPos := by
  simp [partRead]

@[simp] theorem AsnBufBits.length_partWritten (b : AsnBufBits) :
    b.partWritten.length = 8 - b.writeBitPos := by
  simp [partWritten]

theorem holds_maskBits {c : UInt8} {n : Nat} (least : 0 < n) (most : n ≤ 8) :
    Holds (maskBits c n) ((bitsOf c).take n) := by
  by_cases full : n = 8
  · rw [full, maskBits, if_neg (by omega), List.take_of_length_le (by simp)]
    exact holds_bitsOf c
  · rw [maskBits, if_pos ⟨by omega, least⟩, Holds, bitsOf_shl (by omega), bitsOf_shr (by omega)]
    -- The right shift moves the bits that are kept to the end, the left shift moves them back.
    rw [List.drop_left' (by simp)]
    simp [show 8 - (8 - n) = n by omega, most]

/-! ## Writing -/

/-- A buffer after some bits were put behind those it stores. -/
structure AsnBufBits.Wrote (b : AsnBufBits) (bits : List Bool) (b' : AsnBufBits) : Prop where
  wellFormed : b'.WellFormed
  bAlign : b'.bAlign = b.bAlign
  partRead : b'.partRead = b.partRead
  readBitPos : b'.readBitPos = b.readBitPos
  queued : b'.queued = b.queued ++ bits
  position : (8 - b'.writeBitPos) % 8 = (8 - b.writeBitPos + bits.length) % 8
  bitsLeft : b'.bitsLeft = b.bitsLeft + UInt64.ofNat bits.length

theorem AsnBufBits.Wrote.refl {b : AsnBufBits} (wellFormed : b.WellFormed) : b.Wrote [] b :=
  ⟨wellFormed, rfl, rfl, rfl, by simp, rfl, by simp⟩

theorem AsnBufBits.Wrote.trans {b b' b'' : AsnBufBits} {bits more : List Bool}
    (first : b.Wrote bits b') (second : b'.Wrote more b'') : b.Wrote (bits ++ more) b'' where
  wellFormed := second.wellFormed
  bAlign := second.bAlign.trans first.bAlign
  partRead := second.partRead.trans first.partRead
  readBitPos := second.readBitPos.trans first.readBitPos
  queued := by rw [second.queued, first.queued, List.append_assoc]
  position := by
    have here := first.position
    have there := second.position
    rw [List.length_append]
    omega
  bitsLeft := by
    rw [second.bitsLeft, first.bitsLeft, List.length_append, UInt64.ofNat_add,
      UInt64.add_assoc]

/-- The octets put out and the new partial octet hold the old partial octet and the new bits. -/
theorem AsnBufBits.WellFormed.wrote {b : AsnBufBits} (wellFormed : b.WellFormed)
    {bits q : List Bool} {pbuf out : List UInt8} {c : UInt8} {w : Nat} {n left : UInt64}
    (range : 1 ≤ w ∧ w ≤ 8) (held : Holds c q) (size : q.length = 8 - w)
    (grown : pbuf = b.pbuf ++ out) (moved : out.flatMap bitsOf ++ q = b.partWritten ++ bits)
    (counted : left = b.bitsLeft + UInt64.ofNat bits.length) :
    b.Wrote bits { b with
      pbuf := pbuf, writeCharBuf := c, writeBitPos := w, numBits := n, bitsLeft := left } := by
  -- The partial octet has exactly the bits it is said to hold.
  have part : (bitsOf c).take (8 - w) = q := by
    rw [held, List.take_left' size]
  constructor
  case wellFormed =>
    refine ⟨wellFormed.readPos, wellFormed.read, range, ?_⟩
    rw [partWritten, part]
    exact held
  case queued =>
    rw [queued, partWritten, part, grown, queued, List.append_assoc, ← moved]
    simp
  case position =>
    have sizes := congrArg List.length moved
    have octets : (out.flatMap bitsOf).length = 8 * out.length := by
      simp [List.length_flatMap, Nat.mul_comm]
    simp only [List.length_append, length_partWritten, octets, size] at sizes
    change (8 - w) % 8 = _
    omega
  case bitsLeft => exact counted
  all_goals rfl

theorem AsnBufBits.WellFormed.joined {b : AsnBufBits} (wellFormed : b.WellFormed)
    (octet : UInt8) : bitsOf (b.writeCharBuf ||| shr octet (8 - b.writeBitPos)) =
      b.partWritten ++ (bitsOf octet).take b.writeBitPos := by
  have most := wellFormed.writePos.2
  have out := wellFormed.written.or_shr octet
  rwa [length_partWritten, show 8 - (8 - b.writeBitPos) = b.writeBitPos by omega] at out

theorem AsnBufBits.putOctet_wrote {b : AsnBufBits} (wellFormed : b.WellFormed) (octet : UInt8) :
    b.Wrote (bitsOf octet) (b.putOctet octet) := by
  obtain ⟨least, most⟩ := wellFormed.writePos
  -- The octet put out holds the old bits and the first of the new ones, the other new ones stay.
  have masked := holds_maskBits (c := octet) (n := b.writeBitPos) (by omega) most
  have out := wellFormed.joined (maskBits octet b.writeBitPos)
  rw [masked, List.take_left' (by simp [most])] at out
  refine wellFormed.wrote (w := b.writeBitPos) ⟨least, most⟩ (holds_shl most) (by simp) rfl ?_ rfl
  simp [out]

theorem AsnBufBits.putExtra_wrote {b : AsnBufBits} (wellFormed : b.WellFormed) (octet : UInt8)
    {n : Nat} (least : 0 < n) (most : n < 8) :
    b.Wrote ((bitsOf octet).take n) (b.putExtra octet n) := by
  obtain ⟨writeLeast, writeMost⟩ := wellFormed.writePos
  have joined := wellFormed.joined octet
  have counted : b.bitsLeft + UInt64.ofNat n =
      b.bitsLeft + UInt64.ofNat ((bitsOf octet).take n).length := by
    congr 2
    simp
    omega
  rw [putExtra]
  by_cases same : n = b.writeBitPos
  · -- The bits fill the partial octet.
    rw [if_pos same]
    refine wellFormed.wrote ⟨by omega, by omega⟩ holds_zero rfl rfl ?_ counted
    simp [joined, same]
  · rw [if_neg same]
    by_cases fits : n < b.writeBitPos
    · -- The bits leave room in the partial octet.
      rw [if_pos fits]
      have masked := holds_maskBits (c := b.writeCharBuf ||| shr octet (8 - b.writeBitPos))
        (n := 8 - (b.writeBitPos - n)) (by omega) (by omega)
      have kept : 8 - (b.writeBitPos - n) - (8 - b.writeBitPos) = n := by omega
      rw [joined, List.take_append, length_partWritten, kept, List.take_take,
        List.take_of_length_le (by rw [length_partWritten]; omega), 
        Nat.min_eq_left (Nat.le_of_lt fits)] at masked
      refine wellFormed.wrote ⟨by omega, by omega⟩ masked ?_ (List.append_nil _).symm rfl counted
      simp
      omega
    · -- The bits fill the partial octet and start the next one.
      rw [if_neg fits]
      let free := 8 - (n - b.writeBitPos)
      have held := holds_shl (c := shr octet (8 - n)) (n := free) (by omega)
      rw [bitsOf_shr (by omega), List.drop_append, List.drop_of_length_le (by simp; omega),
        List.nil_append, List.length_replicate, show free - (8 - n) = b.writeBitPos by omega,
        show 8 - (8 - n) = n by omega] at held
      refine wellFormed.wrote ⟨by omega, by omega⟩ held ?_ rfl ?_ counted
      · simp
        omega
      · -- The bits put out and the bits kept are the first bits of the octet.
        have split := List.take_append_drop b.writeBitPos ((bitsOf octet).take n)
        rw [List.take_take, Nat.min_eq_left (by omega)] at split
        simp [joined, split]

/-- The bits of a segment. -/
@[grind =] def BitSegment.bits (bits : BitSegment) : List Bool :=
  (bits.seg.flatMap bitsOf).take bits.numBits.toNat

@[simp] theorem BitSegment.length_bits (bits : BitSegment) :
    bits.bits.length = bits.numBits.toNat := by
  rw [BitSegment.bits, List.length_take, length_flatMap_bitsOf]
  have holds := bits.holds
  omega

/-- The first bits of some octets are those of the whole octets and the first ones of the next. -/
theorem take_flatMap_bitsOf (octets : List UInt8) (n : Nat) :
    (octets.flatMap bitsOf).take n = (octets.take (n / 8)).flatMap bitsOf ++
      ((octets.drop (n / 8)).flatMap bitsOf).take (n % 8) := by
  by_cases short : octets.length ≤ n / 8
  · -- There are no octets behind the whole ones.
    have all : (octets.flatMap bitsOf).length ≤ n := by
      rw [length_flatMap_bitsOf]
      omega
    rw [List.take_of_length_le short, List.drop_of_length_le short, List.take_of_length_le all,
      List.flatMap_nil, List.take_nil, List.append_nil]
  · have size : (octets.take (n / 8)).length = n / 8 := by
      rw [List.length_take]
      omega
    have whole : ((octets.take (n / 8)).flatMap bitsOf).length ≤ n := by
      rw [length_flatMap_bitsOf, size]
      omega
    conv_lhs => rw [← List.take_append_drop (n / 8) octets, List.flatMap_append, List.take_append]
    rw [List.take_of_length_le whole, length_flatMap_bitsOf, size,
      show n - 8 * (n / 8) = n % 8 by omega]

theorem AsnBufBits.foldl_putOctet_wrote {b : AsnBufBits} (wellFormed : b.WellFormed)
    (octets : List UInt8) : b.Wrote (octets.flatMap bitsOf) (octets.foldl putOctet b) := by
  induction octets generalizing b with
  | nil => exact .refl wellFormed
  | cons octet octets ih =>
    have first := putOctet_wrote wellFormed octet
    exact first.trans (ih first.wellFormed)

/-- Putting the bits of a segment puts them behind those stored and returns their number. -/
theorem putBits_wrote {b : AsnBufBits} (wellFormed : b.WellFormed) (bits : BitSegment) :
    b.Wrote bits.bits (putBits b bits).1 ∧ (putBits b bits).2 = bits.numBits := by
  have whole := AsnBufBits.foldl_putOctet_wrote wellFormed (bits.seg.take (bits.numBits.toNat / 8))
  rw [putBits, BitSegment.bits, take_flatMap_bitsOf]
  by_cases more : bits.numBits.toNat % 8 ≠ 0
  · rw [dif_pos more]
    have inside : bits.numBits.toNat / 8 < bits.seg.length := by
      have holds := bits.holds
      omega
    have last := AsnBufBits.putExtra_wrote whole.wellFormed (bits.seg[bits.numBits.toNat / 8])
      (n := bits.numBits.toNat % 8) (by omega) (by omega)
    have within : bits.numBits.toNat % 8 ≤
        (bitsOf (bits.seg[bits.numBits.toNat / 8])).length := by
      rw [length_bitsOf]
      omega
    rw [List.drop_eq_getElem_cons inside, List.flatMap_cons, List.take_append_of_le_length within]
    exact ⟨whole.trans last, rfl⟩
  · rw [dif_neg more, show bits.numBits.toNat % 8 = 0 by omega, List.take_zero, List.append_nil]
    exact ⟨whole, rfl⟩

/-- The number of zeros that bring a number of bits to whole octets, in an aligned buffer. -/
@[grind =] def padding (bAlign : Bool) (n : Nat) : Nat :=
  if bAlign then (8 - n % 8) % 8 else 0

/-- Aligning puts the zeros that are missing to whole octets and returns their number. -/
theorem octetAlignWrite_wrote {b : AsnBufBits} (wellFormed : b.WellFormed) :
    b.Wrote (List.replicate (padding b.bAlign (8 - b.writeBitPos)) false) (octetAlignWrite b).1 ∧
      (octetAlignWrite b).2 = padding b.bAlign (8 - b.writeBitPos) := by
  obtain ⟨least, most⟩ := wellFormed.writePos
  by_cases pads : b.bAlign ∧ b.writeBitPos < 8
  · have zeros : padding b.bAlign (8 - b.writeBitPos) = b.writeBitPos := by
      rw [padding, if_pos pads.1]
      omega
    rw [octetAlignWrite, if_pos pads, zeros]
    refine ⟨wellFormed.wrote ⟨by omega, by omega⟩ holds_zero rfl rfl ?_ (by simp), rfl⟩
    have held := wellFormed.written
    rw [Holds, AsnBufBits.length_partWritten,
      show 8 - (8 - b.writeBitPos) = b.writeBitPos by omega] at held
    simp [held]
  · have zeros : padding b.bAlign (8 - b.writeBitPos) = 0 := by
      rw [padding]
      by_cases aligned : b.bAlign
      · have empty : b.writeBitPos = 8 := by
          by_contra partly
          exact pads ⟨aligned, by omega⟩
        rw [if_pos aligned, empty]
      · rw [if_neg aligned]
    rw [octetAlignWrite, if_neg pads, zeros]
    exact ⟨.refl wellFormed, rfl⟩

end Esnacc.Cxx
