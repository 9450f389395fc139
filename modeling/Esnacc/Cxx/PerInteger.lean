import Esnacc.Cxx.PerField

/-! The fully constrained PER of a C++ INTEGER can be read back where it was written. -/

namespace Esnacc.Cxx

open Lib

theorem OffsetField.congr {bAlign : Bool} {pos pos' range m t : Nat} {bits : List Bool}
    (field : OffsetField bAlign pos range m t bits) (same : pos % 8 = pos' % 8) :
    OffsetField bAlign pos' range m t bits := by
  rw [OffsetField] at field ⊢
  rwa [padding_congr fun _ => same] at field

/-- The field of an offset is short. -/
theorem OffsetField.length_le {bAlign : Bool} {pos range m t : Nat} {bits : List Bool}
    (field : OffsetField bAlign pos range m t bits) (most : m ≤ 31) : bits.length ≤ 64 := by
  have gap : padding bAlign pos ≤ 7 := by
    rw [padding]
    split <;> omega
  rw [OffsetField] at field
  split at field
  · split at field
    · have size := field.1
      omega
    · split at field
      · obtain ⟨octets, ⟨size, -⟩, rfl⟩ := field
        rw [List.length_append, List.length_replicate, size]
        split <;> omega
      · obtain ⟨count, octets, n, few, ⟨countSize, -⟩, ⟨size, -⟩, rfl⟩ := field
        rw [List.length_append, countSize, size]
        omega
  · have size := field.1
    omega

/-- The range of the offsets between two bounds, as both sides compute it. -/
theorem rangeOf_spec {lowerBound upperBound : Int32} (ordered : lowerBound < upperBound)
    (small : upperBound.toInt - lowerBound.toInt < 2 ^ 31 - 1) :
    ((rangeOf lowerBound upperBound).toNat : Int) = upperBound.toInt - lowerBound.toInt + 1 ∧
      ∃ m, minBits ((rangeOf lowerBound upperBound).toInt64.toInt - 1) 0 = .ok m ∧
        Ranged (rangeOf lowerBound upperBound).toNat m := by
  have less := Int32.lt_iff_toInt_lt.mp ordered
  have offset : upperBound.toInt - lowerBound.toInt + 1 =
      ((upperBound.toInt - lowerBound.toInt + 1).toNat : Int) := by omega
  have word : (rangeOf lowerBound upperBound).toNat =
      (upperBound.toInt - lowerBound.toInt + 1).toNat := by
    rw [rangeOf, offset, ofInt_natCast, UInt64.toNat_ofNat']
    omega
  generalize rangeOf lowerBound upperBound = range at word ⊢
  have signed : range.toInt64.toInt = range.toNat := by
    have read : range.toInt64.toInt = (range.toNat : Int).bmod (2 ^ 64) :=
      BitVec.toInt_eq_toNat_bmod _
    rw [read]
    exact Int.bmod_eq_of_le (by omega) (by omega)
  have left : (range.toNat : Int) = range.toInt64.toInt - 1 + 2 ^ 0 := by omega
  obtain ⟨m, ran, -, most, enough, tight⟩ := minBits_spec (by omega) (Nat.zero_le 31) left
  have some : 0 < m := by
    by_contra none
    obtain rfl : m = 0 := by omega
    omega
  exact ⟨by omega, m, ran, some, most, by omega, enough, tight some⟩

theorem length_le_of_toInteger {x : AsnInt} {value : Int32} (kept : x.toInteger = .ok value) :
    x.mBytes.length ≤ 4 := by
  obtain ⟨octets⟩ := x
  cases octets with
  | nil => exact Nat.zero_le _
  | cons c rest =>
    by_contra long
    rw [AsnInt.toInteger] at kept
    dsimp only at kept long
    rw [if_pos (by omega)] at kept
    cases kept

/-- A number between the bounds is put as its offset from the lower one. -/
theorem pEncFullyConstrained_puts {b : AsnBufBits} (wellFormed : b.WellFormed)
    {lowerBound upperBound : Int32} (ordered : lowerBound < upperBound)
    (small : upperBound.toInt - lowerBound.toInt < 2 ^ 31 - 1) {x : AsnInt} {value : Int32}
    (kept : x.toInteger = .ok value) (least : lowerBound ≤ value) (most : value ≤ upperBound)
    {m : Nat} (counted : minBits ((rangeOf lowerBound upperBound).toInt64.toInt - 1) 0 = .ok m)
    (ranged : Ranged (rangeOf lowerBound upperBound).toNat m) :
    ∃ bits, Puts (pEncFullyConstrained x lowerBound upperBound) b bits ∧
      OffsetField b.bAlign (8 - b.writeBitPos) (rangeOf lowerBound upperBound).toNat m
        (value.toInt - lowerBound.toInt).toNat bits := by
  have range := (rangeOf_spec ordered small).1
  have above := Int32.le_iff_toInt_le.mp least
  have below := Int32.le_iff_toInt_le.mp most
  obtain ⟨y, stored, leastOctets, some, short, number⟩ :=
    offset_octets (t := (value.toInt - lowerBound.toInt).toNat) (by omega)
  rw [Int.toNat_of_nonneg (by omega)] at stored
  obtain ⟨bits, put, field⟩ := pEncOffset_puts wellFormed ranged leastOctets some short (by omega)
  rw [number] at field
  refine ⟨bits, put.of_run ?_, field⟩
  -- The checks in front of the offset do not throw.
  have two := ranged.least
  have nonzero : ¬rangeOf lowerBound upperBound = 0 := by
    intro zero
    rw [zero] at two
    exact absurd two (by decide)
  have notOne : ¬rangeOf lowerBound upperBound = 1 := by
    intro one
    rw [one] at two
    exact absurd two (by decide)
  rw [pEncFullyConstrained]
  dsimp only
  rw [if_neg (Nat.not_lt.mpr (length_le_of_toInteger kept)), kept, ofExcept_ok, pure_bind,
    if_neg (by omega), stored, ofExcept_ok, pure_bind, if_neg nonzero,
    if_neg (Nat.not_lt.mpr short), if_neg notOne, counted, ofExcept_ok, pure_bind]

/-- A number is got back from the offset that writes it. -/
theorem pDecFullyConstrained_gets {b : AsnBufBits} {pos : Nat} {lowerBound upperBound : Int32}
    {value : Int32} (least : lowerBound ≤ value) {m : Nat}
    (counted : minBits ((rangeOf lowerBound upperBound).toInt64.toInt - 1) 0 = .ok m)
    (ranged : Ranged (rangeOf lowerBound upperBound).toNat m) {bits more : List Bool}
    (field : OffsetField b.bAlign pos (rangeOf lowerBound upperBound).toNat m
      (value.toInt - lowerBound.toInt).toNat bits)
    (stands : b.Stands pos (bits ++ more)) (countable : (bits ++ more).length < 2 ^ 64)
    (bitsDecoded : UInt64) :
    ∃ y b', (pDecFullyConstrained lowerBound upperBound bitsDecoded).run b =
        .ok (y, bitsDecoded + .ofNat bits.length) b' ∧ y.toInteger = .ok value ∧
      b'.Stands (pos + bits.length) more := by
  have above := Int32.le_iff_toInt_le.mp least
  obtain ⟨b', ran, behind⟩ := pDecOffset_gets ranged field stands countable
  have sum : ((value.toInt - lowerBound.toInt).toNat : Int) + lowerBound.toInt = value.toInt := by
    omega
  obtain ⟨y, stored, some, short, signed, -⟩ := set_spec value
  refine ⟨y, b', ?_, ?_, behind⟩
  · have notOne : ¬rangeOf lowerBound upperBound = 1 := by
      intro one
      have two := ranged.least
      rw [one] at two
      exact absurd two (by decide)
    rw [pDecFullyConstrained]
    dsimp only
    rw [if_neg notOne, counted, ofExcept_ok, pure_bind, run_bind_of_ok ran]
    dsimp only
    rw [sum, Int32.ofInt_toInt, stored, ofExcept_ok, pure_bind]
    rfl
  · rw [toInteger_eq some short, signed, Int32.ofInt_toInt]

/--
A number between the bounds is got back where it was put.

The writes in front of it bring it to any position, and any writes may follow it; the reads that
mirror the writes in front of it bring a reader to the same position.
-/
theorem pDecFullyConstrained_reads_back {lowerBound upperBound : Int32}
    (ordered : lowerBound < upperBound)
    (small : upperBound.toInt - lowerBound.toInt < 2 ^ 31 - 1) {x : AsnInt} {value : Int32}
    (kept : x.toInteger = .ok value) (least : lowerBound ≤ value) (most : value ≤ upperBound)
    (bAlign : Bool) (before after : List WriteCall) {reads : List ReadCall}
    (mirrored : Mirrors before reads) (bitsDecoded : UInt64) :
    ∃ b counts len b₁ b₂ countsAfter,
      run writeStep (.make bAlign) before = some (b, counts) ∧
      (pEncFullyConstrained x lowerBound upperBound).run b = .ok len b₁ ∧
      run writeStep b₁ after = some (b₂, countsAfter) ∧
      (counts.sum + len.toNat + countsAfter.sum < 2 ^ 64 → run readStep b₂ reads ≠ none) ∧
      (len.toNat + countsAfter.sum < 2 ^ 64 →
        ∀ r answers, run readStep b₂ reads = some (r, answers) →
          ∃ y r' rest,
            (pDecFullyConstrained lowerBound upperBound bitsDecoded).run r =
              .ok (y, bitsDecoded + len) r' ∧
            y.toInteger = .ok value ∧ b₂.queued = b₁.queued ++ rest ∧
            r'.Stands (counts.sum + len.toNat) rest) := by
  obtain ⟨-, m, counted, ranged⟩ := rangeOf_spec ordered small
  have fresh := AsnBufBits.make_wellFormed bAlign
  -- The writes in front lay out their bits, the number its field, and the others theirs.
  obtain ⟨b, counts, ran, wrote, -, total, amounts⟩ := run_writes fresh 0 (fun _ => rfl) before
  obtain ⟨bits, ⟨b₁, ranNumber, wroteNumber⟩, field⟩ :=
    pEncFullyConstrained_puts wrote.wellFormed ordered small kept least most counted ranged
  obtain ⟨b₂, countsAfter, ranAfter, wroteAfter, -, totalAfter, -⟩ :=
    run_writes wroteNumber.wellFormed (8 - b₁.writeBitPos) (fun _ => rfl) after
  have size := field.length_le ranged.most
  have len : (UInt64.ofNat bits.length).toNat = bits.length := by
    rw [UInt64.toNat_ofNat']
    omega
  generalize laid : laidOut (AsnBufBits.make bAlign).bAlign 0 (putGroups before counts).1
    (putGroups before counts).2 = front at wrote total
  generalize laidOut b₁.bAlign (8 - b₁.writeBitPos) (putGroups after countsAfter).1
    (putGroups after countsAfter).2 = rest at wroteAfter totalAfter
  have all := (wrote.trans wroteNumber).trans wroteAfter
  have stands := all.stands
  rw [List.append_assoc] at stands
  have mode : b₂.bAlign = (AsnBufBits.make bAlign).bAlign := all.bAlign
  rw [← mode] at laid
  rw [← laid] at stands
  have mirrors := mirrored.symm.trans amounts
  refine ⟨b, counts, _, b₁, b₂, countsAfter, ran, ranNumber, ranAfter, ?_, ?_⟩
  · intro countable
    obtain ⟨r, answers, reaches, -⟩ := run_reads stands mirrors (.inl (by
      rw [laid, List.length_append, List.length_append]
      omega))
    rw [reaches]
    exact Option.some_ne_none _
  · intro countable r answers reaches
    obtain ⟨r', answers', ranReads, -, -, modeRead, here⟩ :=
      run_reads stands mirrors (.inr (by rw [reaches]; exact Option.some_ne_none _))
    rw [reaches] at ranReads
    cases ranReads
    rw [laid, Nat.zero_add] at here
    -- The reader is at the position of the number in its octet.
    have place : (8 - b.writeBitPos) % 8 = front.length % 8 := by
      have position := wrote.position
      change _ = (0 + front.length) % 8 at position
      rwa [Nat.zero_add] at position
    have fieldHere := field.congr place
    rw [wrote.bAlign, ← mode, ← modeRead] at fieldHere
    have behindAll : (bits ++ rest).length < 2 ^ 64 := by
      rw [List.length_append]
      omega
    obtain ⟨y, last, gets, number, behind⟩ :=
      pDecFullyConstrained_gets least counted ranged fieldHere here behindAll bitsDecoded
    rw [← total, ← len] at behind
    exact ⟨y, last, rest, gets, number, wroteAfter.queued, behind⟩

/-- Seven in an unaligned field of eight bits behind three others. -/
theorem pDecFullyConstrained_reads_back_seven :
    ∃ b counts len b₁ b₂ countsAfter,
      run writeStep (.make false) [.putBits ⟨[0xA0], 3, by decide⟩] = some (b, counts) ∧
      (pEncFullyConstrained ⟨[7]⟩ (-5) 200).run b = .ok len b₁ ∧
      run writeStep b₁ [.octetAlignWrite] = some (b₂, countsAfter) ∧
      (counts.sum + len.toNat + countsAfter.sum < 2 ^ 64 → run readStep b₂ [.getBits 3] ≠ none) ∧
      (len.toNat + countsAfter.sum < 2 ^ 64 →
        ∀ r answers, run readStep b₂ [.getBits 3] = some (r, answers) →
          ∃ y r' rest,
            (pDecFullyConstrained (-5) 200 0).run r = .ok (y, 0 + len) r' ∧
            y.toInteger = .ok 7 ∧ b₂.queued = b₁.queued ++ rest ∧
            r'.Stands (counts.sum + len.toNat) rest) := by
  have mirrored : Mirrors [.putBits ⟨[0xA0], 3, by decide⟩] [.getBits 3] := rfl
  exact pDecFullyConstrained_reads_back (by decide) (by decide) (x := ⟨[7]⟩) (by decide) (by decide)
    (by decide) false _ [.octetAlignWrite] mirrored 0

end Esnacc.Cxx
