import Esnacc.Cxx.BitFifo
import Esnacc.Cxx.IntOctets

/-! The fields of bits that hold the offsets of a fully constrained C++ INTEGER. -/

namespace Esnacc.Cxx

open Lib

/-! ## Numbers in fields of bits -/

/-- A field of a number of bits that writes a number. -/
def Writes (width n : Nat) (bits : List Bool) : Prop :=
  bits.length = width ∧ ofBits bits = n

theorem ofBits_drop {bits : List Bool} {k : Nat}
    (fits : ofBits bits < 2 ^ (bits.length - k)) : ofBits (bits.drop k) = ofBits bits := by
  have split := ofBits_append (bits.take k) (bits.drop k)
  rw [List.take_append_drop, List.length_drop] at split
  have none : ofBits (bits.take k) = 0 := by
    by_contra some
    have least : 1 * 2 ^ (bits.length - k) ≤ ofBits (bits.take k) * 2 ^ (bits.length - k) :=
      Nat.mul_le_mul_right _ (Nat.one_le_iff_ne_zero.mpr some)
    omega
  rw [split, none, Nat.zero_mul, Nat.zero_add]

/-- No more octets are kept than the number needs. -/
theorem Least.bound {octets : List UInt8} (least : Least octets) {m : Nat} (some : 0 < m)
    (fits : ofOctets octets < 2 ^ m) : 8 * (octets.length - 1) < m := by
  by_contra wide
  cases octets with
  | nil => exact wide some
  | cons c rest =>
    rw [List.length_cons, Nat.add_sub_cancel] at wide
    have more : 1 < (c :: rest).length := by
      rw [List.length_cons]
      omega
    have first : 1 ≤ c.toNat := by
      have nonzero := least more
      rw [List.headD_cons] at nonzero
      by_contra zero
      exact nonzero (UInt8.toNat_inj.mp (by simpa using zero))
    have high : 1 * 256 ^ rest.length ≤ c.toNat * 256 ^ rest.length := Nat.mul_le_mul_right _ first
    have low : 2 ^ m ≤ 256 ^ rest.length := by
      rw [show 256 = 2 ^ 8 from rfl, ← Nat.pow_mul]
      exact Nat.pow_le_pow_right (by decide) (by omega)
    rw [ofOctets_cons] at fits
    omega

/-- The octets of an offset: as many as it needs. -/
theorem offset_octets {t : Nat} (small : t < 2 ^ 31) :
    ∃ x, AsnInt.set (.ofInt t) = .ok x ∧ Least x.dropZero.mBytes ∧ x.dropZero.mBytes ≠ [] ∧
      x.dropZero.mBytes.length ≤ 4 ∧ ofOctets x.dropZero.mBytes = t := by
  have value : (Int32.ofInt t).toInt = t := Int32.toInt_ofInt_of_le (by omega) (by omega)
  obtain ⟨x, stored, some, short, signed, kept⟩ := set_spec (.ofInt t)
  rw [value] at signed kept
  have zeros := kept (Int.natCast_nonneg t)
  obtain ⟨mBytes⟩ := x
  dsimp only at some short signed zeros
  obtain ⟨same, someLeft, shorter⟩ := dropZero_ofOctets some
  refine ⟨⟨mBytes⟩, stored, ?_, someLeft, Nat.le_trans shorter short, ?_⟩
  · rw [zeros]
    exact least_dropZero_dropZeros _
  · -- The octets do not read as negative, so that they write the number without a sign.
    have positive : mBytes.headD 0 < 0x80 := by
      rw [zeros]
      apply headD_dropZeros
      rw [(headD_octetsOf _).1, value]
      exact Int.natCast_nonneg t
    rw [same]
    cases mBytes with
    | nil => exact absurd rfl some
    | cons c rest =>
      rw [List.headD_cons] at positive
      rw [signedOf, if_pos positive] at signed
      exact Int.ofNat.inj signed

/-- Taking away the powers of 2 counts the bits that a range of numbers needs. -/
theorem minBits_spec {range k : Nat} (small : range ≤ 2 ^ 31) (most : k ≤ 31) {tempRange : Int}
    (left : (range : Int) = tempRange + 2 ^ k) :
    ∃ m, minBits tempRange k = .ok m ∧ k ≤ m ∧ m ≤ 31 ∧ range ≤ 2 ^ m ∧
      (k < m → 2 ^ (m - 1) < range) := by
  -- The induction is on the powers that are left to an `int`.
  induction turns : 31 - k generalizing k tempRange with
  | zero =>
    obtain rfl : k = 31 := by omega
    refine ⟨31, ?_, Nat.le_refl _, Nat.le_refl _, small, fun no => absurd no (Nat.lt_irrefl _)⟩
    rw [minBits, if_pos (by omega)]
    rfl
  | succ turns ih =>
    by_cases done : tempRange ≤ 0
    · refine ⟨k, ?_, Nat.le_refl _, most, ?_, fun no => absurd no (Nat.lt_irrefl _)⟩
      · rw [minBits, if_pos done]
        rfl
      · have cast : ((2 ^ k : Nat) : Int) = 2 ^ k := by push_cast; rfl
        omega
    · have next : (range : Int) = tempRange - 2 ^ k + 2 ^ (k + 1) := by
        rw [left, Int.pow_succ]
        omega
      obtain ⟨m, ran, above, below, enough, tight⟩ := ih (by omega) next (by omega)
      refine ⟨m, ?_, by omega, below, enough, fun _ => ?_⟩
      · rw [minBits, if_neg done, if_neg (by omega)]
        exact ran
      · by_cases more : k + 1 < m
        · exact tight more
        · obtain rfl : m = k + 1 := by omega
          have cast : ((2 ^ k : Nat) : Int) = 2 ^ k := by push_cast; rfl
          rw [Nat.add_sub_cancel]
          omega

/-! ## Writing -/

/-- A routine that puts the given bits and returns their number. -/
def Puts (x : BitsM UInt64) (b : AsnBufBits) (bits : List Bool) : Prop :=
  ∃ b', x.run b = .ok (.ofNat bits.length) b' ∧ b.Wrote bits b'

theorem putSeg_puts {b : AsnBufBits} (wellFormed : b.WellFormed) (seg : List UInt8) {n : Nat}
    (holds : n ≤ 8 * seg.length) (small : n < 2 ^ 64) :
    Puts (putSeg seg n) b ((seg.flatMap bitsOf).take n) := by
  have word : (UInt64.ofNat n).toNat = n := by
    rw [UInt64.toNat_ofNat']
    omega
  have inside : (UInt64.ofNat n).toNat ≤ 8 * seg.length := by omega
  obtain ⟨wrote, returned⟩ := putBits_wrote wellFormed ⟨seg, .ofNat n, inside⟩
  have bits : (BitSegment.mk seg (.ofNat n) inside).bits = (seg.flatMap bitsOf).take n := by
    rw [BitSegment.bits, word]
  have size : ((seg.flatMap bitsOf).take n).length = n := by
    rw [List.length_take, length_flatMap_bitsOf]
    omega
  rw [bits] at wrote
  refine ⟨(putBits b ⟨seg, .ofNat n, inside⟩).1, ?_, wrote⟩
  rw [putSeg, run_bind_of_ok (EStateM.run_get b), dif_pos inside, size]
  exact congrArg (EStateM.Result.ok · _) returned

theorem putOctets_puts {b : AsnBufBits} (wellFormed : b.WellFormed) (seg : List UInt8)
    (short : seg.length ≤ 4) : Puts (putSeg seg (seg.length * 8)) b (seg.flatMap bitsOf) := by
  have put := putSeg_puts wellFormed seg (n := seg.length * 8) (by omega) (by omega)
  rwa [List.take_of_length_le (by rw [length_flatMap_bitsOf]; omega)] at put

theorem putAlignment_puts {b : AsnBufBits} (wellFormed : b.WellFormed) :
    Puts putAlignment b (List.replicate (padding b.bAlign (8 - b.writeBitPos)) false) := by
  obtain ⟨wrote, returned⟩ := octetAlignWrite_wrote wellFormed
  refine ⟨_, ?_, wrote⟩
  rw [putAlignment, run_bind_of_ok (EStateM.run_get b), List.length_replicate, ← returned]
  rfl

theorem Puts.add {x y : BitsM UInt64} {b : AsnBufBits} {bits more : List Bool}
    (first : Puts x b bits) (second : ∀ b', b.Wrote bits b' → Puts y b' more) :
    Puts (do let len ← x; return len + (← y)) b (bits ++ more) := by
  obtain ⟨mid, ran, wrote⟩ := first
  obtain ⟨b', later, wroteMore⟩ := second mid wrote
  refine ⟨b', ?_, wrote.trans wroteMore⟩
  rw [run_bind_of_ok ran, run_bind_of_ok later, List.length_append, UInt64.ofNat_add]
  rfl

/-- A number that fits goes into a field of bits. -/
theorem putField_puts {b : AsnBufBits} (wellFormed : b.WellFormed) {mBytes : List UInt8}
    (least : Least mBytes) (some : mBytes ≠ []) (short : mBytes.length ≤ 4) {m : Nat}
    (least' : 0 < m) (most : m ≤ 32) (fits : ofOctets mBytes < 2 ^ m) :
    ∃ bits, Puts (putField mBytes m) b bits ∧ Writes m (ofOctets mBytes) bits := by
  have bound := least.bound least' fits
  have size := length_flatMap_bitsOf mBytes
  have value := ofBits_flatMap mBytes
  have one : 0 < mBytes.length := List.length_pos_iff.mpr some
  rw [putField]
  dsimp only
  by_cases room : mBytes.length * 8 < m
  · -- Zeros come in front of the octets.
    rw [if_pos room, Nat.min_eq_right (Nat.le_of_lt room)]
    simp only [if_pos (Nat.mul_mod_left mBytes.length 8)]
    have zeros : (([0, 0, 0, 0] : List UInt8).flatMap bitsOf).take (m - mBytes.length * 8) =
        List.replicate (m - mBytes.length * 8) false := by
      have none : ([0, 0, 0, 0] : List UInt8).flatMap bitsOf = List.replicate 32 false := rfl
      rw [none, List.take_replicate, Nat.min_eq_left (by omega)]
    have first := putSeg_puts wellFormed [0, 0, 0, 0] (n := m - mBytes.length * 8)
      (by simp; omega) (by omega)
    rw [zeros] at first
    refine ⟨_, first.add fun b' wrote => putOctets_puts wrote.wellFormed _ short, ?_, ?_⟩
    · rw [List.length_append, List.length_replicate, size]
      omega
    · rw [ofBits_zeros, value]
  · rw [if_neg room, Nat.min_eq_left (Nat.le_of_not_lt room)]
    by_cases even : m % 8 = 0
    · -- The octets fill the field.
      simp only [if_pos even]
      have exactly : mBytes.length * 8 = m := by omega
      obtain ⟨b', ran, wrote⟩ := putOctets_puts wellFormed mBytes short
      refine ⟨_, ⟨b', ?_, wrote⟩, by omega, value⟩
      rw [run_bind_of_ok (show (pure 0 : BitsM UInt64).run b = .ok 0 b from rfl),
        run_bind_of_ok ran, UInt64.zero_add]
      rfl
    · -- The first octet gives its last bits only.
      simp only [if_neg even]
      obtain ⟨c, rest, rfl⟩ := List.exists_cons_of_ne_nil some
      rw [List.length_cons] at room bound size short
      have moved : ((shl c (8 - m % 8) :: [0, 0, 0]).flatMap bitsOf).take (m % 8) =
          (bitsOf c).drop (8 - m % 8) := by
        rw [List.flatMap_cons, bitsOf_shl (by omega), List.append_assoc]
        apply List.take_left'
        rw [List.length_drop, length_bitsOf]
        omega
      have first := putSeg_puts wellFormed (shl c (8 - m % 8) :: [0, 0, 0]) (n := m % 8)
        (by simp; omega) (by omega)
      rw [moved] at first
      have field : Writes m (ofOctets (c :: rest))
          ((bitsOf c).drop (8 - m % 8) ++ rest.flatMap bitsOf) := by
        have dropped : (bitsOf c).drop (8 - m % 8) ++ rest.flatMap bitsOf =
            ((c :: rest).flatMap bitsOf).drop (8 - m % 8) := by
          rw [List.flatMap_cons, List.drop_append_of_le_length (by rw [length_bitsOf]; omega)]
        have width : ((c :: rest).flatMap bitsOf).length - (8 - m % 8) = m := by omega
        rw [dropped]
        constructor
        · rw [List.length_drop, width]
        · rw [ofBits_drop (by rw [width, value]; exact fits), value]
      obtain ⟨mid, ran, wrote⟩ := first
      have start : (pure 0 : BitsM UInt64).run b = .ok 0 b := rfl
      rw [List.headD_cons, List.tail_cons, List.tail_cons, List.length_cons, Nat.add_sub_cancel]
      refine ⟨_, ?_, field⟩
      by_cases more : 1 < rest.length + 1
      · simp only [if_pos more]
        obtain ⟨b', later, wroteRest⟩ := putOctets_puts wrote.wellFormed rest (by omega)
        refine ⟨b', ?_, wrote.trans wroteRest⟩
        rw [run_bind_of_ok start, run_bind_of_ok ran, run_bind_of_ok later, List.length_append,
          UInt64.ofNat_add, UInt64.zero_add]
        rfl
      · simp only [if_neg more]
        obtain rfl : rest = [] := List.eq_nil_of_length_eq_zero (by omega)
        rw [List.flatMap_nil, List.append_nil]
        refine ⟨mid, ?_, wrote⟩
        rw [run_bind_of_ok start, run_bind_of_ok ran, UInt64.zero_add]
        rfl

/-- How an offset is written, from a position in an octet on, where offsets need some bits. -/
def OffsetField (bAlign : Bool) (pos range minBitsNeeded offset : Nat) (bits : List Bool) : Prop :=
  if bAlign then
    if range ≤ 255 then Writes minBitsNeeded offset bits
    else if range < 65536 then
      -- A whole number of octets, from the next octet on.
      ∃ field, Writes (if range = 256 then 8 else 16) offset field ∧
        bits = List.replicate (padding bAlign pos) false ++ field
    else
      -- The number of octets, less one, and the octets.
      ∃ count field octets, octets < 4 ∧ Writes (minBitsNeeded / 8) octets count ∧
        Writes ((octets + 1) * 8) offset field ∧ bits = count ++ field
  else Writes minBitsNeeded offset bits

/-- The range of the offsets, with the number of bits they need. -/
structure Ranged (range minBitsNeeded : Nat) : Prop where
  some : 1 ≤ minBitsNeeded
  most : minBitsNeeded ≤ 31
  least : 2 ≤ range
  enough : range ≤ 2 ^ minBitsNeeded
  tight : 2 ^ (minBitsNeeded - 1) < range

/-- Where more than two octets may be needed, two or three bits hold the number of octets. -/
theorem Ranged.lengthBits {range m : Nat} (ranged : Ranged range m) (wide : 65536 ≤ range) :
    lengthBits m = ((m / 8 : Nat) : Int) ∧ (m / 8 = 2 ∨ m / 8 = 3) := by
  have least : 16 ≤ m := by
    by_contra narrow
    have most : 2 ^ m ≤ 2 ^ 15 := Nat.pow_le_pow_right (by decide) (by omega)
    have enough := ranged.enough
    omega
  have most := ranged.most
  have eighth : m / 8 = 2 ∨ m / 8 = 3 := by omega
  refine ⟨?_, eighth⟩
  rw [Cxx.lengthBits]
  rw [if_pos (by omega)]
  omega

theorem Ranged.narrow {range m : Nat} (ranged : Ranged range m) (small : range ≤ 255) : m ≤ 8 := by
  by_contra wide
  have least : 2 ^ 8 ≤ 2 ^ (m - 1) := Nat.pow_le_pow_right (by decide) (by omega)
  have tight := ranged.tight
  omega

theorem writes_last {c : UInt8} {m : Nat} (most : m ≤ 8) (fits : c.toNat < 2 ^ m) :
    Writes m c.toNat ((bitsOf c).drop (8 - m)) := by
  have width : (bitsOf c).length - (8 - m) = m := by
    rw [length_bitsOf]
    omega
  constructor
  · rw [List.length_drop, width]
  · rw [ofBits_drop (by rw [width, ofBits_bitsOf]; exact fits), ofBits_bitsOf]

theorem ofInt_natCast (n : Nat) : UInt64.ofInt n = .ofNat n := by
  apply UInt64.toNat_inj.mp
  rw [UInt64.ofInt, UInt64.toNat_ofNat', UInt64.toNat_ofNat']
  omega

theorem not_le_word {n range : UInt64} (above : n.toNat < range.toNat) : ¬range ≤ n := by
  rw [UInt64.le_iff_toNat_le]
  omega

theorem Puts.of_run {x y : BitsM UInt64} {b : AsnBufBits} {bits : List Bool}
    (same : x.run b = y.run b) (puts : Puts y b bits) : Puts x b bits := by
  obtain ⟨b', ran, wrote⟩ := puts
  exact ⟨b', same.trans ran, wrote⟩

/-- The octets of an offset are put as the range asks for. -/
theorem pEncOffset_puts {b : AsnBufBits} (wellFormed : b.WellFormed) {range : UInt64} {m : Nat}
    (ranged : Ranged range.toNat m) {mBytes : List UInt8} (least : Least mBytes)
    (some : mBytes ≠ []) (short : mBytes.length ≤ 4) (inside : ofOctets mBytes < range.toNat) :
    ∃ bits, Puts (pEncOffset range m mBytes) b bits ∧
      OffsetField b.bAlign (8 - b.writeBitPos) range.toNat m (ofOctets mBytes) bits := by
  have enough := ranged.enough
  have fits : ofOctets mBytes < 2 ^ m := by omega
  -- An offset below 256 has one octet.
  have single : ofOctets mBytes < 2 ^ 8 → ∃ c, mBytes = [c] ∧ ofOctets mBytes = c.toNat := by
    intro small
    have bound := least.bound (by decide) small
    obtain ⟨c, rest, rfl⟩ := List.exists_cons_of_ne_nil some
    rw [List.length_cons] at bound
    obtain rfl : rest = [] := List.eq_nil_of_length_eq_zero (by omega)
    exact ⟨c, rfl, by simp [ofOctets]⟩
  have gap := putAlignment_puts wellFormed
  simp only [OffsetField]
  by_cases aligned : b.bAlign
  · simp only [if_pos aligned]
    by_cases narrow : range.toNat ≤ 255
    · -- The last bits of the octet.
      have asked : range ≤ 255 := UInt64.le_iff_toNat_le.mpr narrow
      have most := ranged.narrow narrow
      obtain ⟨c, rfl, value⟩ := single (by omega)
      have moved : ((shl c (8 - m) :: [0, 0, 0]).flatMap bitsOf).take m =
          (bitsOf c).drop (8 - m) := by
        rw [List.flatMap_cons, bitsOf_shl (by omega), List.append_assoc]
        apply List.take_left'
        rw [List.length_drop, length_bitsOf]
        omega
      have put := putSeg_puts wellFormed (shl c (8 - m) :: [0, 0, 0]) (n := m)
        (by simp; omega) (by omega)
      rw [moved] at put
      simp only [if_pos narrow, value]
      refine ⟨_, put.of_run ?_, writes_last most (by omega)⟩
      rw [pEncOffset, run_bind_of_ok (EStateM.run_get b), if_pos aligned, if_pos asked]
      rfl
    · simp only [if_neg narrow]
      have more : ¬range ≤ 255 := not_le_word (by simpa using narrow)
      by_cases middle : range.toNat < 65536
      · simp only [if_pos middle]
        have asked : range < 65536 := UInt64.lt_iff_toNat_lt.mpr middle
        by_cases octet : range.toNat = 256
        · -- One octet behind the gap.
          have exactly : range = 256 := UInt64.toNat_inj.mp octet
          obtain ⟨c, rfl, value⟩ := single (by omega)
          have put : ∀ b' : AsnBufBits, b'.WellFormed → Puts (putSeg [c, 0, 0, 0] 8) b' (bitsOf c) :=
            fun b' here => putSeg_puts here _ (by simp) (by decide)
          simp only [if_pos octet, value]
          refine ⟨_, (gap.add fun b' wrote => put b' wrote.wellFormed).of_run ?_, bitsOf c,
            ⟨length_bitsOf c, ofBits_bitsOf c⟩, rfl⟩
          rw [pEncOffset, run_bind_of_ok (EStateM.run_get b), if_pos aligned, if_neg more,
            if_pos exactly]
          rfl
        · have other : ¬range = 256 := fun same => octet (by rw [same]; rfl)
          simp only [if_neg octet]
          have bound := least.bound (m := 16) (by decide) (by omega)
          by_cases one : mBytes.length < 2
          · -- A zero octet in front of the only one.
            obtain ⟨c, rest, rfl⟩ := List.exists_cons_of_ne_nil some
            rw [List.length_cons] at one
            obtain rfl : rest = [] := List.eq_nil_of_length_eq_zero (by omega)
            have zeros : ∀ b' : AsnBufBits, b'.WellFormed →
                Puts (putSeg [0, 0, 0, 0] 8) b' (List.replicate 8 false) :=
              fun b' here => putSeg_puts here _ (by simp) (by decide)
            have put := (gap.add fun b' wrote => zeros b' wrote.wellFormed).add
              fun b' wrote => putOctets_puts wrote.wellFormed _ short
            refine ⟨_, put.of_run ?_, List.replicate 8 false ++ [c].flatMap bitsOf, ⟨?_, ?_⟩, ?_⟩
            · rw [pEncOffset, run_bind_of_ok (EStateM.run_get b), if_pos aligned, if_neg more,
                if_neg other, if_pos asked]
              have short : [c].length < 2 := Nat.lt_succ_self 1
              simp only [if_pos short, bind_assoc, pure_bind]
            · simp
            · rw [ofBits_zeros, ofBits_flatMap]
            · rw [List.append_assoc]
          · have two : mBytes.length = 2 := by omega
            have put := gap.add fun b' wrote => putOctets_puts wrote.wellFormed _ short
            refine ⟨_, put.of_run ?_, mBytes.flatMap bitsOf, ⟨?_, ofBits_flatMap mBytes⟩, rfl⟩
            · rw [pEncOffset, run_bind_of_ok (EStateM.run_get b), if_pos aligned, if_neg more,
                if_neg other, if_pos asked]
              simp only [if_neg one]
            · rw [length_flatMap_bitsOf, two]
      · -- The octets follow the number of them.
        simp only [if_neg middle]
        have wide : ¬range < 65536 := fun asked => middle (UInt64.lt_iff_toNat_lt.mp asked)
        have other : ¬range = 256 := fun same => middle (by rw [same]; decide)
        obtain ⟨width, eighth⟩ := ranged.lengthBits (Nat.le_of_not_lt middle)
        obtain ⟨x, stored, leastCount, someCount, shortCount, count⟩ :=
          offset_octets (t := mBytes.length - 1) (by omega)
        have one : 0 < mBytes.length := List.length_pos_iff.mpr some
        have cast : ((mBytes.length - 1 : Nat) : Int) = mBytes.length - 1 := by omega
        have fitsCount : ofOctets x.dropZero.mBytes < 2 ^ (m / 8) := by
          have least : 2 ^ 2 ≤ 2 ^ (m / 8) := Nat.pow_le_pow_right (by decide) (by omega)
          omega
        obtain ⟨bits, put, writes⟩ := putField_puts wellFormed leastCount someCount shortCount
          (m := m / 8) (by omega) (by omega) fitsCount
        have both := put.add fun b' wrote => putOctets_puts wrote.wellFormed _ short
        refine ⟨_, both.of_run ?_, bits, mBytes.flatMap bitsOf, mBytes.length - 1, by omega,
          count ▸ writes, ⟨?_, ofBits_flatMap mBytes⟩, rfl⟩
        · rw [pEncOffset, run_bind_of_ok (EStateM.run_get b), if_pos aligned, if_neg more,
            if_neg other, if_neg wide, ← cast, stored, width]
          rfl
        · rw [length_flatMap_bitsOf]
          omega
  · -- The offset goes into a field of the bits it needs.
    have most := ranged.most
    obtain ⟨bits, put, writes⟩ := putField_puts wellFormed least some short ranged.some
      (Nat.le_succ_of_le most) fits
    simp only [if_neg aligned]
    refine ⟨bits, put.of_run ?_, writes⟩
    rw [pEncOffset, run_bind_of_ok (EStateM.run_get b), if_neg aligned]

/-! ## Reading -/

/-- Reading the bits that come next. -/
theorem AsnBufBits.Stands.getBits {b : AsnBufBits} {pos : Nat} {bits more : List Bool}
    (stands : b.Stands pos (bits ++ more)) (countable : (bits ++ more).length < 2 ^ 64) {n : Nat}
    (size : bits.length = n) :
    ∃ octets b', (getBits (.ofNat n)).run b = .ok octets b' ∧
      (octets.flatMap bitsOf).take n = bits ∧ b'.bAlign = b.bAlign ∧
      b'.Stands (pos + n) more := by
  have left := stands.enough countable
  obtain ⟨stored, front⟩ := stands.front
  rw [size] at left stored front
  have bound := b.bitsLeft.toNat_lt
  have word : (UInt64.ofNat n).toNat = n := by
    rw [UInt64.toNat_ofNat']
    omega
  obtain ⟨octets, b', ran, same, read⟩ := getBits_read (n := .ofNat n) stands.wellFormed
    (UInt64.le_iff_toNat_le.mpr (by omega)) (by omega)
  rw [word] at same read
  have behind := stands.read (size.symm ▸ read)
  rw [size] at behind
  exact ⟨octets, b', ran, same.trans front, read.bAlign, behind⟩

theorem ofOctets_take {octets : List UInt8} {bits : List Bool} {n : Nat}
    (size : bits.length = 8 * n) (front : (octets.flatMap bitsOf).take (8 * n) = bits) :
    n ≤ octets.length ∧ ofOctets (octets.take n) = ofBits bits := by
  have lengths := congrArg List.length front
  rw [List.length_take, length_flatMap_bitsOf, size] at lengths
  rw [take_flatMap_bitsOf, Nat.mul_div_cancel_left n (by decide), Nat.mul_mod_right,
    List.take_zero, List.append_nil] at front
  exact ⟨by omega, by rw [← ofBits_flatMap, front]⟩

theorem joinOctets_eq {seg : List UInt8} {n : Nat} (least : 1 ≤ n) (within : n ≤ seg.length) :
    joinOctets seg n = ofOctets (seg.take n) := by
  obtain ⟨k, rfl⟩ := Nat.exists_eq_add_of_le' least
  cases seg with
  | nil => simp at within
  | cons c rest =>
    rw [joinOctets, List.headD_cons, List.tail_cons, Nat.add_sub_cancel, List.take_succ_cons,
      ofOctets, List.foldl_cons, Nat.mul_zero, Nat.zero_add]
    congr 1
    funext n d
    exact shiftLeft_or_octet n d

/-- The first bits that were read, moved to the end of their octet. -/
theorem toNat_shr_headD {octets : List UInt8} {bits : List Bool} {w : Nat} (least : 1 ≤ w)
    (most : w ≤ 8) (size : bits.length = w) (front : (octets.flatMap bitsOf).take w = bits) :
    (shr (octets.headD 0) (8 - w)).toNat = ofBits bits := by
  cases octets with
  | nil =>
    rw [List.flatMap_nil, List.take_nil] at front
    rw [← front] at size
    simp only [List.length_nil] at size
    omega
  | cons c rest =>
    rw [List.flatMap_cons, List.take_append_of_le_length (by rw [length_bitsOf]; exact most)]
      at front
    rw [List.headD_cons, ← ofBits_bitsOf, bitsOf_shr (by omega), ofBits_zeros,
      show 8 - (8 - w) = w by omega, front]

/-- Moving octets to the right moves all their bits, behind the last bits of the one before. -/
theorem shiftOctets_bits {oddBits : Nat} (most : oddBits ≤ 8) (before : UInt8)
    (seg : List UInt8) : (shiftOctets oddBits before seg).flatMap bitsOf =
      ((bitsOf before).drop oddBits ++ seg.flatMap bitsOf).take (8 * seg.length) := by
  induction seg generalizing before with
  | nil => rw [List.length_nil, Nat.mul_zero, List.take_zero]; rfl
  | cons c rest ih =>
    have held := holds_shl (c := before) most
    have size : ((bitsOf before).drop oddBits).length = 8 - oddBits := by
      rw [List.length_drop, length_bitsOf]
    have joined := held.or_shr c
    rw [size, show 8 - (8 - oddBits) = oddBits by omega] at joined
    have octet : ((bitsOf before).drop oddBits ++ (bitsOf c).take oddBits).length = 8 := by
      rw [List.length_append, size, List.length_take, length_bitsOf]
      omega
    -- The octet's own bits are split between it and the next one.
    have split : (bitsOf before).drop oddBits ++ (c :: rest).flatMap bitsOf =
        (bitsOf before).drop oddBits ++ (bitsOf c).take oddBits ++
          ((bitsOf c).drop oddBits ++ rest.flatMap bitsOf) := by
      rw [List.flatMap_cons, List.append_assoc, ← List.append_assoc ((bitsOf c).take oddBits),
        List.take_append_drop]
    have cut : ∀ x y : List Bool, x.length = 8 →
        (x ++ y).take (8 * (rest.length + 1)) = x ++ y.take (8 * rest.length) := by
      intro x y eight
      rw [List.take_append, List.take_of_length_le (by omega), eight,
        show 8 * (rest.length + 1) - 8 = 8 * rest.length by omega]
    rw [shiftOctets, List.flatMap_cons, ih, UInt8.or_comm, joined, split, List.length_cons,
      cut _ _ octet]

theorem length_shiftOctets (oddBits : Nat) (before : UInt8) (seg : List UInt8) :
    (shiftOctets oddBits before seg).length = seg.length := by
  induction seg generalizing before with
  | nil => rfl
  | cons c rest ih => rw [shiftOctets, List.length_cons, ih, List.length_cons]

/-- Bits that do not fill octets are joined once they are moved to the end of them. -/
theorem joinOctets_shiftOctets {octets : List UInt8} {bits : List Bool} {m : Nat}
    (odd : m % 8 ≠ 0) (size : bits.length = m) (front : (octets.flatMap bitsOf).take m = bits) :
    joinOctets (shiftOctets (m % 8) 0 (octets.take (m / 8 + 1))) (m / 8 + 1) = ofBits bits := by
  have lengths := congrArg List.length front
  rw [List.length_take, length_flatMap_bitsOf, size] at lengths
  have within : (octets.take (m / 8 + 1)).length = m / 8 + 1 := by
    rw [List.length_take]
    omega
  have moved := length_shiftOctets (m % 8) 0 (octets.take (m / 8 + 1))
  rw [joinOctets_eq (by omega) (by omega), List.take_of_length_le (by omega), ← ofBits_flatMap,
    shiftOctets_bits (by omega), within]
  have zeros : (bitsOf 0).drop (m % 8) = List.replicate (8 - m % 8) false := by
    have none : bitsOf 0 = List.replicate 8 false := rfl
    rw [none, List.drop_replicate]
  have kept : ((octets.take (m / 8 + 1)).flatMap bitsOf).take m = bits := by
    have split : ((octets.take (m / 8 + 1) ++ octets.drop (m / 8 + 1)).flatMap bitsOf).take m =
        bits := by
      rw [List.take_append_drop, front]
    rwa [List.flatMap_append, List.take_append_of_le_length
      (by rw [length_flatMap_bitsOf]; omega)] at split
  rw [zeros, List.take_append, List.length_replicate,
    List.take_of_length_le (by rw [List.length_replicate]; omega),
    show 8 * (m / 8 + 1) - (8 - m % 8) = m by omega, kept, ofBits_zeros]

/-- An offset is got back from the field that writes it. -/
theorem pDecOffset_gets {b : AsnBufBits} {pos : Nat} {range : UInt64} {m t : Nat}
    {bits more : List Bool} (ranged : Ranged range.toNat m)
    (field : OffsetField b.bAlign pos range.toNat m t bits) (stands : b.Stands pos (bits ++ more))
    (countable : (bits ++ more).length < 2 ^ 64) :
    ∃ b', (pDecOffset range m).run b = .ok (t, .ofNat bits.length) b' ∧
      b'.Stands (pos + bits.length) more := by
  rw [OffsetField] at field
  by_cases aligned : b.bAlign
  · rw [if_pos aligned] at field
    by_cases narrow : range.toNat ≤ 255
    · have asked : range ≤ 255 := UInt64.le_iff_toNat_le.mpr narrow
      rw [if_pos narrow] at field
      obtain ⟨size, value⟩ := field
      obtain ⟨octets, b', ran, front, -, behind⟩ := stands.getBits countable size
      refine ⟨b', ?_, size.symm ▸ behind⟩
      rw [pDecOffset, run_bind_of_ok (EStateM.run_get b), if_pos aligned, if_pos asked,
        run_bind_of_ok ran, toNat_shr_headD ranged.some (ranged.narrow narrow) size front, value,
        size]
      rfl
    · have above : ¬range ≤ 255 := not_le_word (by simpa using narrow)
      rw [if_neg narrow] at field
      by_cases middle : range.toNat < 65536
      · have asked : range < 65536 := UInt64.lt_iff_toNat_lt.mpr middle
        rw [if_pos middle] at field
        obtain ⟨octets, ⟨size, value⟩, rfl⟩ := field
        rw [List.append_assoc] at stands countable
        have behindGap : (octets ++ more).length < 2 ^ 64 := by
          rw [List.length_append] at countable
          omega
        obtain ⟨mid, skips, -, next⟩ := stands.octetAlignRead
        by_cases octet : range.toNat = 256
        · have exactly : range = 256 := UInt64.toNat_inj.mp octet
          rw [if_pos octet] at size
          obtain ⟨seg, b', ran, front, -, behind⟩ := next.getBits behindGap size
          -- A whole octet is not moved.
          have moved := toNat_shr_headD (by decide) (by decide) size front
          rw [Nat.sub_self, shr_zero, value] at moved
          refine ⟨b', ?_, ?_⟩
          · rw [pDecOffset, run_bind_of_ok (EStateM.run_get b), if_pos aligned, if_neg above,
              if_pos exactly, run_bind_of_ok skips, show (8 : UInt64) = .ofNat 8 from rfl,
              run_bind_of_ok ran, moved, List.length_append, List.length_replicate, size,
              UInt64.ofNat_add]
            rfl
          · rwa [List.length_append, List.length_replicate, size, ← Nat.add_assoc]
        · have other : ¬range = 256 := fun same => octet (by rw [same]; rfl)
          rw [if_neg octet] at size
          obtain ⟨seg, b', ran, front, -, behind⟩ := next.getBits behindGap size
          obtain ⟨within, joined⟩ := ofOctets_take (n := 2) size front
          refine ⟨b', ?_, ?_⟩
          · rw [pDecOffset, run_bind_of_ok (EStateM.run_get b), if_pos aligned, if_neg above,
              if_neg other, if_pos asked, run_bind_of_ok skips,
              show (16 : UInt64) = .ofNat 16 from rfl, run_bind_of_ok ran,
              joinOctets_eq (by decide) within, joined, value, List.length_append,
              List.length_replicate, size, UInt64.ofNat_add]
            rfl
          · rwa [List.length_append, List.length_replicate, size, ← Nat.add_assoc]
      · have wide : ¬range < 65536 := fun asked => middle (UInt64.lt_iff_toNat_lt.mp asked)
        have other : ¬range = 256 := fun same => middle (by rw [same]; decide)
        obtain ⟨width, eighth⟩ := ranged.lengthBits (Nat.le_of_not_lt middle)
        rw [if_neg middle] at field
        obtain ⟨count, octets, n, few, ⟨countSize, countValue⟩, ⟨size, value⟩, rfl⟩ := field
        rw [List.append_assoc] at stands countable
        have behindCount : (octets ++ more).length < 2 ^ 64 := by
          rw [List.length_append] at countable
          omega
        obtain ⟨seg, mid, ranCount, frontCount, -, next⟩ := stands.getBits countable countSize
        obtain ⟨seg', b', ran, front, -, behind⟩ := next.getBits behindCount size
        have number := toNat_shr_headD (by omega) (by omega) countSize frontCount
        rw [countValue] at number
        have whole : octets.length = 8 * (n + 1) := by omega
        rw [Nat.mul_comm] at front
        obtain ⟨within, joined⟩ := ofOctets_take whole front
        have asked := ofInt_natCast (m / 8)
        have rest : (((m / 8 : Nat) : Int).tmod 8).toNat = m / 8 := by
          rcases eighth with two | three
          · rw [two]
            rfl
          · rw [three]
            rfl
        refine ⟨b', ?_, ?_⟩
        · rw [pDecOffset, run_bind_of_ok (EStateM.run_get b), if_pos aligned, if_neg above,
            if_neg other, if_neg wide]
          dsimp only
          rw [width, asked, run_bind_of_ok ranCount]
          rw [rest, number, if_neg (by omega), run_bind_of_ok ran, joinOctets_eq (by omega) within,
            joined, value, List.length_append, countSize, size, UInt64.ofNat_add]
          rfl
        · rwa [List.length_append, countSize, size, ← Nat.add_assoc]
  · rw [if_neg aligned] at field
    obtain ⟨size, value⟩ := field
    obtain ⟨octets, b', ran, front, -, behind⟩ := stands.getBits countable size
    refine ⟨b', ?_, size.symm ▸ behind⟩
    rw [pDecOffset, run_bind_of_ok (EStateM.run_get b), if_neg aligned, run_bind_of_ok ran]
    dsimp only
    by_cases even : m % 8 = 0
    · have some := ranged.some
      have whole : bits.length = 8 * (m / 8) := by omega
      rw [show m = 8 * (m / 8) by omega] at front
      obtain ⟨within, joined⟩ := ofOctets_take whole front
      rw [if_pos even, joinOctets_eq (by omega) within, joined, value, size]
      rfl
    · rw [if_neg even, joinOctets_shiftOctets even size front, value, size]
      rfl

end Esnacc.Cxx
