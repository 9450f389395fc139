import Esnacc.Cxx.PerLists

/-! Which C++ lists are got back from the PER that the constraint on their size asks for. -/

namespace Esnacc.Cxx

open Lib

variable {β : Type} (element : PerElement β) {constraint : AsnList.SizeConstraint} {xs : List β}

/-! ## One size only -/

/-- A list of the only size is put twice, one time behind the other. -/
theorem AsnList.pEnc_fixed_puts (fixed : constraint.upperBoundExists = 0)
    (count : xs.length = constraint.lowerBound.toNat) (few : xs.length < 2 ^ 32) {b : AsnBufBits}
    (wellFormed : b.WellFormed) {pos : Nat} (position : (8 - b.writeBitPos) % 8 = pos % 8) :
    Puts (AsnList.pEnc element.pEnc (some constraint) xs) b
      (element.all b.bAlign pos xs ++
        element.all b.bAlign (pos + (element.all b.bAlign pos xs).length) xs) := by
  have size : UInt64.ofNat xs.length = constraint.lowerBound.toUInt32.toUInt64 := by
    -- Narrowing keeps a number below 2³².
    apply UInt64.toNat_inj.mp
    rw [UInt64.toNat_ofNat', UInt32.toNat_toUInt64, UInt64.toNat_toUInt32, ← count]
    omega
  have both := (element.encodeElements_puts wellFormed position xs).add fun b' wrote => by
    have place := wrote.position
    have next : (8 - b'.writeBitPos) % 8 =
        (pos + (element.all b.bAlign pos xs).length) % 8 := by omega
    have again := element.encodeElements_puts wrote.wellFormed next xs
    rwa [wrote.bAlign] at again
  refine both.of_run ?_
  unfold AsnList.pEnc AsnList.pEncSize
  simp only [if_pos fixed, size, ne_eq, not_true_eq_false, if_false]

/-- Which lists of the only size are got back: those that no bits are put for a second time. -/
theorem AsnList.fixed_round_trip_iff (fixed : constraint.upperBoundExists = 0)
    (count : xs.length = constraint.lowerBound.toNat) (turns : Nat) (bAlign : Bool) (pos : Nat) :
    RoundTrips bAlign pos (AsnList.pEnc element.pEnc (some constraint) xs)
        (AsnList.pDec element.pDec turns (some constraint)) (· = xs) ↔
      xs.length < 2 ^ 32 ∧
        (Countable pos (element.all bAlign pos xs ++
            element.all bAlign (pos + (element.all bAlign pos xs).length) xs) →
          element.all bAlign (pos + (element.all bAlign pos xs).length) xs = []) := by
  have dec : xs.length < 2 ^ 32 → AsnList.pDec element.pDec turns (some constraint) =
      decodeElements element.pDec xs.length := by
    intro few
    unfold AsnList.pDec
    simp only [if_pos fixed]
    rw [count]
    exact decodeBelowUnsigned_of_lt (by omega)
  constructor
  · intro trips
    obtain ⟨b, wellFormed, mode, position, len, b₁, ran, reads⟩ := trips.got
    -- A size of 2³² or more is refused.
    have few : xs.length < 2 ^ 32 := by
      by_contra many
      have other : UInt64.ofNat xs.length ≠ constraint.lowerBound.toUInt32.toUInt64 := by
        intro same
        have numbers := congrArg UInt64.toNat same
        have bound := constraint.lowerBound.toNat_lt
        rw [UInt64.toNat_ofNat', UInt32.toNat_toUInt64, UInt64.toNat_toUInt32] at numbers
        omega
      unfold AsnList.pEnc AsnList.pEncSize at ran
      simp only [if_pos fixed, if_pos other] at ran
      cases ran
    refine ⟨few, fun room => ?_⟩
    obtain ⟨b', ran', wrote⟩ := AsnList.pEnc_fixed_puts element fixed count few wellFormed position
    rw [ran] at ran'
    cases ran'
    rw [mode] at wrote reads
    obtain ⟨r, y, r', modeRead, stands, got, -, -⟩ := reads _ wrote room
    rw [dec few] at got
    -- The reader counts the first copy, and the writer both of them.
    have short : (element.all bAlign pos xs ++
        element.all bAlign (pos + (element.all bAlign pos xs).length) xs).length < 2 ^ 64 := by
      unfold Countable at room
      omega
    obtain ⟨ys, r'', first, -, -, -⟩ :=
      element.decodeElements_gets bAlign pos xs r _ modeRead stands short 0
    rw [got] at first
    have counts := congrArg (fun result : EStateM.Result Thrown AsnBufBits (List β × AsnLen) =>
      match result with
      | .ok (_, len) _ => len.toNat
      | .error _ _ => 0) first
    simp only [UInt64.zero_add, UInt64.toNat_ofNat'] at counts
    rw [List.length_append] at counts short
    apply List.eq_nil_of_length_eq_zero
    omega
  · rintro ⟨few, none⟩
    apply roundTrips_of_countable
    intro b wellFormed mode position
    obtain ⟨b', ran, wrote⟩ := AsnList.pEnc_fixed_puts element fixed count few wellFormed position
    rw [mode] at wrote ran
    refine ⟨_, b', _, ran, wrote, fun room => ⟨rfl, ?_⟩⟩
    rw [none room, List.append_nil, dec few]
    exact element.decodeElements_gets bAlign pos xs

/-! ## A size between two gaps -/

/-- The bits of a size, with the gaps that the alignments on both sides of it put. -/
def betweenGaps (bAlign : Bool) (pos : Nat) (field : List Bool) : List Bool :=
  List.replicate (padding bAlign pos) false ++
    (field ++ List.replicate (padding bAlign (pos + padding bAlign pos + field.length)) false)

/-- The bits of a list behind its size. -/
def PerElement.sized (element : PerElement β) (bAlign : Bool) (pos : Nat) (field : List Bool)
    (xs : List β) : List Bool :=
  let front := betweenGaps bAlign pos field
  front ++ element.all bAlign (pos + front.length) xs

theorem AsnBufBits.gap_eq {b : AsnBufBits} {pos : Nat}
    (position : (8 - b.writeBitPos) % 8 = pos % 8) :
    b.gap = List.replicate (padding b.bAlign pos) false := by
  rw [gap, padding_congr fun _ => position]

/-- A size that is put is put between gaps as well. -/
theorem Puts.between {x : BitsM UInt64} {b : AsnBufBits} (wellFormed : b.WellFormed) {pos : Nat}
    (position : (8 - b.writeBitPos) % 8 = pos % 8) {field : List Bool}
    (puts : ∀ b' : AsnBufBits, b'.WellFormed → Puts x b' field) :
    Puts (do
      let sum ← putAlignment
      let sum := sum + (← x)
      return sum + (← putAlignment)) b (betweenGaps b.bAlign pos field) := by
  have first := (putGap_puts wellFormed).add fun b' wrote => puts b' wrote.wellFormed
  rw [AsnBufBits.gap_eq position] at first
  have all := first.add fun b' wrote => by
    -- The second gap is the one behind the size.
    have place := wrote.position
    rw [List.length_append, List.length_replicate] at place
    have next : (8 - b'.writeBitPos) % 8 = (pos + padding b.bAlign pos + field.length) % 8 := by
      omega
    have gap := putGap_puts wrote.wellFormed
    rwa [AsnBufBits.gap_eq next, wrote.bAlign] at gap
  rw [betweenGaps, ← List.append_assoc]
  simpa only [bind_assoc, pure_bind] using all

/-- A size that is got is got between gaps as well, and taken for a number. -/
theorem Gets.between {α γ : Type} {bAlign : Bool} {pos : Nat} {field : List Bool}
    {pDec : UInt64 → BitsM (α × UInt64)} {same : α → Prop}
    (gets : Gets bAlign (pos + padding bAlign pos) field pDec same) (number : α → Except Thrown γ)
    {z : γ} (taken : ∀ x, same x → number x = .ok z) :
    Gets bAlign pos (betweenGaps bAlign pos field)
      (fun bitsDecoded => do
        let skipped ← octetAlignRead
        let (x, bitsDecoded) ← pDec (bitsDecoded + .ofNat skipped)
        let skipped ← octetAlignRead
        let n ← ofExcept (number x)
        return (n, bitsDecoded + .ofNat skipped)) (· = z) := by
  -- Behind the size the number is known, and so only the second gap is left.
  have second : ∀ x, same x → Gets bAlign (pos + padding bAlign pos + field.length)
      (List.replicate (padding bAlign (pos + padding bAlign pos + field.length)) false)
      (fun bitsDecoded => do
        let skipped ← octetAlignRead
        let n ← ofExcept (number x)
        return (n, bitsDecoded + .ofNat skipped)) (· = z) := by
    intro x right
    have gap := (gets_pure bAlign (pos + padding bAlign pos + field.length +
      padding bAlign (pos + padding bAlign pos + field.length)) z).align
    rw [List.append_nil] at gap
    rw [taken x right]
    simpa only [ofExcept_ok, pure_bind] using gap
  exact (gets.bind _ second).align

/-! ## Both bounds -/

/-- The difference of the bounds, as the routines compute it. -/
@[grind =] def AsnList.SizeConstraint.range (constraint : SizeConstraint) : Int :=
  (constraint.upperBound - constraint.lowerBound).toInt64.toInt

/-- The number of bits that the difference of the bounds needs. -/
def AsnList.SizeConstraint.bitsNeeded (constraint : SizeConstraint) : Nat :=
  constraint.range.toNat.size

/-- A word is read as itself, or as negative where its top bit is set. -/
theorem toInt_toInt64 (n : UInt64) :
    n.toNat < 2 ^ 63 ∧ n.toInt64.toInt = n.toNat ∨
      2 ^ 63 ≤ n.toNat ∧ n.toInt64.toInt = n.toNat - 2 ^ 64 := by
  have bound := n.toNat_lt
  have read : n.toInt64.toInt = (n.toNat : Int).bmod (2 ^ 64) := BitVec.toInt_eq_toNat_bmod _
  rw [read]
  by_cases small : n.toNat < 2 ^ 63
  · exact .inl ⟨small, Int.bmod_eq_of_le (by omega) (by omega)⟩
  · refine .inr ⟨Nat.le_of_not_lt small, ?_⟩
    have moved : (n.toNat : Int) = (n.toNat - 2 ^ 64) + (2 ^ 64 : Nat) := by omega
    rw [moved, Int.add_bmod_right]
    push_cast
    rw [Int.add_sub_cancel]
    exact Int.bmod_eq_of_le (by omega) (by omega)

theorem toNat_numExtra {lowerBound : UInt64} {count : Nat} (most : count < 2 ^ 64)
    (least : lowerBound.toNat ≤ count) :
    (UInt64.ofNat count - lowerBound).toNat = count - lowerBound.toNat := by
  have size : (UInt64.ofNat count).toNat = count := by
    rw [UInt64.toNat_ofNat']
    omega
  rw [UInt64.toNat_sub_of_le _ _ (UInt64.le_iff_toNat_le.mpr (by omega)), size]

/-- The field of a size between both bounds. -/
def AsnList.SizeConstraint.rangeField (constraint : SizeConstraint) (count : Nat) : List Bool :=
  sizeField constraint.bitsNeeded (count - constraint.lowerBound.toNat)

theorem AsnList.SizeConstraint.minBits_range (small : constraint.range < 2 ^ 31) :
    minBits constraint.range 0 = .ok constraint.bitsNeeded := by
  by_cases positive : 0 ≤ constraint.range
  · have number : (constraint.range.toNat : Int) = constraint.range := Int.toNat_of_nonneg positive
    have bits := minBits_natCast (n := constraint.range.toNat) (by omega)
    rwa [number] at bits
  · -- A difference that reads as negative needs no bits.
    have none : constraint.range.toNat = 0 := by omega
    rw [minBits_of_nonpos (by omega), bitsNeeded, none, Nat.size_zero]

/-- A size between the bounds is put in its field. -/
theorem putSizeOver_range_puts (least : constraint.lowerBound.toNat ≤ xs.length)
    (most : xs.length ≤ constraint.upperBound.toNat) {b : AsnBufBits} (wellFormed : b.WellFormed) :
    Puts (putSizeOver constraint.bitsNeeded
      (UInt64.ofNat xs.length - constraint.lowerBound).toInt64.toInt) b
      (constraint.rangeField xs.length) := by
  have bound := constraint.upperBound.toNat_lt
  have small : xs.length < 2 ^ 64 := by omega
  have extra := toNat_numExtra small least
  rw [AsnList.SizeConstraint.rangeField]
  rcases toInt_toInt64 (UInt64.ofNat xs.length - constraint.lowerBound) with ⟨-, same⟩ | ⟨large, -⟩
  · rw [same, extra]
    exact putSizeOver_puts wellFormed _ _
  · -- A difference that does not fit into a `long` needs no bits.
    have order : constraint.lowerBound ≤ constraint.upperBound :=
      UInt64.le_iff_toNat_le.mpr (by omega)
    have width := UInt64.toNat_sub_of_le _ _ order
    have negative : constraint.range.toNat = 0 := by
      rw [AsnList.SizeConstraint.range]
      rcases toInt_toInt64 (constraint.upperBound - constraint.lowerBound) with
        ⟨small, -⟩ | ⟨-, value⟩ <;> omega
    rw [AsnList.SizeConstraint.bitsNeeded, negative, Nat.size_zero]
    have none : sizeField 0 (xs.length - constraint.lowerBound.toNat) = [] := rfl
    rw [none]
    exact putSeg_puts wellFormed _ (n := 0) (by simp) (by decide)

/-- A list between the bounds is put behind its size. -/
theorem AsnList.pEnc_range_puts (both : constraint.upperBoundExists = 1)
    (least : constraint.lowerBound.toNat ≤ xs.length)
    (most : xs.length ≤ constraint.upperBound.toNat) (small : constraint.range < 2 ^ 31)
    {b : AsnBufBits} (wellFormed : b.WellFormed) {pos : Nat}
    (position : (8 - b.writeBitPos) % 8 = pos % 8) :
    Puts (AsnList.pEnc element.pEnc (some constraint) xs) b
      (element.sized b.bAlign pos (constraint.rangeField xs.length) xs) := by
  have bound := constraint.upperBound.toNat_lt
  have size : (UInt64.ofNat xs.length).toNat = xs.length := by
    rw [UInt64.toNat_ofNat']
    omega
  have inside : ¬(UInt64.ofNat xs.length < constraint.lowerBound ∨
      constraint.upperBound < UInt64.ofNat xs.length) := by
    rw [UInt64.lt_iff_toNat_lt, UInt64.lt_iff_toNat_lt, size]
    omega
  have front := Puts.between wellFormed position fun b' here =>
    putSizeOver_range_puts least most here
  have all := front.add fun b' wrote => by
    have place := wrote.position
    have next : (8 - b'.writeBitPos) % 8 =
        (pos + (betweenGaps b.bAlign pos (constraint.rangeField xs.length)).length) % 8 := by omega
    have elements := element.encodeElements_puts wrote.wellFormed next xs
    rwa [wrote.bAlign] at elements
  refine all.of_run ?_
  have counted := constraint.minBits_range small
  rw [AsnList.SizeConstraint.range] at counted
  have other : ¬constraint.upperBoundExists = 0 := by
    rw [both]
    decide
  unfold AsnList.pEnc AsnList.pEncSize
  simp only [if_neg other, if_pos both, if_neg inside, counted, ofExcept_ok, pure_bind, bind_assoc]

/-- The number of elements that a reader takes from the field of a size. -/
def AsnList.SizeConstraint.decodeSize (constraint : SizeConstraint) (count : Nat) : Int :=
  (UInt64.ofNat ((count - constraint.lowerBound.toNat) % 2 ^ fieldWidth constraint.bitsNeeded) +
    constraint.lowerBound).toInt64.toInt

theorem AsnList.getRangeSize_gets (small : constraint.range < 2 ^ 31) (bAlign : Bool)
    (pos count : Nat) :
    Gets bAlign pos (betweenGaps bAlign pos (constraint.rangeField count))
      (AsnList.getRangeSize constraint) (· = constraint.decodeSize count) := by
  have field := getSizeOver_gets bAlign (pos + padding bAlign pos) constraint.bitsNeeded
    (count - constraint.lowerBound.toNat)
  have gets := field.between
    (fun n => .ok (UInt64.ofNat n + constraint.lowerBound).toInt64.toInt)
    (z := constraint.decodeSize count) fun n same => by
      rw [same]
      rfl
  have counted := constraint.minBits_range small
  rw [AsnList.SizeConstraint.range] at counted
  simp only [ofExcept_ok, pure_bind] at gets
  unfold AsnList.getRangeSize
  simp only [counted, ofExcept_ok, pure_bind]
  exact gets

/-- A size whose bits the field has is read back. -/
theorem AsnList.SizeConstraint.decodeSize_of_fits {count : Nat}
    (least : constraint.lowerBound.toNat ≤ count) (few : count < 2 ^ 31)
    (fits : count - constraint.lowerBound.toNat < 2 ^ fieldWidth constraint.bitsNeeded) :
    constraint.decodeSize count = count := by
  have word : (UInt64.ofNat (count - constraint.lowerBound.toNat) + constraint.lowerBound).toNat =
      count := by
    rw [UInt64.toNat_add, UInt64.toNat_ofNat']
    omega
  rw [decodeSize, Nat.mod_eq_of_lt fits]
  -- A number below 2³¹ does not read as negative.
  rcases toInt_toInt64 (UInt64.ofNat (count - constraint.lowerBound.toNat) + constraint.lowerBound)
    with ⟨-, value⟩ | ⟨large, -⟩ <;> omega

/-- A size that is read back has all its bits in the field. -/
theorem AsnList.SizeConstraint.fits_of_decodeSize {count : Nat}
    (least : constraint.lowerBound.toNat ≤ count) (most : count < 2 ^ 64)
    (few : constraint.decodeSize count < 2 ^ 31)
    (all : count = (constraint.decodeSize count).toNat) :
    count - constraint.lowerBound.toNat < 2 ^ fieldWidth constraint.bitsNeeded ∧
      count < 2 ^ 31 := by
  have below := Nat.mod_le (count - constraint.lowerBound.toNat)
    (2 ^ fieldWidth constraint.bitsNeeded)
  rw [decodeSize] at few all
  obtain ⟨rest, same⟩ : ∃ rest, (count - constraint.lowerBound.toNat) %
    2 ^ fieldWidth constraint.bitsNeeded = rest := ⟨_, rfl⟩
  rw [same] at few all below
  have word : (UInt64.ofNat rest + constraint.lowerBound).toNat =
      rest + constraint.lowerBound.toNat := by
    rw [UInt64.toNat_add, UInt64.toNat_ofNat']
    omega
  have whole : rest = count - constraint.lowerBound.toNat := by
    rcases toInt_toInt64 (UInt64.ofNat rest + constraint.lowerBound) with
      ⟨-, value⟩ | ⟨large, value⟩ <;> omega
  refine ⟨?_, by omega⟩
  -- What the field has of the number is all of it.
  rw [← whole, ← same]
  exact Nat.mod_lt _ (Nat.two_pow_pos _)

/-- Which lists between both bounds are got back: those whose size fits into its field. -/
theorem AsnList.range_round_trip_iff (both : constraint.upperBoundExists = 1)
    (least : constraint.lowerBound.toNat ≤ xs.length)
    (most : xs.length ≤ constraint.upperBound.toNat) (turns : Nat) (bAlign : Bool) (pos : Nat) :
    RoundTrips bAlign pos (AsnList.pEnc element.pEnc (some constraint) xs)
        (AsnList.pDec element.pDec turns (some constraint)) (· = xs) ↔
      constraint.range < 2 ^ 31 ∧
        (Countable pos (element.sized bAlign pos (constraint.rangeField xs.length) xs) →
          xs.length - constraint.lowerBound.toNat < 2 ^ fieldWidth constraint.bitsNeeded ∧
            xs.length < 2 ^ 31) := by
  have bound := constraint.upperBound.toNat_lt
  have other : ¬constraint.upperBoundExists = 0 := by
    rw [both]
    decide
  unfold AsnList.pDec
  simp only [if_neg other, if_pos both]
  constructor
  · intro trips
    obtain ⟨b, wellFormed, mode, position, len, b₁, ran, reads⟩ := trips.got
    -- Bounds that are too far apart are counted with an `int` that overflows.
    have small : constraint.range < 2 ^ 31 := by
      by_contra large
      have fault : minBits constraint.range 0 = .error .fault :=
        minBits_fault (by decide) (by omega)
      rw [AsnList.SizeConstraint.range] at fault
      have size : (UInt64.ofNat xs.length).toNat = xs.length := by
        rw [UInt64.toNat_ofNat']
        omega
      have inside : ¬(UInt64.ofNat xs.length < constraint.lowerBound ∨
          constraint.upperBound < UInt64.ofNat xs.length) := by
        rw [UInt64.lt_iff_toNat_lt, UInt64.lt_iff_toNat_lt, size]
        omega
      unfold AsnList.pEnc AsnList.pEncSize at ran
      simp only [if_neg other, if_pos both, if_neg inside, fault] at ran
      cases ran
    refine ⟨small, fun room => ?_⟩
    obtain ⟨b', ran', wrote⟩ :=
      AsnList.pEnc_range_puts element both least most small wellFormed position
    rw [ran] at ran'
    cases ran'
    rw [mode] at wrote
    obtain ⟨r, y, r', modeRead, stands, got, rfl, -⟩ := reads _ wrote room
    have short : (element.sized bAlign pos (constraint.rangeField y.length) y).length < 2 ^ 64 := by
      unfold Countable at room
      omega
    obtain ⟨decodeSize, r₁, same, -, -, later⟩ :=
      (AsnList.getRangeSize_gets small bAlign pos y.length).behind modeRead stands short 0
    rw [later (decodeBelow element.pDec), same] at got
    obtain ⟨few, all⟩ := length_of_decodeBelow got
    exact constraint.fits_of_decodeSize least (by omega) few all
  · rintro ⟨small, fits⟩
    apply roundTrips_of_countable
    intro b wellFormed mode position
    obtain ⟨b', ran, wrote⟩ :=
      AsnList.pEnc_range_puts element both least most small wellFormed position
    rw [mode] at wrote ran
    refine ⟨_, b', _, ran, wrote, fun room => ⟨rfl, ?_⟩⟩
    apply (AsnList.getRangeSize_gets small bAlign pos xs.length).bind (decodeBelow element.pDec)
    intro decodeSize same
    obtain ⟨inField, few⟩ := fits room
    have number := same.trans (constraint.decodeSize_of_fits least few inField)
    rw [number, decodeBelow_of_lt few]
    exact element.decodeElements_gets bAlign _ xs

/-! ## A lower bound only -/

/-- The field of a size that has a lower bound only. -/
def AsnList.SizeConstraint.leastField (constraint : SizeConstraint) (count : Nat) : List Bool :=
  match AsnInt.set (intOf (.ofNat count - constraint.lowerBound)) with
  | .ok listLen => lengthCoded 8 listLen.mBytes.length (listLen.mBytes.flatMap bitsOf)
  | .error _ => []

theorem padding_of_aligned (bAlign : Bool) (pos : Nat) :
    padding bAlign (pos + padding bAlign pos) = 0 := by
  cases bAlign with
  | false => rfl
  | true =>
    simp only [padding, if_true]
    omega

theorem AsnInt.pEnc_nil (x : AsnInt) :
    x.pEnc [] = PERGeneral.encodeGeneral x.interpret x.mBytes.length := by
  have checked : x.checkConstraints [] = .ok (false, "") := by
    rw [checkConstraints, if_neg (fun ranged => ranged.2 rfl), if_pos rfl]
    rfl
  rw [pEnc, checked, ofExcept_ok, pure_bind]
  rfl

/-- The size of a list with a lower bound only is put in whole octets. -/
theorem leastField_spec (constraint : AsnList.SizeConstraint) (count : Nat) :
    ∃ listLen, AsnInt.set (intOf (.ofNat count - constraint.lowerBound)) = .ok listLen ∧
      constraint.leastField count =
        lengthCoded 8 listLen.mBytes.length (listLen.mBytes.flatMap bitsOf) ∧
      listLen.mBytes ≠ [] ∧ listLen.mBytes.length ≤ 4 ∧
      0 < (constraint.leastField count).length ∧ (constraint.leastField count).length ≤ 40 := by
  obtain ⟨listLen, stored, some, short, -, -⟩ :=
    set_spec (intOf (.ofNat count - constraint.lowerBound))
  have field : constraint.leastField count =
      lengthCoded 8 listLen.mBytes.length (listLen.mBytes.flatMap bitsOf) := by
    rw [AsnList.SizeConstraint.leastField, stored]
  have size : (constraint.leastField count).length = 8 + 8 * listLen.mBytes.length := by
    rw [field, lengthCoded_of_lt_128 (by omega), List.length_append, length_bitsOf,
      length_flatMap_bitsOf]
  exact ⟨listLen, stored, field, some, short, by omega, by omega⟩

/-- A list with a lower bound only is put behind its size, whose bits are not counted. -/
theorem AsnList.pEnc_least_wrote (notFixed : ¬constraint.upperBoundExists = 0)
    (notRange : ¬constraint.upperBoundExists = 1) (least : constraint.lowerBound.toNat ≤ xs.length)
    (most : xs.length < 2 ^ 64) {b : AsnBufBits} (wellFormed : b.WellFormed) {pos : Nat}
    (position : (8 - b.writeBitPos) % 8 = pos % 8) :
    ∃ len b', (AsnList.pEnc element.pEnc (some constraint) xs).run b = .ok len b' ∧
      b.Wrote (element.sized b.bAlign pos (constraint.leastField xs.length) xs) b' ∧
      len + .ofNat (constraint.leastField xs.length).length =
        .ofNat (element.sized b.bAlign pos (constraint.leastField xs.length) xs).length := by
  obtain ⟨listLen, stored, field, -⟩ := leastField_spec constraint xs.length
  have size : (listLen.mBytes.flatMap bitsOf).length = listLen.mBytes.length * 8 := by
    rw [length_flatMap_bitsOf, Nat.mul_comm]
  -- The gaps, the size and the elements are put one behind the other.
  obtain ⟨b₁, ran₁, wrote₁⟩ := putGap_puts wellFormed
  have none : b₁.gap = [] := by
    have wroteGap := wrote₁
    rw [← List.append_nil b.gap] at wroteGap
    exact wroteGap.gap_eq_nil rfl
  obtain ⟨b₂, ran₂, wrote₂⟩ :=
    encodeGeneral_puts listLen.interpret_interprets.putsUnits size wrote₁.wellFormed
  rw [none, List.nil_append, ← field] at wrote₂ ran₂
  obtain ⟨b₃, ran₃, wrote₃⟩ := putGap_puts wrote₂.wellFormed
  have front := (wrote₁.trans wrote₂).trans wrote₃
  have gaps : b.gap ++ constraint.leastField xs.length ++ b₂.gap =
      betweenGaps b.bAlign pos (constraint.leastField xs.length) := by
    have place := (wrote₁.trans wrote₂).position
    rw [AsnBufBits.gap_eq position, List.length_append, List.length_replicate] at place
    have next : (8 - b₂.writeBitPos) % 8 =
        (pos + padding b.bAlign pos + (constraint.leastField xs.length).length) % 8 := by omega
    rw [betweenGaps, AsnBufBits.gap_eq position, AsnBufBits.gap_eq next, wrote₂.bAlign,
      wrote₁.bAlign, List.append_assoc]
  have lengths := congrArg List.length gaps
  rw [gaps] at front
  have place := front.position
  have next : (8 - b₃.writeBitPos) % 8 =
      (pos + (betweenGaps b.bAlign pos (constraint.leastField xs.length)).length) % 8 := by omega
  obtain ⟨b₄, ran₄, wrote₄⟩ := element.encodeElements_puts front.wellFormed next xs
  rw [front.bAlign] at wrote₄ ran₄
  have all := front.trans wrote₄
  rw [PerElement.sized]
  generalize element.all b.bAlign
    (pos + (betweenGaps b.bAlign pos (constraint.leastField xs.length)).length) xs = bits at ran₄ all ⊢
  refine ⟨.ofNat b.gap.length + .ofNat b₂.gap.length + .ofNat bits.length, b₄, ?_, all, ?_⟩
  · have enough : ¬UInt64.ofNat xs.length < constraint.lowerBound := by
      rw [UInt64.lt_iff_toNat_lt, UInt64.toNat_ofNat']
      omega
    unfold AsnList.pEnc AsnList.pEncSize
    simp only [if_neg notFixed, if_neg notRange, if_neg enough, stored, ofExcept_ok, pure_bind,
      bind_assoc, AsnInt.pEnc_nil]
    rw [run_bind_of_ok ran₁, PERGeneral.encodeGeneral, run_bind_of_ok ran₂, run_bind_of_ok ran₃,
      run_bind_of_ok ran₄]
    rfl
  · rw [List.length_append, ← lengths]
    simp only [List.length_append, UInt64.ofNat_add]
    ac_rfl

/-- A size that has a lower bound only is got between its gaps. -/
theorem AsnList.getLeastSize_gets (constraint : AsnList.SizeConstraint) {turns : Nat}
    (enough : 0 < turns) (bAlign : Bool) (pos count : Nat) :
    ∃ tempLen, Gets bAlign pos (betweenGaps bAlign pos (constraint.leastField count))
      (AsnList.getLeastSize turns constraint) (· = tempLen) := by
  obtain ⟨listLen, -, field, some, short, -, -⟩ := leastField_spec constraint count
  have few : listLen.mBytes.length / 16384 < turns := by omega
  have gets := listLen.decodeGeneral_gets few bAlign (pos + padding bAlign pos)
  rw [padding_of_aligned, List.replicate_zero, List.nil_append, ← field] at gets
  have value := toInteger_eq some short
  generalize Int32.ofInt (signedOf listLen.mBytes) = n at value
  -- The octets that were got are those of the size, which is then known.
  have between := gets.between
    (fun x => x.toInteger.map fun listLen =>
      (intOf (listLen.toInt64.toUInt64 + constraint.lowerBound)).toInt.toNat)
    (z := (intOf (n.toInt64.toUInt64 + constraint.lowerBound)).toInt.toNat) fun x same => by
      rw [same, value]
      rfl
  simp only [ofExcept_map, bind_assoc, pure_bind] at between
  unfold AsnList.getLeastSize AsnInt.pDec
  exact ⟨_, between⟩

/-- A list with a lower bound only is never got back as long as its bits can be counted. -/
theorem AsnList.least_round_trip_iff (notFixed : ¬constraint.upperBoundExists = 0)
    (notRange : ¬constraint.upperBoundExists = 1) (least : constraint.lowerBound.toNat ≤ xs.length)
    (most : xs.length < 2 ^ 64) {turns : Nat} (enough : 0 < turns) (bAlign : Bool) (pos : Nat) :
    RoundTrips bAlign pos (AsnList.pEnc element.pEnc (some constraint) xs)
        (AsnList.pDec element.pDec turns (some constraint)) (· = xs) ↔
      ¬Countable pos (element.sized bAlign pos (constraint.leastField xs.length) xs) := by
  obtain ⟨-, -, -, -, -, more, fewer⟩ := leastField_spec constraint xs.length
  unfold AsnList.pDec
  simp only [if_neg notFixed, if_neg notRange]
  constructor
  · intro trips room
    obtain ⟨b, wellFormed, mode, position, len, b₁, ran, reads⟩ := trips.got
    obtain ⟨len', b', ran', wrote, counted⟩ :=
      AsnList.pEnc_least_wrote element notFixed notRange least most wellFormed position
    rw [ran] at ran'
    cases ran'
    rw [mode] at wrote counted
    obtain ⟨r, y, r', modeRead, stands, got, rfl, -⟩ := reads _ wrote room
    have short : (element.sized bAlign pos (constraint.leastField y.length) y).length < 2 ^ 64 := by
      unfold Countable at room
      omega
    obtain ⟨tempLen, gets⟩ := AsnList.getLeastSize_gets constraint enough bAlign pos y.length
    obtain ⟨size, r₁, rfl, mode₁, stands₁, later⟩ := gets.behind modeRead stands short 0
    rw [later (decodeElements element.pDec)] at got
    -- As many elements are got as the list has, and the reader has counted the size too.
    rw [← length_of_decodeElements got] at got
    have behind : (element.all bAlign
        (pos + (betweenGaps bAlign pos (constraint.leastField y.length)).length) y ++ []).length <
        2 ^ 64 := by
      rw [PerElement.sized, List.length_append] at short
      rw [List.append_nil]
      omega
    rw [← List.append_nil (element.all bAlign _ y)] at stands₁
    obtain ⟨ys, r₂, elements, -, -, -⟩ := element.decodeElements_gets bAlign _ y r₁ [] mode₁ stands₁
      behind (0 + .ofNat (betweenGaps bAlign pos (constraint.leastField y.length)).length)
    rw [got] at elements
    cases elements
    have total : (element.sized bAlign pos (constraint.leastField y.length) y).length =
        (betweenGaps bAlign pos (constraint.leastField y.length)).length + (element.all bAlign
          (pos + (betweenGaps bAlign pos (constraint.leastField y.length)).length) y).length :=
      List.length_append
    rw [total] at counted short
    have counts := congrArg UInt64.toNat counted
    simp only [UInt64.zero_add, UInt64.toNat_add, UInt64.toNat_ofNat'] at counts
    omega
  · intro uncountable
    apply roundTrips_of_countable
    intro b wellFormed mode position
    obtain ⟨len, b', ran, wrote, -⟩ :=
      AsnList.pEnc_least_wrote element notFixed notRange least most wellFormed position
    rw [mode] at wrote
    exact ⟨len, b', _, ran, wrote, fun room => absurd room uncountable⟩

/-! ## All the constraints -/

/-- The sizes that a constraint allows, as far as a list can have them. -/
def AsnList.SizeConstraint.Allows (constraint : SizeConstraint) (count : Nat) : Prop :=
  if constraint.upperBoundExists = 0 then count = constraint.lowerBound.toNat
  else constraint.lowerBound.toNat ≤ count ∧ count < 2 ^ 64 ∧
    (constraint.upperBoundExists = 1 → count ≤ constraint.upperBound.toNat)

/--
Where a list is got back.

The elements of a list of the only size are put twice; the size between two bounds is kept in a field that may be too short; and the bits of a size that has a lower bound only are not counted.
-/
def AsnList.GotBack (element : PerElement β) (constraint : SizeConstraint) (bAlign : Bool)
    (pos : Nat) (xs : List β) : Prop :=
  if constraint.upperBoundExists = 0 then
    let bits := element.all bAlign pos xs
    let again := element.all bAlign (pos + bits.length) xs
    xs.length < 2 ^ 32 ∧ (Countable pos (bits ++ again) → again = [])
  else if constraint.upperBoundExists = 1 then
    constraint.range < 2 ^ 31 ∧
      (Countable pos (element.sized bAlign pos (constraint.rangeField xs.length) xs) →
        xs.length - constraint.lowerBound.toNat < 2 ^ fieldWidth constraint.bitsNeeded ∧
          xs.length < 2 ^ 31)
  else ¬Countable pos (element.sized bAlign pos (constraint.leastField xs.length) xs)

/--
Which lists of an allowed size are got back, whatever their elements are.

The loop over the fragments of a size is granted at least one turn.
-/
theorem AsnList.constrained_round_trip_iff (element : PerElement β)
    {constraint : AsnList.SizeConstraint} {xs : List β} (allowed : constraint.Allows xs.length)
    {turns : Nat} (enough : 0 < turns) (bAlign : Bool) (pos : Nat) :
    RoundTrips bAlign pos (AsnList.pEnc element.pEnc (some constraint) xs)
        (AsnList.pDec element.pDec turns (some constraint)) (· = xs) ↔
      AsnList.GotBack element constraint bAlign pos xs := by
  unfold AsnList.SizeConstraint.Allows at allowed
  unfold AsnList.GotBack
  by_cases fixed : constraint.upperBoundExists = 0
  · rw [if_pos fixed] at allowed ⊢
    exact fixed_round_trip_iff element fixed allowed turns bAlign pos
  · rw [if_neg fixed] at allowed ⊢
    obtain ⟨least, small, most⟩ := allowed
    by_cases both : constraint.upperBoundExists = 1
    · rw [if_pos both]
      exact range_round_trip_iff element both least (most both) turns bAlign pos
    · rw [if_neg both]
      exact least_round_trip_iff element fixed both least small enough bAlign pos

/-- Elements that are octets. -/
def octetElement : PerElement UInt8 where
  pEnc c := putSeg [c] 8
  pDec bitsDecoded := do return ((← getBits 8).headD 0, bitsDecoded + 8)
  bits c _ _ := bitsOf c
  puts c _ wellFormed := putOctet_puts wellFormed c
  gets c bAlign pos := by
    intro r rest mode stands countable bitsDecoded
    obtain ⟨octets, r', ran, first, mode', behind⟩ := stands.getOctet countable
    exact ⟨octets.headD 0, r', run_bind_of_ok ran, first, mode'.trans mode, behind⟩

/-- Two octets out of one to three, behind five bits of an aligned buffer. -/
theorem AsnList.constrained_round_trip_iff_octets :
    RoundTrips true 5 (AsnList.pEnc octetElement.pEnc (some ⟨1, 3, 1⟩) [7, 9])
        (AsnList.pDec octetElement.pDec 1 (some ⟨1, 3, 1⟩)) (· = [7, 9]) ↔
      AsnList.GotBack octetElement ⟨1, 3, 1⟩ true 5 [7, 9] :=
  AsnList.constrained_round_trip_iff octetElement (by unfold AsnList.SizeConstraint.Allows; decide)
    (by decide) true 5

/-- The only octet of a list of one octet is put twice. -/
theorem single_octet_is_put_twice :
    ¬∀ (element : PerElement UInt8) (constraint : AsnList.SizeConstraint) (xs : List UInt8),
      constraint.Allows xs.length → ∀ turns, 0 < turns → ∀ bAlign pos,
        RoundTrips bAlign pos (AsnList.pEnc element.pEnc (some constraint) xs)
          (AsnList.pDec element.pDec turns (some constraint)) (· = xs) := by
  intro always
  have trips := always octetElement ⟨1, 0, 0⟩ [7] rfl 1 (by decide) false 0
  rw [AsnList.fixed_round_trip_iff octetElement rfl rfl] at trips
  exact absurd (trips.2 (by unfold Countable; decide)) (by decide)

end Esnacc.Cxx
