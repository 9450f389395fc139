import Esnacc.Cxx.Fragments
import Esnacc.Cxx.StringRoundTrips

/-! PER of the C++ OCTET STRING and BIT STRING of constrained size, and which sizes are kept. -/

namespace Esnacc.Cxx

open Lib

/-! ## Encoding -/

/-- Put an octet string of constrained size. -/
def AsnOcts.encodeWithSizeConstraint (bounds : Int32 × Int32) (x : AsnOcts) : BitsM UInt64 := do
  let (iSCLowerBound, iSCUpperBound) := bounds
  let asked := decide (iSCUpperBound ≤ 2)
  let range := (iSCUpperBound - iSCLowerBound + 1).toInt
  let minBitsNeeded ← ofExcept (minBits (range - 1) 0)
  let size : Int := x.mStr.length
  if size < iSCLowerBound.toInt ∨ iSCUpperBound.toInt < size then
    throw (.snaccException "AsnOcts size not withing restricted bounds" 6006)
  let len ← (if 1 < range then do
      let len ← alignWrite asked
      return len + (← putSizeOver minBitsNeeded (size - iSCLowerBound.toInt))
    else return 0)
  if 0 < iSCUpperBound then
    let len := len + (← alignWrite asked)
    return len + (← putSeg x.mStr (x.mStr.length * 8))
  else return len

/-- Put the bits of a bit string, cut or filled with zeros to the bounds of its size. -/
def AsnBits.putBounded (bounds : Int32 × Int32) (x : AsnBits) : BitsM UInt64 := do
  let (iSCLowerBound, iSCUpperBound) := bounds
  if x.bitLen.toUInt32 < iSCLowerBound.toUInt32 then
    let tempLength := iSCLowerBound.toInt64.toUInt64 - x.bitLen
    let len ← putSeg x.bits x.bitLen.toNat
    let temp := List.replicate ((tempLength.toInt64.toInt + 7).tdiv 8).toNat 0
    return len + (← putSeg temp tempLength.toNat)
  else if iSCUpperBound.toUInt32 < x.bitLen.toUInt32 then
    putSeg x.bits iSCUpperBound.toInt64.toUInt64.toNat
  else putSeg x.bits x.bitLen.toNat

/-- Put a bit string of constrained size. -/
def AsnBits.encodeWithSizeConstraint (bounds : Int32 × Int32) (x : AsnBits) : BitsM UInt64 := do
  let (iSCLowerBound, iSCUpperBound) := bounds
  let asked := decide (16 < iSCUpperBound)
  let range := (iSCUpperBound - iSCLowerBound + 1).toInt
  let minBitsNeeded ← ofExcept (minBits (range - 1) 0)
  let len ← (if 1 < range then do
      let len ← alignWrite asked
      -- A size outside the bounds is moved to the next one.
      let size := x.bitLen.toInt64.toInt
      let size := if iSCUpperBound.toInt < size then iSCUpperBound.toInt else size
      let size := if size < iSCLowerBound.toInt then iSCLowerBound.toInt else size
      return len + (← putSizeOver minBitsNeeded (size - iSCLowerBound.toInt))
    else return 0)
  let len := len + (← alignWrite asked)
  return len + (← x.putBounded bounds)

/-! ## Sizes -/

theorem length_gapAt_le (asked bAlign : Bool) (pos : Nat) :
    (gapAt asked bAlign pos).length ≤ 7 := by
  unfold gapAt padding
  split
  · rw [List.length_replicate]
    split <;> omega
  · exact Nat.zero_le 7

theorem length_sizeBits_le (asked : Bool) (bounds : Int32 × Int32) (bAlign : Bool)
    (pos size : Nat) : (sizeBits bounds asked bAlign pos size).length ≤ 22 := by
  have gap := length_gapAt_le asked bAlign pos
  have field := Nat.mod_lt (boundsBits bounds) (show 0 < 8 by decide)
  unfold sizeBits
  split
  · rw [List.length_append, length_sizeField, fieldWidth]
    split <;> omega
  · exact Nat.zero_le 22

theorem length_frontBits_le (asked : Bool) (bounds : Int32 × Int32) (bAlign : Bool)
    (pos size : Nat) : (sizeBits bounds asked bAlign pos size).length ≤ 22 ∧
      (frontBits asked bounds bAlign pos size).length ≤ 29 := by
  have field := length_sizeBits_le asked bounds bAlign pos size
  have gap := length_gapAt_le asked bAlign (pos + (sizeBits bounds asked bAlign pos size).length)
  refine ⟨field, ?_⟩
  rw [frontBits, List.length_append]
  omega

/-! ## OCTET STRING -/

/-- The bits of an octet string of constrained size. -/
def AsnOcts.sizedBits (bounds : Int32 × Int32) (bAlign : Bool) (pos : Nat) (x : AsnOcts) :
    List Bool :=
  let asked := decide (bounds.2 ≤ 2)
  if 0 < bounds.2 then
    frontBits asked bounds bAlign pos x.mStr.length ++ x.mStr.flatMap bitsOf
  else sizeBits bounds asked bAlign pos x.mStr.length

section

variable {bounds : Int32 × Int32}

/-- An octet string whose size is between the bounds is put behind its size. -/
theorem AsnOcts.encodeWithSizeConstraint_puts {x : AsnOcts}
    (least : bounds.1.toInt ≤ x.mStr.length) (most : (x.mStr.length : Int) ≤ bounds.2.toInt)
    {b : AsnBufBits} (wellFormed : b.WellFormed) {pos : Nat}
    (position : (8 - b.writeBitPos) % 8 = pos % 8) :
    Puts (x.encodeWithSizeConstraint bounds) b (x.sizedBits bounds b.bAlign pos) := by
  have counted := minBits_boundsRange bounds
  have highest := bounds.2.toInt_lt
  have within : ¬((x.mStr.length : Int) < bounds.1.toInt ∨ bounds.2.toInt < x.mStr.length) := by
    omega
  have field := sizeBits_puts wellFormed (decide (bounds.2 ≤ 2)) least position
  unfold sizedBits
  obtain ⟨lower, upper⟩ := bounds
  unfold boundsRange at counted field
  by_cases some : 0 < upper
  · -- All the octets follow the gap behind the size.
    have all := (frontBits_puts field position).add fun b' wrote =>
      putSeg_puts wrote.wellFormed x.mStr (n := x.mStr.length * 8) (by omega) (by omega)
    rw [List.take_of_length_le (by rw [length_flatMap_bitsOf]; omega)] at all
    rw [if_pos some]
    refine all.of_run ?_
    unfold encodeWithSizeConstraint
    simp only [counted, ofExcept_ok, pure_bind, if_neg within, if_pos some, bind_assoc]
  · rw [if_neg some]
    refine field.of_run ?_
    unfold encodeWithSizeConstraint
    simp only [counted, ofExcept_ok, pure_bind, if_neg within, if_neg some, bind_pure]

/-- Octets that come next are read into an empty object. -/
theorem AsnOcts.contents_gets (x old : AsnOcts) (small : x.mStr.length < 2 ^ 31) (bAlign : Bool)
    (pos : Nat) :
    Gets bAlign pos (x.mStr.flatMap bitsOf) (fun bitsDecoded => do
      let seg ← getBits (.ofInt ((x.mStr.length : Int) * 8))
      return (old.clear.append x.mStr.length seg, bitsDecoded + .ofInt ((x.mStr.length : Int) * 8)))
      (· = x) := by
  intro r rest mode stands countable bitsDecoded
  have size : (x.mStr.flatMap bitsOf).length = x.mStr.length * 8 := by
    rw [length_flatMap_bitsOf, Nat.mul_comm]
  have word : UInt64.ofInt ((x.mStr.length : Int) * 8) = .ofNat (x.mStr.length * 8) := by
    rw [← ofInt_natCast]
    rfl
  obtain ⟨seg, r', ran, front, mode', behind⟩ := stands.getBits countable size
  have has := append_appends old.clear [] rfl rfl x.mStr.length _ seg size (by rw [size, front])
  refine ⟨old.clear.append x.mStr.length seg, r', ?_, ?_, mode'.trans mode, ?_⟩
  · rw [word, run_bind_of_ok ran, size]
    rfl
  · -- Octets are known by their bits.
    rw [List.nil_append] at has
    generalize old.clear.append x.mStr.length seg = y at has ⊢
    obtain ⟨octets⟩ := y
    obtain ⟨mStr⟩ := x
    exact congrArg AsnOcts.mk (flatMap_bitsOf_injective has)
  · rw [size]
    exact behind

/-- An octet string whose size is read as it was put is got back. -/
theorem AsnOcts.decodeWithSizeConstraint_gets {x : AsnOcts} (old : AsnOcts)
    (least : bounds.1.toInt ≤ x.mStr.length) (most : (x.mStr.length : Int) ≤ bounds.2.toInt)
    (read : gotSize bounds x.mStr.length = x.mStr.length) (bAlign : Bool) (pos : Nat) :
    Gets bAlign pos (x.sizedBits bounds bAlign pos) (old.decodeWithSizeConstraint bounds)
      (· = x) := by
  have highest := bounds.2.toInt_lt
  have size : Gets bAlign pos _ (decodeSize (decide (bounds.2 ≤ 2)) bounds) _ :=
    decodeSize_gets least most pos
  unfold decodeWithSizeConstraint sizedBits
  by_cases some : 0 < bounds.2
  · simp only [if_pos some]
    rw [frontBits, List.append_assoc]
    apply size.bind fun (n : Int) bitsDecoded => do
      let skipped ← alignRead (decide (bounds.2 ≤ 2))
      let seg ← getBits (.ofInt (n * 8))
      return (old.clear.append n.toNat seg, bitsDecoded + skipped + .ofInt (n * 8))
    rintro n rfl
    rw [read]
    exact (contents_gets x old (by omega) bAlign _).alignAsked
  · -- There are no octets below an upper bound of none.
    simp only [if_neg some]
    have none : x.mStr = [] := by
      have upper := Int32.not_lt.mp some
      rw [Int32.le_iff_toInt_le] at upper
      have zero : (0 : Int32).toInt = 0 := rfl
      exact List.length_eq_zero_iff.mp (by omega)
    rw [← List.append_nil (sizeBits _ _ _ _ _)]
    apply size.bind fun (_ : Int) bitsDecoded => (return (old.clear, bitsDecoded) : BitsM _)
    rintro n -
    have cleared : old.clear = x := by
      obtain ⟨mStr⟩ := x
      exact congrArg AsnOcts.mk none.symm
    rw [cleared]
    exact gets_pure bAlign _ x

/-- No more octets are read than the size says that is read. -/
theorem AsnOcts.length_le_of_decoded {x old y : AsnOcts} (least : bounds.1.toInt ≤ x.mStr.length)
    (most : (x.mStr.length : Int) ≤ bounds.2.toInt) {bAlign : Bool} {pos : Nat}
    {r r' : AsnBufBits} (mode : r.bAlign = bAlign)
    (stands : r.Stands pos (x.sizedBits bounds bAlign pos))
    (countable : (x.sizedBits bounds bAlign pos).length < 2 ^ 64) {bitsDecoded len : AsnLen}
    (ran : (old.decodeWithSizeConstraint bounds bitsDecoded).run r = .ok (y, len) r') :
    y.mStr.length ≤ (gotSize bounds x.mStr.length).toNat := by
  have size : Gets bAlign pos _ (decodeSize (decide (bounds.2 ≤ 2)) bounds) _ :=
    decodeSize_gets least most pos
  unfold decodeWithSizeConstraint at ran
  unfold sizedBits at stands countable
  by_cases some : 0 < bounds.2
  · simp only [if_pos some] at ran stands countable
    rw [frontBits, List.append_assoc] at stands countable
    obtain ⟨n, r₁, rfl, -, -, later⟩ := size.behind mode stands countable bitsDecoded
    rw [later fun (n : Int) bitsDecoded => do
      let skipped ← alignRead (decide (bounds.2 ≤ 2))
      let seg ← getBits (.ofInt (n * 8))
      return (old.clear.append n.toNat seg, bitsDecoded + skipped + .ofInt (n * 8))] at ran
    obtain ⟨skipped, r₂, -, more⟩ := run_bind_eq_ok.mp ran
    obtain ⟨seg, r₃, -, last⟩ := run_bind_eq_ok.mp more
    cases last
    change ([] ++ seg.take _).length ≤ _
    rw [List.nil_append, List.length_take]
    exact Nat.min_le_left _ _
  · -- Nothing is read into the empty object.
    simp only [if_neg some] at ran
    obtain ⟨⟨n, bits⟩, r₁, -, last⟩ := run_bind_eq_ok.mp ran
    cases last
    exact Nat.zero_le _

/-- An octet string makes the round trip exactly if its size is read as it was put. -/
theorem AsnOcts.sized_roundTrips_iff {x : AsnOcts} (old : AsnOcts) (lowest : 0 ≤ bounds.1.toInt)
    (least : bounds.1.toInt ≤ x.mStr.length) (most : (x.mStr.length : Int) ≤ bounds.2.toInt)
    (bAlign : Bool) (pos : Nat) :
    RoundTrips bAlign pos (x.encodeWithSizeConstraint bounds) (old.decodeWithSizeConstraint bounds)
        (· = x) ↔ gotSize bounds x.mStr.length = x.mStr.length := by
  constructor
  · intro trips
    obtain ⟨b, wellFormed, rfl, position, len, b₁, ran, reads⟩ := trips.got
    obtain ⟨b', put, wrote⟩ := encodeWithSizeConstraint_puts least most wellFormed position
    rw [put] at ran
    cases ran
    -- The bits can be counted, as an `int` bounds the size.
    have room : Countable pos (x.sizedBits bounds b.bAlign pos) := by
      have front := length_frontBits_le (decide (bounds.2 ≤ 2)) bounds b.bAlign pos x.mStr.length
      have highest := bounds.2.toInt_lt
      unfold Countable sizedBits
      dsimp only
      split
      · rw [List.length_append, length_flatMap_bitsOf]
        omega
      · omega
    obtain ⟨r, y, r', mode, stands, got, rfl, -⟩ := reads _ wrote room
    have fewer := length_le_of_decoded least most mode stands
      (by unfold Countable at room; omega) got
    have below := gotSize_le least
    have above := le_gotSize bounds y.mStr.length
    omega
  · intro read
    apply roundTrips_of_countable
    rintro b wellFormed rfl position
    obtain ⟨b', put, wrote⟩ := encodeWithSizeConstraint_puts least most wellFormed position
    exact ⟨_, b', _, put, wrote, fun _ =>
      ⟨rfl, decodeWithSizeConstraint_gets old least most read b.bAlign pos⟩⟩

/-! ## BIT STRING -/

/-- The bits of a bit string of constrained size. -/
def AsnBits.sizedBits (bounds : Int32 × Int32) (bAlign : Bool) (pos : Nat) (x : AsnBits) :
    List Bool :=
  frontBits (decide (16 < bounds.2)) bounds bAlign pos x.bitLen.toNat ++ x.theBits

/-- A bit string whose size is between the bounds is neither cut nor filled. -/
theorem AsnBits.putBounded_eq {x : AsnBits} (lowest : 0 ≤ bounds.1.toInt)
    (least : bounds.1.toInt ≤ x.bitLen.toNat) (most : (x.bitLen.toNat : Int) ≤ bounds.2.toInt) :
    x.putBounded bounds = putSeg x.bits x.bitLen.toNat := by
  -- As words without a sign, all the numbers are what they were.
  have highest := bounds.2.toInt_lt
  have word : ∀ i : Int32, 0 ≤ i.toInt → (i.toUInt32.toNat : Int) = i.toInt := by
    intro i nonneg
    have bound := i.toUInt32.toNat_lt
    have read : i.toInt = (i.toUInt32.toNat : Int).bmod (2 ^ 32) := BitVec.toInt_eq_toNat_bmod _
    rw [read] at nonneg ⊢
    rw [Int.bmod_def] at nonneg ⊢
    split at nonneg <;> omega
  have low := word bounds.1 lowest
  have high := word bounds.2 (by omega)
  have size : x.bitLen.toUInt32.toNat = x.bitLen.toNat := by
    rw [UInt64.toNat_toUInt32]
    omega
  obtain ⟨lower, upper⟩ := bounds
  rw [putBounded]
  dsimp only at *
  rw [if_neg (by rw [UInt32.lt_iff_toNat_lt]; omega),
    if_neg (by rw [UInt32.lt_iff_toNat_lt]; omega)]

/-- A bit string whose size is between the bounds is put behind its size. -/
theorem AsnBits.encodeWithSizeConstraint_puts {x : AsnBits}
    (holds : x.bitLen.toNat ≤ 8 * x.bits.length) (lowest : 0 ≤ bounds.1.toInt)
    (least : bounds.1.toInt ≤ x.bitLen.toNat) (most : (x.bitLen.toNat : Int) ≤ bounds.2.toInt)
    {b : AsnBufBits} (wellFormed : b.WellFormed) {pos : Nat}
    (position : (8 - b.writeBitPos) % 8 = pos % 8) :
    Puts (x.encodeWithSizeConstraint bounds) b (x.sizedBits bounds b.bAlign pos) := by
  have counted := minBits_boundsRange bounds
  have highest := bounds.2.toInt_lt
  have field := sizeBits_puts wellFormed (decide (16 < bounds.2)) least position
  -- A size between the bounds is neither cut nor filled.
  have size : x.bitLen.toInt64.toInt = x.bitLen.toNat := by
    rcases toInt_toInt64 x.bitLen with ⟨-, same⟩ | ⟨large, -⟩
    · exact same
    · omega
  have bounded := putBounded_eq lowest least most
  have all := (frontBits_puts field position).add fun b' wrote =>
    putSeg_puts wrote.wellFormed x.bits holds (by omega)
  unfold sizedBits
  refine Puts.of_run ?_ all
  unfold encodeWithSizeConstraint
  rw [bounded]
  obtain ⟨lower, upper⟩ := bounds
  unfold boundsRange at counted ⊢
  dsimp only at least most size
  have inside : ¬upper.toInt < (x.bitLen.toNat : Int) := by omega
  have inside' : ¬(x.bitLen.toNat : Int) < lower.toInt := by omega
  simp only [counted, ofExcept_ok, pure_bind, size, if_neg inside, if_neg inside', bind_assoc]

/-- Bits that come next are read into a new object. -/
theorem AsnBits.contents_gets {x : AsnBits} (holds : x.bitLen.toNat ≤ 8 * x.bits.length)
    (bAlign : Bool) (pos : Nat) :
    Gets bAlign pos x.theBits (fun bitsDecoded => do
      let seg ← getBits (.ofInt (x.bitLen.toNat : Int))
      return (AsnBits.mk (.ofInt (x.bitLen.toNat : Int))
        (seg.take (((x.bitLen.toNat : Int) + 7) / 8).toNat),
          bitsDecoded + .ofInt (x.bitLen.toNat : Int))) x.Same := by
  intro r rest mode stands countable bitsDecoded
  have size := length_theBits holds
  have word : UInt64.ofInt (x.bitLen.toNat : Int) = .ofNat x.bitLen.toNat := ofInt_natCast _
  have octets : (((x.bitLen.toNat : Int) + 7) / 8).toNat = (x.bitLen.toNat + 7) / 8 := by omega
  have none : AsnBits.Has ⟨0, []⟩ [] := ⟨rfl, rfl, rfl⟩
  obtain ⟨seg, r', ran, front, mode', behind⟩ := stands.getBits countable size
  have has := append_appends ⟨0, []⟩ [] none rfl x.bitLen.toNat _ seg (by rw [size, Nat.mul_one])
    (by rw [size, front])
  rw [List.nil_append] at has
  refine ⟨AsnBits.append ⟨0, []⟩ x.bitLen.toNat seg, r', ?_, has.same holds, mode'.trans mode, ?_⟩
  · rw [word, run_bind_of_ok ran, octets, append, size]
    change EStateM.Result.ok (_, _) _ = .ok (AsnBits.mk (0 + _) ([] ++ _), _) _
    rw [UInt64.zero_add, List.nil_append]
  · rw [size]
    exact behind

/-- A bit string whose size is read as it was put is got back. -/
theorem AsnBits.decodeWithSizeConstraint_gets {x : AsnBits}
    (holds : x.bitLen.toNat ≤ 8 * x.bits.length) (old : AsnBits)
    (least : bounds.1.toInt ≤ x.bitLen.toNat) (most : (x.bitLen.toNat : Int) ≤ bounds.2.toInt)
    (read : gotSize bounds x.bitLen.toNat = x.bitLen.toNat) (bAlign : Bool) (pos : Nat) :
    Gets bAlign pos (x.sizedBits bounds bAlign pos) (old.decodeWithSizeConstraint bounds)
      x.Same := by
  have highest := bounds.2.toInt_lt
  have size : Gets bAlign pos _ (decodeSize (decide (16 < bounds.2)) bounds) _ :=
    decodeSize_gets least most pos
  unfold decodeWithSizeConstraint sizedBits
  rw [frontBits, List.append_assoc]
  apply size.bind fun (n : Int) bitsDecoded => do
    let skipped ← alignRead (decide (16 < bounds.2))
    let seg ← getBits (.ofInt n)
    return (AsnBits.mk (.ofInt n) (seg.take ((n + 7) / 8).toNat), bitsDecoded + skipped + .ofInt n)
  rintro n rfl
  rw [read]
  exact (contents_gets holds bAlign _).alignAsked

/-- As many bits are counted as the size says that is read. -/
theorem AsnBits.bitLen_of_decoded {x old y : AsnBits} (least : bounds.1.toInt ≤ x.bitLen.toNat)
    (most : (x.bitLen.toNat : Int) ≤ bounds.2.toInt) {bAlign : Bool} {pos : Nat}
    {r r' : AsnBufBits} (mode : r.bAlign = bAlign)
    (stands : r.Stands pos (x.sizedBits bounds bAlign pos))
    (countable : (x.sizedBits bounds bAlign pos).length < 2 ^ 64) {bitsDecoded len : AsnLen}
    (ran : (old.decodeWithSizeConstraint bounds bitsDecoded).run r = .ok (y, len) r') :
    y.bitLen = .ofInt (gotSize bounds x.bitLen.toNat) := by
  have size : Gets bAlign pos _ (decodeSize (decide (16 < bounds.2)) bounds) _ :=
    decodeSize_gets least most pos
  unfold decodeWithSizeConstraint at ran
  unfold sizedBits at stands countable
  rw [frontBits, List.append_assoc] at stands countable
  obtain ⟨n, r₁, rfl, -, -, later⟩ := size.behind mode stands countable bitsDecoded
  rw [later fun (n : Int) bitsDecoded => do
    let skipped ← alignRead (decide (16 < bounds.2))
    let seg ← getBits (.ofInt n)
    return (AsnBits.mk (.ofInt n) (seg.take ((n + 7) / 8).toNat),
      bitsDecoded + skipped + .ofInt n)] at ran
  obtain ⟨skipped, r₂, -, more⟩ := run_bind_eq_ok.mp ran
  obtain ⟨seg, r₃, -, last⟩ := run_bind_eq_ok.mp more
  cases last
  rfl

/-- A bit string makes the round trip exactly if its size is read as it was put. -/
theorem AsnBits.sized_roundTrips_iff {x : AsnBits} (holds : x.bitLen.toNat ≤ 8 * x.bits.length)
    (old : AsnBits) (lowest : 0 ≤ bounds.1.toInt) (least : bounds.1.toInt ≤ x.bitLen.toNat)
    (most : (x.bitLen.toNat : Int) ≤ bounds.2.toInt) (bAlign : Bool) (pos : Nat) :
    RoundTrips bAlign pos (x.encodeWithSizeConstraint bounds) (old.decodeWithSizeConstraint bounds)
        x.Same ↔ gotSize bounds x.bitLen.toNat = x.bitLen.toNat := by
  constructor
  · intro trips
    obtain ⟨b, wellFormed, rfl, position, len, b₁, ran, reads⟩ := trips.got
    obtain ⟨b', put, wrote⟩ := encodeWithSizeConstraint_puts holds lowest least most wellFormed
      position
    rw [put] at ran
    cases ran
    have highest := bounds.2.toInt_lt
    -- The bits can be counted, as an `int` bounds the size.
    have room : Countable pos (x.sizedBits bounds b.bAlign pos) := by
      have front := length_frontBits_le (decide (16 < bounds.2)) bounds b.bAlign pos x.bitLen.toNat
      unfold Countable sizedBits
      rw [List.length_append, length_theBits holds]
      omega
    obtain ⟨r, y, r', mode, stands, got, same, -⟩ := reads _ wrote room
    have counted := bitLen_of_decoded least most mode stands
      (by unfold Countable at room; omega) got
    have below := gotSize_le least
    have above := le_gotSize bounds x.bitLen.toNat
    obtain ⟨n, number⟩ := Int.eq_ofNat_of_zero_le (lowest.trans above)
    rw [same.1, number, ofInt_natCast] at counted
    have numbers := congrArg UInt64.toNat counted
    rw [UInt64.toNat_ofNat'] at numbers
    omega
  · intro read
    apply roundTrips_of_countable
    rintro b wellFormed rfl position
    obtain ⟨b', put, wrote⟩ := encodeWithSizeConstraint_puts holds lowest least most wellFormed
      position
    exact ⟨_, b', _, put, wrote, fun _ =>
      ⟨rfl, decodeWithSizeConstraint_gets holds old least most read b.bAlign pos⟩⟩

end

/-! ## Sizes that are kept -/

/-- Whether a size between two bounds finds room in its field, which has at most fifteen bits, and
none where the number of sizes fits no `int`. -/
def SizeKept (lower upper size : Nat) : Prop :=
  if upper - lower = 2 ^ 31 - 1 then size = lower
  else (upper - lower).size < 16 ∨ size - lower < 2 ^ (8 + (upper - lower).size % 8)

theorem boundsRange_eq {bounds : Int32 × Int32} {lower upper : Nat}
    (low : bounds.1.toInt = lower) (high : bounds.2.toInt = upper) (ordered : lower ≤ upper) :
    boundsRange bounds =
      if upper - lower = 2 ^ 31 - 1 then (-2 ^ 31 : Int) else (upper - lower : Nat) + 1 := by
  have highest := bounds.2.toInt_lt
  have one : (1 : Int32).toInt = 1 := rfl
  rw [boundsRange, Int32.toInt_add, Int32.toInt_sub, one, Int.bmod_add_bmod, low, high,
    Int.bmod_def]
  split <;> split <;> omega

/-- A size between two bounds is read as it was put exactly if its field has room for it. -/
theorem gotSize_eq_iff {bounds : Int32 × Int32} {lower upper size : Nat}
    (low : bounds.1.toInt = lower) (high : bounds.2.toInt = upper) (least : lower ≤ size)
    (most : size ≤ upper) : gotSize bounds size = size ↔ SizeKept lower upper size := by
  have range := boundsRange_eq low high (least.trans most)
  have extra : ((size : Int) - lower).toNat = size - lower := by omega
  unfold gotSize SizeKept
  rw [low, extra]
  by_cases whole : upper - lower = 2 ^ 31 - 1
  · -- The number of sizes turns negative, and no field is put.
    rw [if_pos whole] at range ⊢
    rw [range, if_neg (by decide)]
    omega
  · rw [if_neg whole] at range ⊢
    by_cases single : upper = lower
    · rw [range, if_neg (by omega)]
      refine iff_of_true (by omega) (.inl ?_)
      rw [single, Nat.sub_self, Nat.size_zero]
      decide
    · have bits : boundsBits bounds = (upper - lower).size := by
        rw [boundsBits, range, Int.add_sub_cancel, Int.toNat_natCast]
      rw [range, if_pos (by omega), bits]
      have room := Nat.lt_size_self (upper - lower)
      by_cases narrow : (upper - lower).size < 16
      · have small : size - lower < 2 ^ (upper - lower).size := by omega
        rw [fieldWidth_of_lt narrow, Nat.mod_eq_of_lt small]
        exact iff_of_true (by omega) (.inl narrow)
      · have width : fieldWidth (upper - lower).size = 8 + (upper - lower).size % 8 := by
          rw [fieldWidth, if_pos (by omega)]
        rw [width]
        have some := Nat.two_pow_pos (8 + (upper - lower).size % 8)
        constructor
        · intro same
          have less := Nat.mod_lt (size - lower) some
          exact .inr (by omega)
        · rintro (few | small)
          · exact absurd few narrow
          · rw [Nat.mod_eq_of_lt small]
            omega

/-! ## Constraints -/

/-- The bounds of a constraint fit an `int`. -/
def SizeConstraint.Small (constraint : SizeConstraint) : Prop :=
  constraint.lowerBound.toNat < 2 ^ 31 ∧
    (constraint.upperBoundExists → constraint.upperBound.toNat < 2 ^ 31)

theorem widenBounds_nonneg {bounds : Int32 × Int32} {constraint : SizeConstraint}
    (small : constraint.Small) (nonneg : 0 ≤ bounds.1.toInt) :
    0 ≤ (widenBounds bounds constraint).1.toInt := by
  have low := toInt_intOf_of_lt small.1
  unfold widenBounds
  dsimp only
  split
  · rw [low]
    exact Int.natCast_nonneg _
  · exact nonneg

theorem sizeBounds_nonneg {first : SizeConstraint} {rest : List SizeConstraint}
    (small : ∀ constraint ∈ first :: rest, constraint.Small) :
    0 ≤ (sizeBounds first rest).1.toInt := by
  have start : 0 ≤ (intOf first.lowerBound).toInt := by
    rw [toInt_intOf_of_lt (small first List.mem_cons_self).1]
    exact Int.natCast_nonneg _
  unfold sizeBounds findSizeConstraintBounds
  -- The induction is on the constraints, each of which moves the bounds.
  have each : ∀ (constraints : List SizeConstraint) (bounds : Int32 × Int32),
      (∀ constraint ∈ constraints, constraint.Small) → 0 ≤ bounds.1.toInt →
        0 ≤ (constraints.foldl widenBounds bounds).1.toInt := by
    intro constraints
    induction constraints with
    | nil => exact fun _ _ nonneg => nonneg
    | cons constraint rest ih =>
      intro bounds all nonneg
      exact ih _ (fun c there => all c (List.mem_cons_of_mem _ there))
        (widenBounds_nonneg (all constraint List.mem_cons_self) nonneg)
  exact each (first :: rest) _ small start

/-- Strings of constrained sizes are got back exactly where the field has room for their sizes. -/
theorem sized_round_trip_iff {first : SizeConstraint} {rest : List SizeConstraint}
    (small : ∀ constraint ∈ first :: rest, constraint.Small) (bAlign : Bool) (pos : Nat) :
    (∀ x old : AsnOcts, (sizeBounds first rest).1.toInt ≤ x.mStr.length →
      (x.mStr.length : Int) ≤ (sizeBounds first rest).2.toInt →
      (RoundTrips bAlign pos (x.encodeWithSizeConstraint (sizeBounds first rest))
          (old.decodeWithSizeConstraint (sizeBounds first rest)) (· = x) ↔
        SizeKept (sizeBounds first rest).1.toInt.toNat (sizeBounds first rest).2.toInt.toNat
          x.mStr.length)) ∧
    (∀ x old : AsnBits, x.bitLen.toNat ≤ 8 * x.bits.length →
      (sizeBounds first rest).1.toInt ≤ x.bitLen.toNat →
      (x.bitLen.toNat : Int) ≤ (sizeBounds first rest).2.toInt →
      (RoundTrips bAlign pos (x.encodeWithSizeConstraint (sizeBounds first rest))
          (old.decodeWithSizeConstraint (sizeBounds first rest)) x.Same ↔
        SizeKept (sizeBounds first rest).1.toInt.toNat (sizeBounds first rest).2.toInt.toNat
          x.bitLen.toNat)) := by
  have lowest := sizeBounds_nonneg small
  constructor
  · intro x old least most
    rw [AsnOcts.sized_roundTrips_iff old lowest least most]
    exact gotSize_eq_iff (by omega) (by omega) (by omega) (by omega)
  · intro x old holds least most
    rw [AsnBits.sized_roundTrips_iff holds old lowest least most]
    exact gotSize_eq_iff (by omega) (by omega) (by omega) (by omega)

/-- Two octets, and three bits, of one to three. -/
theorem sized_round_trip_iff_few :
    RoundTrips true 5 (AsnOcts.encodeWithSizeConstraint (sizeBounds ⟨1, 3, true⟩ []) ⟨[7, 8]⟩)
        (AsnOcts.decodeWithSizeConstraint ⟨[]⟩ (sizeBounds ⟨1, 3, true⟩ [])) (· = ⟨[7, 8]⟩) ∧
      RoundTrips true 5 (AsnBits.encodeWithSizeConstraint (sizeBounds ⟨1, 3, true⟩ []) ⟨3, [0xA0]⟩)
        (AsnBits.decodeWithSizeConstraint ⟨0, []⟩ (sizeBounds ⟨1, 3, true⟩ []))
          (AsnBits.Same ⟨3, [0xA0]⟩) := by
  have small : ∀ constraint ∈ [(⟨1, 3, true⟩ : SizeConstraint)], constraint.Small :=
    List.forall_mem_singleton.2 ⟨by decide, fun _ => by decide⟩
  obtain ⟨octs, bits⟩ := sized_round_trip_iff small true 5
  exact ⟨(octs ⟨[7, 8]⟩ ⟨[]⟩ (by decide) (by decide)).mpr (.inl (by decide)),
    (bits ⟨3, [0xA0]⟩ ⟨0, []⟩ (by decide) (by decide) (by decide)).mpr (.inl (by decide))⟩

/-- Of 256 octets, where up to 32768 are allowed, the field of the size has eight zeros. -/
theorem not_sized_round_trip :
    ¬ ∀ (first : SizeConstraint) (rest : List SizeConstraint),
      (∀ constraint ∈ first :: rest, constraint.Small) → ∀ (bAlign : Bool) (pos : Nat),
      (∀ x old : AsnOcts, (sizeBounds first rest).1.toInt ≤ x.mStr.length →
        (x.mStr.length : Int) ≤ (sizeBounds first rest).2.toInt →
        RoundTrips bAlign pos (x.encodeWithSizeConstraint (sizeBounds first rest))
          (old.decodeWithSizeConstraint (sizeBounds first rest)) (· = x)) ∧
      (∀ x old : AsnBits, x.bitLen.toNat ≤ 8 * x.bits.length →
        (sizeBounds first rest).1.toInt ≤ x.bitLen.toNat →
        (x.bitLen.toNat : Int) ≤ (sizeBounds first rest).2.toInt →
        RoundTrips bAlign pos (x.encodeWithSizeConstraint (sizeBounds first rest))
          (old.decodeWithSizeConstraint (sizeBounds first rest)) x.Same) := by
  intro trips
  have small : ∀ constraint ∈ [(⟨0, 32768, true⟩ : SizeConstraint)], constraint.Small :=
    List.forall_mem_singleton.2 ⟨by decide, fun _ => by decide⟩
  have low : (sizeBounds ⟨0, 32768, true⟩ []).1.toInt = (0 : Nat) := by decide
  have high : (sizeBounds ⟨0, 32768, true⟩ []).2.toInt = (32768 : Nat) := by decide
  obtain ⟨octets, size⟩ : ∃ octets : List UInt8, octets.length = 256 :=
    ⟨.replicate 256 0, List.length_replicate⟩
  obtain ⟨octs, -⟩ := trips ⟨0, 32768, true⟩ [] small false 0
  have least : (sizeBounds ⟨0, 32768, true⟩ []).1.toInt ≤ octets.length := by omega
  have most : (octets.length : Int) ≤ (sizeBounds ⟨0, 32768, true⟩ []).2.toInt := by omega
  have read := (AsnOcts.sized_roundTrips_iff (x := ⟨octets⟩) ⟨[]⟩ (by omega) least most false 0).mp
    (octs ⟨octets⟩ ⟨[]⟩ least most)
  dsimp only at read
  rw [gotSize_eq_iff low high (Nat.zero_le _) (by omega), size] at read
  rcases read with narrow | room
  · exact absurd narrow (by decide)
  · exact absurd room (by decide)

end Esnacc.Cxx
