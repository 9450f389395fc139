import Esnacc.Cxx.PerParts

/-! C++ PER strings of any length are got back from the fragments they are put in. -/

namespace Esnacc.Cxx

open Lib

variable {α : Type}

/-- A routine that appends the units read to those that a value has. -/
def Appends (append : α → Nat → List UInt8 → α) (has : α → List Bool → Prop) (unit : Nat) : Prop :=
  ∀ x kept, has x kept → kept.length % 8 = 0 → ∀ k bits pseg, bits.length = k * unit →
    (pseg.flatMap bitsOf).take bits.length = bits → has (append x k pseg) (kept ++ bits)

section

variable {append : α → Nat → List UInt8 → α} {has : α → List Bool → Prop} {unit : Nat}

theorem takeFragment_takes (appends : Appends append has unit) :
    TakesUnits (takeFragment unit append) has unit := by
  intro x kept holds whole k bits size r pos rest octet stands countable bitsDecoded
  -- There is nothing to skip in front of the units.
  obtain ⟨r₁, skips, mode₁, stands₁⟩ := stands.alignNothing octet
  obtain ⟨pseg, r', ran, front, mode', behind⟩ := stands₁.getBits countable size
  rw [← size] at front behind
  refine ⟨append x k pseg, r', ?_, appends x kept holds whole k bits pseg size front,
    mode'.trans mode₁, behind⟩
  rw [takeFragment, run_bind_of_ok skips, run_bind_of_ok ran, size]
  rfl

theorem decodePart_takes (appends : Appends append has unit) :
    TakesUnits (decodePart unit append) has unit := by
  intro x kept holds whole k bits size r pos rest octet stands countable bitsDecoded
  -- The bits skipped are counted, but there are none.
  obtain ⟨r₁, skips, mode₁, stands₁⟩ := stands.alignNothing octet
  obtain ⟨pseg, r', ran, front, mode', behind⟩ := stands₁.getBits countable size
  rw [← size] at front behind
  refine ⟨append x k pseg, r', ?_, appends x kept holds whole k bits pseg size front,
    mode'.trans mode₁, behind⟩
  have zero : UInt64.ofNat 0 = 0 := rfl
  rw [decodePart, run_bind_of_ok skips, run_bind_of_ok ran, size, zero, UInt64.add_zero]
  rfl

end

/-! ## OCTET STRING -/

/-- What an octet string has, as bits. -/
def AsnOcts.Has (x : AsnOcts) (bits : List Bool) : Prop :=
  x.mStr.flatMap bitsOf = bits

theorem AsnOcts.append_appends : Appends AsnOcts.append AsnOcts.Has 8 := by
  intro x kept holds _ k bits pseg size front
  -- The octets that were asked for have the bits that were read.
  rw [size, take_flatMap_bitsOf, Nat.mul_div_cancel k (by decide), Nat.mul_mod_left, List.take_zero,
    List.append_nil] at front
  rw [AsnOcts.Has, AsnOcts.append, List.flatMap_append, front, holds]

theorem AsnOcts.putOctets_putsUnits (x : AsnOcts) :
    PutsUnits x.putOctets 8 x.mStr.length (x.mStr.flatMap bitsOf) := by
  intro b offset count wellFormed _ within most
  have put := putSeg_puts wellFormed (x.mStr.drop offset) (n := count * 8)
    (by rw [List.length_drop]; omega) (by omega)
  rw [flatMap_bitsOf_drop, Nat.mul_comm 8 offset] at put
  exact put

theorem AsnOcts.general_round_trip (x old : AsnOcts) {turns : Nat}
    (enough : x.mStr.length / 16384 < turns) (bAlign : Bool) (pos : Nat) :
    RoundTrips bAlign pos x.encodeGeneral (AsnOcts.decodeGeneral turns old) (· = x) := by
  have size : (x.mStr.flatMap bitsOf).length = x.mStr.length * 8 := by
    rw [length_flatMap_bitsOf, Nat.mul_comm]
  have trips := Cxx.general_round_trip x.putOctets_putsUnits
    (takeFragment_takes AsnOcts.append_appends) (decodePart_takes AsnOcts.append_appends) enough size
    (x := old.clear) rfl bAlign pos
  rw [← decodeGeneral_eq_generalBy] at trips
  refine trips.mono fun y same => ?_
  -- Octets are known by their bits.
  obtain ⟨octets⟩ := y
  obtain ⟨mStr⟩ := x
  exact congrArg AsnOcts.mk (flatMap_bitsOf_injective same)

/-! ## BIT STRING -/

/-- The bits of a bit string. -/
@[grind =] def AsnBits.theBits (x : AsnBits) : List Bool :=
  (x.bits.flatMap bitsOf).take x.bitLen.toNat

/-- What a bit string has, with no more octets than its bits fill. -/
structure AsnBits.Has (x : AsnBits) (bits : List Bool) : Prop where
  bitLen : x.bitLen = .ofNat bits.length
  octets : x.bits.length = (bits.length + 7) / 8
  kept : (x.bits.flatMap bitsOf).take bits.length = bits

theorem AsnBits.append_appends : Appends AsnBits.append AsnBits.Has 1 := by
  intro x kept holds whole k bits pseg size front
  obtain ⟨bitLen, octets, same⟩ := holds
  rw [Nat.mul_one] at size
  have enough : bits.length ≤ 8 * pseg.length := by
    have sizes := congrArg List.length front
    rw [List.length_take, length_flatMap_bitsOf] at sizes
    omega
  have fill : (pseg.take ((k + 7) / 8)).length = (bits.length + 7) / 8 := by
    rw [List.length_take]
    omega
  -- The octets kept are full, so that the new bits come right behind theirs.
  have all : x.bits.flatMap bitsOf = kept := by
    rw [← same, List.take_of_length_le]
    rw [length_flatMap_bitsOf]
    omega
  constructor
  · rw [AsnBits.append, bitLen, List.length_append, UInt64.ofNat_add, size]
  · rw [AsnBits.append, List.length_append, fill, List.length_append]
    omega
  · have taken : ((pseg.take ((k + 7) / 8)).flatMap bitsOf).take bits.length = bits := by
      have split : ((pseg.take ((k + 7) / 8) ++ pseg.drop ((k + 7) / 8)).flatMap bitsOf).take
          bits.length = bits := by
        rw [List.take_append_drop, front]
      rwa [List.flatMap_append, List.take_append_of_le_length
        (by rw [length_flatMap_bitsOf]; omega)] at split
    rw [AsnBits.append, List.flatMap_append, all, List.length_append, List.take_length_add_append,
      taken]

theorem AsnBits.putBits_putsUnits {x : AsnBits} (holds : x.bitLen.toNat ≤ 8 * x.bits.length) :
    PutsUnits x.putBits 1 x.bitLen.toNat x.theBits := by
  intro b offset count wellFormed octets within most
  have whole : 8 * (offset / 8) = offset := by omega
  have put := putSeg_puts wellFormed (x.bits.drop (offset / 8)) (n := count)
    (by rw [List.length_drop]; omega) (by omega)
  -- The bits behind the last one are not reached.
  have inside : (x.theBits.drop (offset * 1)).take (count * 1) =
      ((x.bits.flatMap bitsOf).drop offset).take count := by
    rw [theBits, Nat.mul_one, Nat.mul_one, List.drop_take, List.take_take]
    congr 1
    omega
  rw [flatMap_bitsOf_drop, whole] at put
  rwa [inside]

/-- The value that a bit string is got back as: its bits, in the octets they fill. -/
def AsnBits.Same (x y : AsnBits) : Prop :=
  y.bitLen = x.bitLen ∧ y.theBits = x.theBits ∧ y.bits.length = (x.bitLen.toNat + 7) / 8

theorem AsnBits.length_theBits {x : AsnBits} (holds : x.bitLen.toNat ≤ 8 * x.bits.length) :
    x.theBits.length = x.bitLen.toNat := by
  rw [theBits, List.length_take, length_flatMap_bitsOf]
  omega

theorem AsnBits.Has.same {x y : AsnBits} (holds : x.bitLen.toNat ≤ 8 * x.bits.length)
    (has : y.Has x.theBits) : x.Same y := by
  -- The number of bits is the one that was put.
  obtain ⟨bitLen, octets, kept⟩ := has
  rw [length_theBits holds] at bitLen octets kept
  have counted : y.bitLen = x.bitLen := by
    rw [bitLen, UInt64.ofNat_toNat]
  exact ⟨counted, by rw [theBits, counted, kept], octets⟩

theorem AsnBits.general_round_trip {x : AsnBits} (holds : x.bitLen.toNat ≤ 8 * x.bits.length)
    (old : AsnBits) {turns : Nat} (enough : x.bitLen.toNat / 16384 < turns) (bAlign : Bool)
    (pos : Nat) :
    RoundTrips bAlign pos x.encodeGeneral (AsnBits.decodeGeneral turns old) x.Same := by
  have size := length_theBits holds
  have none : AsnBits.Has old.clear [] := ⟨rfl, rfl, rfl⟩
  have trips := Cxx.general_round_trip (putBits_putsUnits holds)
    (takeFragment_takes AsnBits.append_appends) (decodePart_takes AsnBits.append_appends) enough
    (by rw [size, Nat.mul_one]) none bAlign pos
  rw [← decodeGeneral_eq_generalBy] at trips
  exact trips.mono fun y has => has.same holds

/--
Strings without constraints are got back from their fragments, whatever their length.

The loop over the fragments is granted a turn for each 16384 units, and one more.
-/
theorem fragments_round_trip (bAlign : Bool) (pos : Nat) :
    (∀ (x old : AsnOcts) (turns : Nat), x.mStr.length / 16384 < turns →
      RoundTrips bAlign pos x.encodeGeneral (AsnOcts.decodeGeneral turns old) (· = x)) ∧
    (∀ (x old : AsnBits) (turns : Nat), x.bitLen.toNat ≤ 8 * x.bits.length →
      x.bitLen.toNat / 16384 < turns →
      RoundTrips bAlign pos x.encodeGeneral (AsnBits.decodeGeneral turns old) x.Same) :=
  ⟨fun x old _ enough => x.general_round_trip old enough bAlign pos,
    fun _ old _ holds enough => AsnBits.general_round_trip holds old enough bAlign pos⟩

/-- Three octets, and eleven bits of two others, from behind five bits on. -/
theorem fragments_round_trip_short :
    RoundTrips true 5 (AsnOcts.encodeGeneral ⟨[1, 2, 3]⟩) (AsnOcts.decodeGeneral 1 ⟨[7]⟩)
      (· = ⟨[1, 2, 3]⟩) ∧
    RoundTrips true 5 (AsnBits.encodeGeneral ⟨11, [0xA5, 0x5A]⟩) (AsnBits.decodeGeneral 1 ⟨0, []⟩)
      (AsnBits.Same ⟨11, [0xA5, 0x5A]⟩) :=
  ⟨(fragments_round_trip true 5).1 ⟨[1, 2, 3]⟩ ⟨[7]⟩ 1 (by decide),
    (fragments_round_trip true 5).2 ⟨11, [0xA5, 0x5A]⟩ ⟨0, []⟩ 1 (by decide) (by decide)⟩

end Esnacc.Cxx
