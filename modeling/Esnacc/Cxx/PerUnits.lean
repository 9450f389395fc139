import Esnacc.Cxx.PerParts
import Esnacc.Cxx.PerRanges

/-! C++ PER values that put and get each unit on its own. -/

namespace Esnacc.Cxx

open Lib

variable {α : Type}

/-- A routine that puts each of some units, which are given as bits. -/
def Interprets (interpret : Nat → BitsM UInt64) (unit total : Nat) (contents : List Bool) : Prop :=
  ∀ b offset, b.WellFormed → offset < total →
    Puts (interpret offset) b ((contents.drop (offset * unit)).take unit)

theorem Interprets.interpretAll_puts {interpret : Nat → BitsM UInt64} {unit total : Nat}
    {contents : List Bool} (interprets : Interprets interpret unit total contents)
    {b : AsnBufBits} (wellFormed : b.WellFormed) {offset count : Nat}
    (within : offset + count ≤ total) : Puts (PERGeneral.interpretAll interpret offset count) b
      ((contents.drop (offset * unit)).take (count * unit)) := by
  induction count generalizing b offset with
  | zero =>
    rw [Nat.zero_mul, List.take_zero]
    exact ⟨b, rfl, .refl wellFormed⟩
  | succ count ih =>
    -- The first unit, and the others behind it.
    have behind : (contents.drop (offset * unit)).drop unit = contents.drop ((offset + 1) * unit) := by
      rw [List.drop_drop, Nat.succ_mul]
    rw [Nat.succ_mul, Nat.add_comm (count * unit), List.take_add, behind]
    apply (interprets b offset wellFormed (by omega)).add
    intro b' wrote
    exact ih wrote.wellFormed (by omega)

theorem Interprets.putsUnits {interpret : Nat → BitsM UInt64} {unit total : Nat}
    {contents : List Bool} (interprets : Interprets interpret unit total contents) :
    PutsUnits (PERGeneral.interpretAll interpret) unit total contents :=
  fun _ _ _ wellFormed _ within _ => interprets.interpretAll_puts wellFormed within

/-- A routine that takes one unit of a value, behind those that the value has. -/
def Deterprets (deterpret : α → AsnLen → BitsM (α × AsnLen)) (has : α → List Bool → Prop)
    (unit : Nat) : Prop :=
  ∀ x kept, has x kept → ∀ bits, bits.length = unit → ∀ r pos rest, r.Stands pos (bits ++ rest) →
    (bits ++ rest).length < 2 ^ 64 → ∀ bitsDecoded,
      ∃ x' r', (deterpret x bitsDecoded).run r = .ok (x', bitsDecoded + .ofNat bits.length) r' ∧
        has x' (kept ++ bits) ∧ r'.bAlign = r.bAlign ∧ r'.Stands (pos + bits.length) rest

theorem Deterprets.deterpretAll_takes {deterpret : α → AsnLen → BitsM (α × AsnLen)}
    {has : α → List Bool → Prop} {unit : Nat} (deterprets : Deterprets deterpret has unit) {x : α}
    {kept : List Bool} (holds : has x kept) {k : Nat} {bits : List Bool}
    (size : bits.length = k * unit) {r : AsnBufBits} {pos : Nat} {rest : List Bool}
    (stands : r.Stands pos (bits ++ rest)) (countable : (bits ++ rest).length < 2 ^ 64)
    (bitsDecoded : AsnLen) :
    ∃ x' r', (PERGeneral.deterpretAll deterpret x k bitsDecoded).run r =
        .ok (x', bitsDecoded + .ofNat bits.length) r' ∧
      has x' (kept ++ bits) ∧ r'.bAlign = r.bAlign ∧ r'.Stands (pos + bits.length) rest := by
  -- The induction is on the number of units.
  induction k generalizing x kept bits r pos bitsDecoded with
  | zero =>
    obtain rfl : bits = [] := List.eq_nil_of_length_eq_zero (by omega)
    have zero : UInt64.ofNat 0 = 0 := rfl
    rw [PERGeneral.deterpretAll, List.append_nil, List.length_nil, zero, UInt64.add_zero]
    exact ⟨x, r, rfl, holds, rfl, stands⟩
  | succ k ih =>
    obtain ⟨first, others, rfl, one⟩ : ∃ first others, first ++ others = bits ∧ first.length = unit :=
      ⟨bits.take unit, bits.drop unit, List.take_append_drop .., by
        rw [List.length_take, size, Nat.succ_mul]
        omega⟩
    have left : others.length = k * unit := by
      rw [List.length_append, one, Nat.succ_mul] at size
      omega
    rw [List.append_assoc] at stands countable
    obtain ⟨x₁, r₁, took, holds₁, mode₁, stands₁⟩ :=
      deterprets x kept holds first one r pos _ stands countable bitsDecoded
    have behind : (others ++ rest).length < 2 ^ 64 := by
      rw [List.length_append] at countable
      omega
    obtain ⟨x', r', later, holds', mode', last⟩ :=
      ih holds₁ left stands₁ behind (bitsDecoded + .ofNat first.length)
    refine ⟨x', r', ?_, ?_, mode'.trans mode₁, ?_⟩
    · rw [PERGeneral.deterpretAll, run_bind_of_ok took, later, List.length_append, UInt64.ofNat_add,
        UInt64.add_assoc]
    · rwa [List.append_assoc] at holds'
    · rwa [List.length_append, ← Nat.add_assoc]

theorem Deterprets.takesUnits {deterpret : α → AsnLen → BitsM (α × AsnLen)}
    {has : α → List Bool → Prop} {unit : Nat} (deterprets : Deterprets deterpret has unit) :
    TakesUnits (PERGeneral.take deterpret) has unit := by
  intro x kept holds _ k bits size r pos rest octet stands countable bitsDecoded
  -- There is nothing to skip in front of the units.
  obtain ⟨r₁, skips, mode₁, stands₁⟩ := stands.alignNothing octet
  have zero : UInt64.ofNat 0 = 0 := rfl
  rw [PERGeneral.take, run_bind_of_ok skips, ← mode₁, zero, UInt64.add_zero]
  exact deterprets.deterpretAll_takes holds size stands₁ countable bitsDecoded

/-! ## The octets of a number -/

/-- What a number has, as bits. -/
def AsnInt.Has (x : AsnInt) (bits : List Bool) : Prop :=
  x.mBytes.flatMap bitsOf = bits

theorem AsnInt.interpret_interprets (x : AsnInt) :
    Interprets x.interpret 8 x.mBytes.length (x.mBytes.flatMap bitsOf) := by
  intro b offset wellFormed inside
  -- The unit at the offset is the octet there.
  have unit : ((x.mBytes.flatMap bitsOf).drop (offset * 8)).take 8 = bitsOf x.mBytes[offset] := by
    rw [Nat.mul_comm, ← flatMap_bitsOf_drop, List.drop_eq_getElem_cons inside, List.flatMap_cons]
    exact List.take_left' (length_bitsOf _)
  obtain ⟨b', ran, wrote⟩ := putOctet_puts wellFormed x.mBytes[offset]
  rw [unit]
  refine ⟨b', ?_, wrote⟩
  rw [interpret, List.getElem?_eq_getElem inside]
  dsimp only
  rw [run_bind_of_ok ran]
  rfl

theorem AsnInt.deterpret_deterprets : Deterprets AsnInt.deterpret AsnInt.Has 8 := by
  intro x kept holds bits size r pos rest stands countable bitsDecoded
  obtain ⟨seg, r', ran, front, mode, behind⟩ := stands.getBits countable size
  -- The octet that was read has the bits.
  obtain ⟨within, value⟩ := ofOctets_take (n := 1) size front
  have octet : bitsOf (seg.headD 0) = bits := by
    cases seg with
    | nil => simp at within
    | cons c others =>
      rw [List.flatMap_cons, List.take_left' (length_bitsOf c)] at front
      exact front
  refine ⟨⟨x.mBytes ++ [seg.headD 0]⟩, r', ?_, ?_, mode, size.symm ▸ behind⟩
  · rw [size]
    exact run_bind_of_ok ran
  · rw [AsnInt.Has, List.flatMap_append, List.flatMap_singleton, octet, holds]

/-- A number that has no constraints is got with the same octets, however many there are. -/
theorem AsnInt.decodeGeneral_gets (x : AsnInt) {turns : Nat}
    (enough : x.mBytes.length / 16384 < turns) (bAlign : Bool) (pos : Nat) :
    Gets bAlign pos (List.replicate (padding bAlign pos) false ++
        lengthCoded 8 x.mBytes.length (x.mBytes.flatMap bitsOf))
      (PERGeneral.decodeGeneral AsnInt.deterpret turns ⟨[]⟩) (· = x) := by
  have size : (x.mBytes.flatMap bitsOf).length = x.mBytes.length * 8 := by
    rw [length_flatMap_bitsOf, Nat.mul_comm]
  have gets := generalBy_gets AsnInt.deterpret_deterprets.takesUnits
    AsnInt.deterpret_deterprets.takesUnits enough size (x := ⟨[]⟩) rfl bAlign pos
  refine gets.mono fun y same => ?_
  -- Octets are known by their bits.
  obtain ⟨octets⟩ := y
  obtain ⟨mBytes⟩ := x
  exact congrArg AsnInt.mk (flatMap_bitsOf_injective same)

/-- A number that has no constraints is got back with the same octets, however many there are. -/
theorem AsnInt.general_round_trip (x : AsnInt) {turns : Nat}
    (enough : x.mBytes.length / 16384 < turns) (bAlign : Bool) (pos : Nat) :
    RoundTrips bAlign pos (PERGeneral.encodeGeneral x.interpret x.mBytes.length)
      (PERGeneral.decodeGeneral AsnInt.deterpret turns ⟨[]⟩) (· = x) := by
  have size : (x.mBytes.flatMap bitsOf).length = x.mBytes.length * 8 := by
    rw [length_flatMap_bitsOf, Nat.mul_comm]
  apply roundTrips_of_puts
  intro b wellFormed mode position
  refine ⟨_, encodeGeneral_puts x.interpret_interprets.putsUnits size wellFormed, ?_⟩
  -- The gap is the one at the position.
  rw [AsnBufBits.gap, mode, padding_congr fun _ => position]
  exact x.decodeGeneral_gets enough bAlign pos

end Esnacc.Cxx
