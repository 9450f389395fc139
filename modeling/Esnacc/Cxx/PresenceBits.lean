import Esnacc.Cxx.RoundTrips
import Esnacc.Cxx.Contents

/-! Bit strings of which single bits are set and read, and how they go through a C++ bit buffer. -/

namespace Esnacc.Cxx

open Lib

/-! ## Single bits -/

/-- Make a bit string one of the given number of zeros; a number of zero changes nothing. -/
def AsnBits.set (x : AsnBits) (numBits : UInt64) : AsnBits :=
  if 0 < numBits then
    { bitLen := numBits
      bits := List.replicate ((numBits + 7) / 8).toNat 0 }
  else x

/-- Set a bit, of which the first one is the most significant one of the first octet. -/
def AsnBits.setBit (x : AsnBits) (bit : UInt64) : Except Thrown AsnBits :=
  if bit < x.bitLen then
    let octet := (bit / 8).toNat
    let octetsBit := 7 - (bit % 8).toNat
    return { x with bits := x.bits.modify octet (· ||| shl 1 octetsBit) }
  else throw (.snaccException "Parameter is larger than BIT STRING size" 6008)

/-- Whether a bit is set; none is behind the end. -/
def AsnBits.getBit (x : AsnBits) (bit : UInt64) : Bool :=
  if bit < x.bitLen then
    let octet := (bit / 8).toNat
    let octetsBit := 7 - (bit % 8).toNat
    x.bits.getD octet 0 &&& shl 1 octetsBit ≠ 0
  else false

/-- Set the bits of a bit string that are set in the buffer. -/
def getEachBit : Nat → Nat → AsnBits → BitsM AsnBits
  | 0, _, bits => return bits
  | count + 1, i, bits => do
    let bits ← (if ← Cxx.getBit then ofExcept (bits.setBit (.ofNat i)) else return bits)
    getEachBit count (i + 1) bits

/-- Read some bits into a bit string. -/
def getAsnBits (bits : AsnBits) (numBits : UInt64) : BitsM (AsnBits × UInt64) := do
  let b ← get
  if b.bitsLeft < numBits then throw tooManyBits
  else
    let bits ← getEachBit numBits.toNat 0 (bits.set numBits)
    return (bits, numBits)

/-! ## What a bit string shows -/

/-- A bit string of the given bits, behind which its last octet is filled with zeros. -/
structure AsnBits.Shows (x : AsnBits) (shown : List Bool) : Prop where
  bitLen : x.bitLen = .ofNat shown.length
  bits : ∃ k, x.bits.flatMap bitsOf = shown ++ List.replicate k false

/-- Setting a bit of an octet among others sets it among all their bits. -/
theorem flatMap_bitsOf_modify (octets : List UInt8) (i : Nat) :
    (octets.modify (i / 8) (· ||| shl 1 (7 - i % 8))).flatMap bitsOf =
      (octets.flatMap bitsOf).set i true := by
  have place : i % 8 < 8 := Nat.mod_lt i (by omega)
  cases held : octets[i / 8]? with
  | none =>
    -- The bit stands behind all the octets.
    have past := List.getElem?_eq_none_iff.mp held
    have size := length_flatMap_bitsOf octets
    rw [List.modify_eq_self (by omega), List.set_eq_of_length_le (by omega)]
  | some c =>
    obtain ⟨within, here⟩ := List.getElem?_eq_some_iff.mp held
    rw [List.modify_eq_set, held]
    exact flatMap_bitsOf_set held (bitsOf_or_shl_one c place)

/-! ## What each routine does to the bits shown -/

theorem toNat_ofNat_lt {n : Nat} (small : n < 2 ^ 32) : (UInt64.ofNat n).toNat = n := by
  rw [UInt64.toNat_ofNat']
  omega

/-- A bit string that is made anew shows zeros. -/
theorem AsnBits.set_shows (x : AsnBits) {n : Nat} (some : 0 < n) (small : n < 2 ^ 32) :
    (x.set (.ofNat n)).Shows (List.replicate n false) := by
  have word := toNat_ofNat_lt small
  have least : 0 < UInt64.ofNat n := by
    rw [UInt64.lt_iff_toNat_lt, word]
    exact some
  have octets : ((UInt64.ofNat n + 7) / 8).toNat = (n + 7) / 8 := by
    rw [UInt64.toNat_div, UInt64.toNat_add, word]
    change (n + 7) % 2 ^ 64 / 8 = _
    omega
  rw [set, if_pos least, octets]
  refine ⟨by rw [List.length_replicate], 8 * ((n + 7) / 8) - n, ?_⟩
  -- Each octet of zeros is eight zeros.
  have zeros : ∀ count, (List.replicate count (0 : UInt8)).flatMap bitsOf =
      List.replicate (8 * count) false := by
    intro count
    induction count with
    | zero => rfl
    | succ count ih =>
      rw [List.replicate_succ, List.flatMap_cons, ih, show 8 * (count + 1) = 8 + 8 * count by omega,
        ← List.replicate_append_replicate]
      rfl
  rw [zeros, List.replicate_append_replicate]
  congr 1
  omega

theorem AsnBits.Shows.data {x : AsnBits} {shown : List Bool} (shows : x.Shows shown) :
    shown.length ≤ 8 * x.bits.length ∧ (x.bits.flatMap bitsOf).take shown.length = shown := by
  obtain ⟨k, bits⟩ := shows.bits
  have size := congrArg List.length bits
  rw [length_flatMap_bitsOf, List.length_append] at size
  exact ⟨by omega, by rw [bits, List.take_left]⟩

/-- A bit that stands inside is set. -/
theorem AsnBits.Shows.setBit {x : AsnBits} {shown : List Bool} (shows : x.Shows shown)
    (small : shown.length < 2 ^ 32) {i : Nat} (inside : i < shown.length) :
    ∃ y, x.setBit (.ofNat i) = .ok y ∧ y.Shows (shown.set i true) := by
  have word := toNat_ofNat_lt (n := i) (by omega)
  have all := toNat_ofNat_lt small
  have octet : (UInt64.ofNat i / 8).toNat = i / 8 := by
    rw [UInt64.toNat_div, word]
    rfl
  have place : (UInt64.ofNat i % 8).toNat = i % 8 := by
    rw [UInt64.toNat_mod, word]
    rfl
  have below : UInt64.ofNat i < x.bitLen := by
    rw [shows.bitLen, UInt64.lt_iff_toNat_lt, word, all]
    exact inside
  obtain ⟨k, bits⟩ := shows.bits
  rw [AsnBits.setBit, if_pos below, octet, place]
  refine ⟨_, rfl, ?_, k, ?_⟩
  · rw [List.length_set]
    exact shows.bitLen
  · change (x.bits.modify (i / 8) _).flatMap bitsOf = _
    rw [flatMap_bitsOf_modify, bits, List.set_append_left _ _ inside]

/-- A bit that stands inside is read. -/
theorem AsnBits.Shows.getBit {x : AsnBits} {shown : List Bool} (shows : x.Shows shown)
    (small : shown.length < 2 ^ 32) {i : Nat} {bit : Bool} (held : shown[i]? = some bit) :
    x.getBit (.ofNat i) = bit := by
  obtain ⟨inside, -⟩ := List.getElem?_eq_some_iff.mp held
  have word := toNat_ofNat_lt (n := i) (by omega)
  have all := toNat_ofNat_lt small
  have octet : (UInt64.ofNat i / 8).toNat = i / 8 := by
    rw [UInt64.toNat_div, word]
    rfl
  have place : (UInt64.ofNat i % 8).toNat = i % 8 := by
    rw [UInt64.toNat_mod, word]
    rfl
  have below : UInt64.ofNat i < x.bitLen := by
    rw [shows.bitLen, UInt64.lt_iff_toNat_lt, word, all]
    exact inside
  obtain ⟨k, bits⟩ := shows.bits
  -- The bit asked for stands in one of the octets.
  have here := getElem?_flatMap_bitsOf x.bits i
  rw [bits, List.getElem?_append_left inside, held] at here
  rw [AsnBits.getBit, if_pos below, octet, place]
  dsimp only
  rw [List.getD_eq_getElem?_getD]
  cases found : x.bits[i / 8]? with
  | none =>
    rw [found] at here
    cases here
  | some c =>
    rw [found, Option.map_some, Option.some.injEq] at here
    rw [Option.getD_some, here]
    exact and_shl_one c (Nat.mod_lt i (by omega))

theorem set_replicate_false (done : List Bool) (count : Nat) :
    (done ++ List.replicate (count + 1) false).set done.length true =
      (done ++ [true]) ++ List.replicate count false := by
  rw [List.set_append_right _ _ (Nat.le_refl _), Nat.sub_self, List.replicate_succ,
    List.set_cons_zero, List.append_assoc]
  rfl

/-- The bits that come next are read behind those that are there. -/
theorem AsnBufBits.Stands.getEachBit {b : AsnBufBits} {pos : Nat} {bits more : List Bool}
    (stands : b.Stands pos (bits ++ more)) (countable : (bits ++ more).length < 2 ^ 64)
    {x : AsnBits} {done : List Bool}
    (shows : x.Shows (done ++ List.replicate bits.length false))
    (small : done.length + bits.length < 2 ^ 32) :
    ∃ y b', (getEachBit bits.length done.length x).run b = .ok y b' ∧ y.Shows (done ++ bits) ∧
      b'.bAlign = b.bAlign ∧ b'.Stands (pos + bits.length) more := by
  induction bits generalizing b pos x done with
  | nil => exact ⟨x, b, rfl, shows, rfl, stands⟩
  | cons bit bits ih =>
    rw [List.length_cons] at small shows
    rw [List.length_append, List.length_cons] at countable
    -- The next bit is there to be read.
    have next : b.Stands pos ([bit] ++ (bits ++ more)) := stands
    obtain ⟨enough, front⟩ := next.front
    have left := next.enough (by simp only [List.length_append, List.length_singleton]; omega)
    have some : b.bitsLeft ≠ 0 := by
      intro none
      rw [none] at left
      cases left
    obtain ⟨got, b₁, ran, same, read⟩ := getBit_read next.wellFormed some enough
    obtain rfl : got = bit := List.singleton_inj.mp (same.trans front)
    have behind : b₁.Stands (pos + 1) (bits ++ more) := next.read read
    have room : (done ++ [got]).length + bits.length < 2 ^ 32 := by
      rw [List.length_append, List.length_singleton]
      omega
    -- The bit string takes the bit over.
    have taken : ∃ y, (if got then ofExcept (x.setBit (.ofNat done.length)) else return x : BitsM _) =
        pure y ∧ y.Shows ((done ++ [got]) ++ List.replicate bits.length false) := by
      cases got with
      | true =>
        obtain ⟨y, set, shown⟩ := shows.setBit (i := done.length)
          (by simp only [List.length_append, List.length_replicate]; omega)
          (by simp only [List.length_append, List.length_replicate]; omega)
        rw [set_replicate_false] at shown
        exact ⟨y, by rw [if_pos rfl, set]; rfl, shown⟩
      | false =>
        refine ⟨x, rfl, ?_⟩
        rw [List.append_assoc]
        exact shows
    obtain ⟨y, keeps, shown⟩ := taken
    obtain ⟨z, b', ranRest, shownAll, mode, standsAll⟩ :=
      ih behind (by rw [List.length_append]; omega) shown room
    rw [List.length_append, List.length_singleton] at ranRest
    refine ⟨z, b', ?_, ?_, mode.trans read.bAlign, ?_⟩
    · rw [List.length_cons, Cxx.getEachBit, run_bind_of_ok ran, keeps]
      exact ranRest
    · rwa [List.append_assoc] at shownAll
    · rwa [List.length_cons, show pos + (bits.length + 1) = pos + 1 + bits.length by omega]

/-- A bit string is got from bits that come next. -/
theorem getAsnBits_gets (bAlign : Bool) (pos : Nat) (x : AsnBits) {bits : List Bool}
    (some : 0 < bits.length) (small : bits.length < 2 ^ 32) :
    Gets bAlign pos bits (fun bitsDecoded => do
      let (y, count) ← getAsnBits x (.ofNat bits.length)
      return (y, bitsDecoded + count)) (·.Shows bits) := by
  intro r rest mode stands countable bitsDecoded
  have word := toNat_ofNat_lt small
  have enough : ¬r.bitsLeft < UInt64.ofNat bits.length := by
    rw [UInt64.not_lt, UInt64.le_iff_toNat_le, word]
    exact stands.enough countable
  have zeros := x.set_shows some small
  obtain ⟨y, r', ran, shows, mode', behind⟩ :=
    @AsnBufBits.Stands.getEachBit _ _ _ _ stands countable _ [] zeros (by simpa using small)
  refine ⟨y, r', ?_, shows, mode'.trans mode, behind⟩
  have got : (getAsnBits x (.ofNat bits.length)).run r = .ok (y, .ofNat bits.length) r' := by
    rw [getAsnBits, run_bind_of_ok (EStateM.run_get r), if_neg enough, word]
    rw [List.length_nil] at ran
    rw [run_bind_of_ok ran]
    rfl
  rw [run_bind_of_ok got]
  rfl

end Esnacc.Cxx
