import Esnacc.Ber.Lengths
import Esnacc.Ber.Numbers
import Esnacc.Ber.Strings
import Esnacc.Lib.Bits

/-! Single bits of a BIT STRING: how they are set, cleared, read, compared and encoded. -/

namespace Esnacc

open Lib

/-- A `char`, which is signed, as an `int`. -/
def charInt (c : UInt8) : Int32 :=
  c.toInt8.toInt32

/-- The `int` with only the octet's bit set that a number stands for; bit zero is the most significant
one. -/
def octetsBitMask (bit : UInt64) : Int32 :=
  let octetsBit := 7 - bit % 8
  1 <<< intOf octetsBit

/-- Change one octet, unless the number is that of no bit. -/
def changeAsnBit (change : Int32 → Int32 → Int32) (b1 : AsnBits) (bit : UInt64) : Option AsnBits :=
  if bit < ulongOf b1.bitLen then do
    let octet := (bit / 8).toNat
    let c ← b1.bits[octet]?
    return { b1 with
      bits := b1.bits.set octet (change (charInt c) (octetsBitMask bit)).toInt8.toUInt8 }
  else some b1

/-- Set a bit to 1. -/
def setAsnBit (b1 : AsnBits) (bit : UInt64) : Option AsnBits :=
  changeAsnBit (fun octet mask => octet ||| mask) b1 bit

/-- Set a bit to 0. -/
def clrAsnBit (b1 : AsnBits) (bit : UInt64) : Option AsnBits :=
  changeAsnBit (fun octet mask => octet &&& ~~~mask) b1 bit

/-- Read a bit, which is zero if it is out of range. -/
def getAsnBit (b1 : AsnBits) (bit : UInt64) : Option Int32 :=
  if bit < ulongOf b1.bitLen then do
    let octet := (bit / 8).toNat
    let c ← b1.bits[octet]?
    return charInt c &&& octetsBitMask bit
  else some 0

/-- The octets that `memcmp` is given, if so many are stored. -/
def comparedOctets (b : AsnBits) (n : UInt64) : Option (List UInt8) :=
  if n.toNat ≤ b.bits.length then some (b.bits.take n.toNat) else none

/-- Whether two bit strings are identical. -/
def asnBitsEquiv (b1 b2 : AsnBits) : Option Bool :=
  if b1.bitLen == 0 && b2.bitLen == 0 then some true
  else
    let octetsLessOne := (b1.bitLen - 1) / 8
    let unusedBits := b1.bitLen % 8
    let unusedBits := if unusedBits != 0 then 8 - unusedBits else unusedBits
    -- Trailing bits may not be significant.
    if b1.bitLen == b2.bitLen then do
      let octets1 ← comparedOctets b1 (ulongOf octetsLessOne)
      let octets2 ← comparedOctets b2 (ulongOf octetsLessOne)
      if octets1 == octets2 then
        let last1 ← b1.bits[(ulongOf octetsLessOne).toNat]?
        let last2 ← b2.bits[(ulongOf octetsLessOne).toNat]?
        return charInt last1 &&& 0xFF <<< unusedBits == charInt last2 &&& 0xFF <<< unusedBits
      else return false
    else some false

/-- Encode the contents of a BIT STRING, the octet of its unused bits in front. -/
def bEncAsnBitsContent (bits : AsnBits) : Option (Enc AsnLen) :=
  let byteLen := ulongOf ((bits.bitLen + 7) / 8)
  let unusedBits : UInt64 := (ulongOf (bits.bitLen % 8)).toUInt8.toUInt64
  let unusedBits := if unusedBits != 0 then 8 - unusedBits else unusedBits
  -- More octets than are stored are not read.
  if byteLen.toNat ≤ bits.bits.length then
    some do
      bufPutSegRvs (bits.bits.take byteLen.toNat)
      bufPutByteRvs unusedBits.toUInt8
      return byteLen + 1
  else none

/-! ## Octets and their bits -/

theorem toUInt8_charInt (c : UInt8) : (charInt c).toInt8.toUInt8 = c := by
  simp [charInt]

/-- The mask of a bit depends on its place in the octet. -/
theorem octetsBitMask_eq (bit : UInt64) :
    octetsBitMask bit = 1 <<< Int32.ofNat (7 - bit.toNat % 8) := by
  have each : ∀ j : Fin 8, (1 : Int32) <<< intOf (7 - UInt64.ofNat j) =
      1 <<< Int32.ofNat (7 - j) := by
    decide
  have place : bit % 8 = UInt64.ofNat (bit.toNat % 8) := by
    apply UInt64.toNat_inj.mp
    rw [UInt64.toNat_mod, UInt64.toNat_ofNat']
    change bit.toNat % 8 = _
    omega
  rw [octetsBitMask, place]
  exact each ⟨bit.toNat % 8, Nat.mod_lt _ (by decide)⟩

/-- What the masks do to an octet, place by place. -/
structure MaskAt (c : UInt8) (j : Nat) : Prop where
  read : (charInt c &&& 1 <<< Int32.ofNat (7 - j) ≠ 0) ↔ c.toBitVec.getMsbD j = true
  set : bitsOf (charInt c ||| 1 <<< Int32.ofNat (7 - j)).toInt8.toUInt8 = (bitsOf c).set j true
  clear : bitsOf (charInt c &&& ~~~(1 <<< Int32.ofNat (7 - j))).toInt8.toUInt8 =
    (bitsOf c).set j false

/-- A mask within an octet leaves what it leaves of the octet itself. -/
theorem charInt_and (c d : UInt8) :
    charInt c &&& d.toUInt32.toInt32 = (c &&& d).toUInt32.toInt32 := by
  apply Int32.toBitVec_inj.mp
  apply BitVec.eq_of_getLsbD_eq
  intro i inside
  change (c.toBitVec.signExtend 32 &&& d.toBitVec.setWidth 32).getLsbD i =
    ((c.toBitVec &&& d.toBitVec).setWidth 32).getLsbD i
  rw [BitVec.getLsbD_and, BitVec.getLsbD_signExtend, BitVec.getLsbD_setWidth,
    BitVec.getLsbD_setWidth, BitVec.getLsbD_and]
  -- The copies of the sign stand where the mask has zeros.
  by_cases low : i < 8
  · rw [if_pos low]
    simp [inside]
  · have none := BitVec.getLsbD_of_ge d.toBitVec i (Nat.le_of_not_lt low)
    rw [none]
    simp

theorem mask_eq {j : Nat} (place : j < 8) :
    (1 : Int32) <<< Int32.ofNat (7 - j) = (shl 1 (7 - j)).toUInt32.toInt32 := by
  have each : ∀ j : Fin 8, (1 : Int32) <<< Int32.ofNat (7 - j) =
      (shl 1 (7 - j)).toUInt32.toInt32 := by
    decide
  exact each ⟨j, place⟩

theorem toUInt8_word (c : UInt8) : c.toUInt32.toInt32.toInt8.toUInt8 = c := by
  apply UInt8.toBitVec_inj.mp
  change (c.toBitVec.setWidth 32).signExtend 8 = c.toBitVec
  rw [BitVec.signExtend_eq_setWidth_of_le _ (by decide)]
  simp

theorem maskAt (c : UInt8) {j : Nat} (place : j < 8) : MaskAt c j := by
  have low := toUInt8_word (shl 1 (7 - j))
  constructor
  · have zero : (c &&& shl 1 (7 - j)).toUInt32.toInt32 = 0 ↔ c &&& shl 1 (7 - j) = 0 := by
      constructor
      · intro none
        rw [← toUInt8_word (c &&& shl 1 (7 - j)), none]
        rfl
      · intro none
        rw [none]
        rfl
    rw [mask_eq place, charInt_and, ne_eq, zero, ← and_shl_one c place, decide_eq_true_iff]
  · rw [mask_eq place, Int32.toInt8_or, Int8.toUInt8_or, toUInt8_charInt, low,
      bitsOf_or_shl_one c place]
  · rw [mask_eq place, Int32.toInt8_and, Int8.toUInt8_and, toUInt8_charInt, Int32.toInt8_not,
      Int8.toUInt8_not, low, bitsOf_and_not_shl_one c place]

theorem charInt_masked (c : UInt8) {u : Nat} (few : u < 8) :
    (charInt c &&& 0xFF <<< Int32.ofNat u).toInt8.toUInt8 = shl (shr c u) u ∧
      charInt (shl (shr c u) u) &&& 0xFF <<< Int32.ofNat u =
        charInt c &&& 0xFF <<< Int32.ofNat u := by
  have each : ∀ (c : Fin 256) (u : Fin 8),
      (charInt (.ofFin c) &&& 0xFF <<< Int32.ofNat u).toInt8.toUInt8 =
        shl (shr (.ofFin c) u) u ∧
      charInt (shl (shr (.ofFin c) u) u) &&& 0xFF <<< Int32.ofNat u =
        charInt (.ofFin c) &&& 0xFF <<< Int32.ofNat u := by
    decide +kernel
  exact each c.toFin ⟨u, few⟩

/-- Two octets agree behind a mask exactly when their leading bits do. -/
theorem masked_eq_iff (c d : UInt8) {u : Nat} (few : u < 8) :
    charInt c &&& 0xFF <<< Int32.ofNat u = charInt d &&& 0xFF <<< Int32.ofNat u ↔
      (bitsOf c).take (8 - u) = (bitsOf d).take (8 - u) := by
  have leading : ∀ c, bitsOf (shl (shr c u) u) =
      (bitsOf c).take (8 - u) ++ List.replicate u false := by
    intro c
    rw [bitsOf_shl (Nat.le_of_lt few), bitsOf_shr (Nat.le_of_lt few),
      List.drop_left' (List.length_replicate ..)]
  obtain ⟨narrowC, maskedC⟩ := charInt_masked c few
  obtain ⟨narrowD, maskedD⟩ := charInt_masked d few
  constructor
  · intro same
    have octets : shl (shr c u) u = shl (shr d u) u := by rw [← narrowC, same, narrowD]
    have bits := congrArg bitsOf octets
    rwa [leading, leading, List.append_left_inj] at bits
  · intro same
    have octets : shl (shr c u) u = shl (shr d u) u := by
      apply bitsOf_injective
      rw [leading, leading, same]
    rw [← maskedC, octets, maskedD]

/-! ## Stored bit strings -/

/-- A bit string whose bits are all stored, in octets that one block of memory holds. -/
structure AsnBits.Stored (b : AsnBits) : Prop where
  nonneg : 0 ≤ b.bitLen.toInt
  held : b.bitLen.toInt ≤ 8 * b.bits.length
  oneBlock : b.bits.length < 2 ^ 63

/-- The bits of a bit string, the most significant one of the first octet first. -/
@[grind =] def AsnBits.shown (b : AsnBits) : List Bool :=
  (b.bits.flatMap bitsOf).take b.bitLen.toInt.toNat

theorem AsnBits.Stored.length_shown {b : AsnBits} (stored : b.Stored) :
    b.shown.length = b.bitLen.toInt.toNat := by
  have held := stored.held
  rw [AsnBits.shown, List.length_take, length_flatMap_bitsOf]
  omega

theorem AsnBits.Stored.lt_iff {b : AsnBits} (stored : b.Stored) (bit : UInt64) :
    bit < ulongOf b.bitLen ↔ bit.toNat < b.bitLen.toInt.toNat := by
  have width := toNat_ulongOf_of_nonneg stored.nonneg
  rw [UInt64.lt_iff_toNat_lt]
  omega

theorem AsnBits.Stored.octet {b : AsnBits} (stored : b.Stored) {bit : UInt64}
    (below : bit < ulongOf b.bitLen) :
    ∃ c, b.bits[bit.toNat / 8]? = some c := by
  have inside := (stored.lt_iff bit).mp below
  have held := stored.held
  exact ⟨_, List.getElem?_eq_getElem (by omega)⟩

/-- A bit that is read is the one shown. -/
theorem AsnBits.Stored.getAsnBit {b : AsnBits} (stored : b.Stored) (bit : UInt64) :
    ∃ v, getAsnBit b bit = some v ∧ (v ≠ 0 ↔ b.shown[bit.toNat]? = some true) := by
  by_cases below : bit < ulongOf b.bitLen
  · obtain ⟨c, here⟩ := stored.octet below
    have inside := (stored.lt_iff bit).mp below
    have place := maskAt c (Nat.mod_lt bit.toNat (show 0 < 8 by decide))
    refine ⟨charInt c &&& octetsBitMask bit, ?_, ?_⟩
    · rw [Esnacc.getAsnBit, if_pos below]
      simp [here]
    · rw [octetsBitMask_eq, place.read, AsnBits.shown, List.getElem?_take_of_lt inside,
        getElem?_flatMap_bitsOf, here]
      simp
  · refine ⟨0, by rw [Esnacc.getAsnBit, if_neg below], ?_⟩
    rw [stored.lt_iff] at below
    rw [AsnBits.shown, List.getElem?_take_eq_none (by omega)]
    simp

/-- A bit that is changed changes the shown ones there, and nothing else of the bit string. -/
theorem AsnBits.Stored.changeAsnBit {b : AsnBits} (stored : b.Stored) (bit : UInt64)
    {change : Int32 → Int32 → Int32} {value : Bool}
    (changes : ∀ c j, j < 8 →
      bitsOf (change (charInt c) (1 <<< Int32.ofNat (7 - j))).toInt8.toUInt8 =
        (bitsOf c).set j value) :
    ∃ b', changeAsnBit change b bit = some b' ∧ b'.Stored ∧ b'.bitLen = b.bitLen ∧
      b'.shown = b.shown.set bit.toNat value := by
  by_cases below : bit < ulongOf b.bitLen
  · obtain ⟨c, here⟩ := stored.octet below
    have place : bit.toNat % 8 < 8 := Nat.mod_lt _ (by decide)
    refine ⟨⟨b.bitLen, b.bits.set (bit.toNat / 8)
      (change (charInt c) (octetsBitMask bit)).toInt8.toUInt8⟩, ?_, ?_, rfl, ?_⟩
    · rw [Esnacc.changeAsnBit, if_pos below]
      simp [here]
    · exact ⟨stored.nonneg, by simpa using stored.held, by simpa using stored.oneBlock⟩
    · have all : (b.bits.set (bit.toNat / 8)
          (change (charInt c) (octetsBitMask bit)).toInt8.toUInt8).flatMap bitsOf =
            (b.bits.flatMap bitsOf).set bit.toNat value := by
        rw [octetsBitMask_eq]
        exact flatMap_bitsOf_set here (changes c _ place)
      rw [AsnBits.shown, all, List.take_set, AsnBits.shown]
  · refine ⟨b, by rw [Esnacc.changeAsnBit, if_neg below], stored, rfl, ?_⟩
    rw [stored.lt_iff, ← stored.length_shown] at below
    rw [List.set_eq_of_length_le (by omega)]

theorem AsnBits.Stored.set {b : AsnBits} (stored : b.Stored) (bit : UInt64) :
    ∃ b', setAsnBit b bit = some b' ∧ b'.Stored ∧ b'.bitLen = b.bitLen ∧
      b'.shown = b.shown.set bit.toNat true := by
  apply stored.changeAsnBit bit
  intro c j place
  exact (maskAt c place).set

theorem AsnBits.Stored.clear {b : AsnBits} (stored : b.Stored) (bit : UInt64) :
    ∃ b', clrAsnBit b bit = some b' ∧ b'.Stored ∧ b'.bitLen = b.bitLen ∧
      b'.shown = b.shown.set bit.toNat false := by
  apply stored.changeAsnBit bit
  intro c j place
  exact (maskAt c place).clear

/-! ## Equivalence -/

/-- How many bits of the last octet are unused. -/
def unusedIn (n : Nat) : Nat :=
  (8 - n % 8) % 8

theorem mod_eight {bitLen : Int32} (nonneg : 0 ≤ bitLen.toInt) :
    bitLen % 8 = Int32.ofNat (bitLen.toInt.toNat % 8) := by
  apply Int32.toInt_inj.mp
  rw [Int32.toInt_mod, Int32.toInt_ofNat_of_lt (by omega)]
  change bitLen.toInt.tmod 8 = _
  rw [Int.tmod_eq_emod_of_nonneg nonneg]
  omega

/-- Where the last octet of a bit string stands, and how many of its bits are unused. -/
theorem lastOctet {bitLen : Int32} (some : 0 < bitLen.toInt) :
    (ulongOf ((bitLen - 1) / 8)).toNat = (bitLen.toInt.toNat - 1) / 8 ∧
      (if bitLen % 8 != 0 then 8 - bitLen % 8 else bitLen % 8) =
        Int32.ofNat (unusedIn bitLen.toInt.toNat) := by
  have bound := Int32.toInt_lt bitLen
  constructor
  · have less : (bitLen - 1).toInt = bitLen.toInt - 1 := by
      rw [Int32.toInt_sub, Int32.toInt_one]
      apply Int.bmod_eq_of_le <;> omega
    have octets : ((bitLen - 1) / 8).toInt = (bitLen.toInt - 1) / 8 := by
      rw [Int32.toInt_div, less, Int.tdiv_eq_ediv_of_nonneg (by omega)]
      change ((bitLen.toInt - 1) / 8).bmod _ = _
      apply Int.bmod_eq_of_le <;> omega
    have width := toNat_ulongOf_of_nonneg (i := (bitLen - 1) / 8) (by omega)
    omega
  · have each : ∀ r : Fin 8, (if Int32.ofNat r != 0 then 8 - Int32.ofNat r else Int32.ofNat r) =
        Int32.ofNat ((8 - r) % 8) := by
      decide
    rw [mod_eight (by omega)]
    exact each ⟨_, Nat.mod_lt _ (by decide)⟩

theorem comparedOctets_of_le {b : AsnBits} {n : UInt64} (enough : n.toNat ≤ b.bits.length) :
    comparedOctets b n = some (b.bits.take n.toNat) :=
  if_pos enough

/-- The bits of whole octets are shown, and of the last one those that are not unused. -/
theorem AsnBits.Stored.shown_eq {b : AsnBits} (stored : b.Stored) {n : Nat}
    (length : n = b.bitLen.toInt.toNat) (nonempty : 0 < n) :
    ∃ c, b.bits[(n - 1) / 8]? = some c ∧ b.shown =
      (b.bits.take ((n - 1) / 8)).flatMap bitsOf ++ (bitsOf c).take (8 - unusedIn n) := by
  have held := stored.held
  have here : (n - 1) / 8 < b.bits.length := by omega
  have whole : n = 8 * ((n - 1) / 8) + (8 - unusedIn n) := by
    rw [unusedIn]
    omega
  refine ⟨_, List.getElem?_eq_getElem here, ?_⟩
  rw [← take_flatMap_bitsOf (List.getElem?_eq_getElem here) (Nat.sub_le 8 _), ← whole, length]
  rfl

/-- Bit strings are equivalent exactly when they are as long and show the same bits, whatever their last
octets are filled with. -/
theorem AsnBits.Stored.asnBitsEquiv_iff {b1 b2 : AsnBits} (stored1 : b1.Stored)
    (stored2 : b2.Stored) :
    asnBitsEquiv b1 b2 = some true ↔ b1.bitLen = b2.bitLen ∧ b1.shown = b2.shown := by
  by_cases empty : b1.bitLen = 0 ∧ b2.bitLen = 0
  · -- Neither has a bit.
    have none : ∀ b : AsnBits, b.bitLen = 0 → b.shown = [] := by
      intro b zero
      rw [AsnBits.shown, zero]
      rfl
    rw [asnBitsEquiv, if_pos (by simp [empty]), empty.1, empty.2, none _ empty.1, none _ empty.2]
    simp
  rw [asnBitsEquiv, if_neg (by simpa using empty)]
  by_cases same : b1.bitLen = b2.bitLen
  · have some : 0 < b1.bitLen.toInt := by
      have nonneg := stored1.nonneg
      have nonzero : b1.bitLen.toInt ≠ 0 := by
        intro zero
        have none : b1.bitLen = 0 := Int32.toInt_inj.mp zero
        exact empty ⟨none, same ▸ none⟩
      omega
    obtain ⟨last, unused⟩ := lastOctet some
    have held1 := stored1.held
    have held2 := stored2.held
    rw [← same] at held2
    obtain ⟨c, here1, shown1⟩ := stored1.shown_eq rfl (by omega)
    obtain ⟨d, here2, shown2⟩ := stored2.shown_eq (congrArg _ (congrArg _ same)) (by omega)
    have few : unusedIn b1.bitLen.toInt.toNat < 8 := Nat.mod_lt _ (by decide)
    -- The octets in front are compared whole, the last ones behind the mask.
    rw [if_pos (by simpa using same), comparedOctets_of_le (by omega),
      comparedOctets_of_le (by omega), last, here1, here2, unused, shown1, shown2]
    rw [flatMap_bitsOf_append_inj (by simp only [List.length_take]; omega),
      ← masked_eq_iff c d few]
    simp only [Option.bind_eq_bind, Option.bind_some, Option.pure_def, beq_iff_eq]
    split
    · rename_i front
      rw [Option.some.injEq, beq_iff_eq]
      exact ⟨fun masked => ⟨same, front, masked⟩, fun alike => alike.2.2⟩
    · rename_i apart
      exact ⟨fun ended => absurd (Option.some.inj ended) Bool.false_ne_true,
        fun alike => absurd alike.2.1 apart⟩
  · rw [if_neg (by simpa using same)]
    simp [same]

/-- Whether a bit is read as one that is not zero. -/
def AsnBits.IsSet (b : AsnBits) (bit : UInt64) : Prop :=
  ∃ v, getAsnBit b bit = some v ∧ v ≠ 0

theorem AsnBits.Stored.isSet_iff {b : AsnBits} (stored : b.Stored) (bit : UInt64) :
    b.IsSet bit ↔ b.shown[bit.toNat]? = some true := by
  obtain ⟨v, read, shows⟩ := stored.getAsnBit bit
  rw [← shows, AsnBits.IsSet, read]
  constructor
  · rintro ⟨w, same, nonzero⟩
    rwa [Option.some.inj same]
  · intro nonzero
    exact ⟨v, rfl, nonzero⟩

/-- Bit strings that are as long show the same bits exactly when the same bits are read from them. -/
theorem AsnBits.Stored.shown_eq_iff {b1 b2 : AsnBits} (stored1 : b1.Stored) (stored2 : b2.Stored)
    (same : b1.bitLen = b2.bitLen) :
    b1.shown = b2.shown ↔ ∀ bit, bit < ulongOf b1.bitLen → (b1.IsSet bit ↔ b2.IsSet bit) := by
  constructor
  · intro alike bit _
    rw [stored1.isSet_iff, stored2.isSet_iff, alike]
  · intro alike
    have bound := Int32.toInt_lt b1.bitLen
    have size1 := stored1.length_shown
    have size2 := stored2.length_shown
    rw [← same] at size2
    apply List.ext_getElem (size1.trans size2.symm)
    intro i inside inside'
    have word : (UInt64.ofNat i).toNat = i := UInt64.toNat_ofNat_of_lt' (by rw [UInt64.size]; omega)
    have here := alike (UInt64.ofNat i) ((stored1.lt_iff _).mpr (by omega))
    rw [stored1.isSet_iff, stored2.isSet_iff, word, List.getElem?_eq_getElem inside,
      List.getElem?_eq_getElem inside', Option.some.injEq, Option.some.injEq] at here
    exact Bool.eq_iff_iff.mpr here

/-! ## Encoded and decoded again -/

/-- The octets that are written for a bit string. -/
def AsnBits.Written (b : AsnBits) (octets : List UInt8) : Prop :=
  ∃ enc, bEncAsnBitsContent b = some enc ∧ enc.Writes octets

theorem eight_mul_octets (n : Nat) : 8 * ((n + 7) / 8) = n + unusedIn n := by
  rw [unusedIn]
  omega

/-- The number of octets is rounded up as long as an `int` can count seven more bits. -/
theorem toInt_byteLen {bitLen : Int32} (nonneg : 0 ≤ bitLen.toInt) (room : bitLen.toInt + 7 < 2 ^ 31) :
    (ulongOf ((bitLen + 7) / 8)).toNat = (bitLen.toInt.toNat + 7) / 8 := by
  have more : (bitLen + 7).toInt = bitLen.toInt + 7 := by
    rw [Int32.toInt_add]
    change (bitLen.toInt + 7).bmod _ = _
    apply Int.bmod_eq_of_le <;> omega
  have octets : ((bitLen + 7) / 8).toInt = (bitLen.toInt + 7) / 8 := by
    rw [Int32.toInt_div, more, Int.tdiv_eq_ediv_of_nonneg (by omega)]
    change ((bitLen.toInt + 7) / 8).bmod _ = _
    apply Int.bmod_eq_of_le <;> omega
  have width := toNat_ulongOf_of_nonneg (i := (bitLen + 7) / 8) (by omega)
  omega

/-- From there on it is negative, which is more octets than any block holds. -/
theorem byteLen_overflow {bitLen : Int32} (past : 2 ^ 31 ≤ bitLen.toInt + 7) :
    2 ^ 63 ≤ (ulongOf ((bitLen + 7) / 8)).toNat := by
  have bound := Int32.toInt_lt bitLen
  have wrapped : (bitLen + 7).toInt = bitLen.toInt + 7 - 2 ^ 32 := by
    rw [Int32.toInt_add]
    change (bitLen.toInt + 7).bmod _ = _
    rw [Int.bmod_def]
    omega
  have octets : ((bitLen + 7) / 8).toInt = -((2 ^ 32 - (bitLen.toInt + 7)) / 8) := by
    rw [Int32.toInt_div, wrapped, ← neg_sub, Int.neg_tdiv,
      Int.tdiv_eq_ediv_of_nonneg (by omega)]
    change (-((2 ^ 32 - (bitLen.toInt + 7)) / 8)).bmod _ = _
    apply Int.bmod_eq_of_le <;> omega
  have width := toNat_ulongOf ((bitLen + 7) / 8)
  omega

/-- The unused bits octet is written in front of the octets that hold the bits. -/
theorem AsnBits.Stored.written {b : AsnBits} (stored : b.Stored) (room : b.bitLen.toInt + 7 < 2 ^ 31) :
    b.Written (UInt8.ofNat (unusedIn b.bitLen.toInt.toNat) ::
      b.bits.take ((b.bitLen.toInt.toNat + 7) / 8)) := by
  have nonneg := stored.nonneg
  have held := stored.held
  have byteLen := toInt_byteLen nonneg room
  have each : ∀ r : Fin 8, (if (ulongOf (Int32.ofNat r)).toUInt8.toUInt64 != 0
      then 8 - (ulongOf (Int32.ofNat r)).toUInt8.toUInt64
      else (ulongOf (Int32.ofNat r)).toUInt8.toUInt64).toUInt8 = UInt8.ofNat ((8 - r) % 8) := by
    decide
  have unused := each ⟨b.bitLen.toInt.toNat % 8, Nat.mod_lt _ (by decide)⟩
  refine ⟨_, if_pos (by omega), ?_⟩
  intro kept
  have count : ulongOf ((b.bitLen + 7) / 8) + 1 = UInt64.ofNat (UInt8.ofNat
      (unusedIn b.bitLen.toInt.toNat) :: b.bits.take ((b.bitLen.toInt.toNat + 7) / 8)).length := by
    rw [List.length_cons, List.length_take, Nat.min_eq_left (by omega), ← byteLen, UInt64.ofNat_add,
      UInt64.ofNat_toNat]
    rfl
  rw [mod_eight nonneg, byteLen, ← count]
  dsimp only at unused
  rw [unused]
  rfl

theorem AsnBits.Stored.not_written {b : AsnBits} (stored : b.Stored)
    (past : 2 ^ 31 ≤ b.bitLen.toInt + 7) (octets : List UInt8) : ¬ b.Written octets := by
  have tooMany := byteLen_overflow past
  have few := stored.oneBlock
  rintro ⟨enc, encoded, -⟩
  rw [bEncAsnBitsContent, if_neg (by omega)] at encoded
  cases encoded

end Esnacc
