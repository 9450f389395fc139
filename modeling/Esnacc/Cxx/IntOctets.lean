import Esnacc.Cxx.AsnInt
import Esnacc.Lib.TwosComplement

/-! The octets that a C++ INTEGER keeps stand for its number, and there are no more than needed. -/

namespace Esnacc.Cxx

open Lib

/-! ## Dropping octets -/

/-- What dropping octets in front of a number keeps. -/
structure Shortened (data kept : List UInt8) : Prop where
  some : kept ≠ []
  length : kept.length ≤ data.length
  signed : signedOf kept = signedOf data

theorem Shortened.refl {data : List UInt8} (some : data ≠ []) : Shortened data data :=
  ⟨some, Nat.le_refl _, rfl⟩

theorem Shortened.trans {data kept less : List UInt8} (first : Shortened data kept)
    (second : Shortened kept less) : Shortened data less :=
  ⟨second.some, Nat.le_trans second.length first.length, second.signed.trans first.signed⟩

theorem dropZeros_shortened {data : List UInt8} (some : data ≠ []) :
    Shortened data (dropZeros data) := by
  induction data with
  | nil => exact absurd rfl some
  | cons a rest ih =>
    cases rest with
    | nil => exact .refl some
    | cons b rest =>
      rw [dropZeros]
      by_cases zeros : a = 0 ∧ b < 0x80
      · rw [if_pos zeros]
        have dropped : Shortened (a :: b :: rest) (b :: rest) :=
          ⟨List.cons_ne_nil _ _, by simp, (signedOf_cons (.inl zeros)).symm⟩
        exact dropped.trans (ih (List.cons_ne_nil _ _))
      · rw [if_neg zeros]
        exact .refl some

/-- Dropping zeros in front keeps the number that octets write. -/
theorem ofOctets_dropZeros (data : List UInt8) : ofOctets (dropZeros data) = ofOctets data := by
  induction data with
  | nil => rfl
  | cons a rest ih =>
    cases rest with
    | nil => rfl
    | cons b rest =>
      rw [dropZeros]
      by_cases zeros : a = 0 ∧ b < 0x80
      · rw [if_pos zeros, ih, ofOctets_cons a, zeros.1]
        simp
      · rw [if_neg zeros]

theorem dropOnes_shortened {data : List UInt8} (some : data ≠ []) :
    Shortened data (dropOnes data) := by
  induction data with
  | nil => exact absurd rfl some
  | cons a rest ih =>
    cases rest with
    | nil => exact .refl some
    | cons b rest =>
      rw [dropOnes]
      by_cases ones : a = 0xFF ∧ 0x80 ≤ b
      · rw [if_pos ones]
        have dropped : Shortened (a :: b :: rest) (b :: rest) :=
          ⟨List.cons_ne_nil _ _, by simp, (signedOf_cons (.inr ones)).symm⟩
        exact dropped.trans (ih (List.cons_ne_nil _ _))
      · rw [if_neg ones]
        exact .refl some

/-- A number that does not read as negative reads so after octets were dropped. -/
theorem headD_dropZeros {data : List UInt8} (positive : data.headD 0 < 0x80) :
    (dropZeros data).headD 0 < 0x80 := by
  induction data with
  | nil => exact positive
  | cons a rest ih =>
    cases rest with
    | nil => exact positive
    | cons b rest =>
      rw [dropZeros]
      by_cases zeros : a = 0 ∧ b < 0x80
      · rw [if_pos zeros]
        exact ih zeros.2
      · rw [if_neg zeros]
        exact positive

/-- Octets without one in front that is not needed for an unsigned number. -/
def Least (octets : List UInt8) : Prop :=
  1 < octets.length → octets.headD 0 ≠ 0

/-- Once the zeros in front are dropped, one zero at most is in the way. -/
theorem least_dropZero_dropZeros (data : List UInt8) :
    Least (AsnInt.dropZero ⟨dropZeros data⟩).mBytes := by
  induction data with
  | nil => simp [Least, dropZeros, AsnInt.dropZero]
  | cons a rest ih =>
    cases rest with
    | nil => simp [Least, dropZeros, AsnInt.dropZero]
    | cons b rest =>
      rw [dropZeros]
      by_cases zeros : a = 0 ∧ b < 0x80
      · rw [if_pos zeros]
        exact ih
      · rw [if_neg zeros, AsnInt.dropZero]
        dsimp only
        by_cases zero : a = 0
        · -- The octet behind the zero has its highest bit set.
          rw [if_pos zero]
          intro _ none
          refine zeros ⟨zero, ?_⟩
          rw [List.headD_cons] at none
          rw [none]
          decide
        · rw [if_neg zero]
          exact fun _ => zero

/-- Dropping a zero octet keeps the unsigned number. -/
theorem dropZero_ofOctets {octets : List UInt8} (some : octets ≠ []) :
    ofOctets (AsnInt.dropZero ⟨octets⟩).mBytes = ofOctets octets ∧
      (AsnInt.dropZero ⟨octets⟩).mBytes ≠ [] ∧
      (AsnInt.dropZero ⟨octets⟩).mBytes.length ≤ octets.length := by
  rcases octets with _ | ⟨a, _ | ⟨b, rest⟩⟩
  · exact absurd rfl some
  · exact ⟨rfl, some, Nat.le_refl _⟩
  · rw [AsnInt.dropZero]
    dsimp only
    by_cases zero : a = 0
    · rw [if_pos zero, ofOctets_cons a, zero]
      simp
    · rw [if_neg zero]
      exact ⟨rfl, some, Nat.le_refl _⟩

/-! ## Keeping a number -/

theorem toNat_octetsOf (iIn : Int32) : (octetsOf iIn).map UInt8.toNat =
    [iIn.toUInt32.toNat / 2 ^ 24, iIn.toUInt32.toNat / 2 ^ 16 % 256,
      iIn.toUInt32.toNat / 2 ^ 8 % 256, iIn.toUInt32.toNat % 256] := by
  have bound := iIn.toUInt32.toNat_lt
  have eight : (8 : UInt32).toNat % 32 = 8 := rfl
  have sixteen : (16 : UInt32).toNat % 32 = 16 := rfl
  have twentyFour : (24 : UInt32).toNat % 32 = 24 := rfl
  simp only [octetsOf, List.map_cons, List.map_nil, UInt32.toNat_toUInt8, UInt32.toNat_shiftRight,
    eight, sixteen, twentyFour, Nat.shiftRight_eq_div_pow]
  rw [Nat.mod_eq_of_lt (a := iIn.toUInt32.toNat / 2 ^ 24) (by omega)]

theorem ofOctets_octetsOf (iIn : Int32) : ofOctets (octetsOf iIn) = iIn.toUInt32.toNat := by
  have digits := toNat_octetsOf iIn
  have sum : ofOctets (octetsOf iIn) =
      ((octetsOf iIn).map UInt8.toNat).foldl (fun n c => 256 * n + c) 0 := by
    rw [List.foldl_map]
    rfl
  rw [sum, digits]
  simp only [List.foldl_cons, List.foldl_nil]
  omega

/-- A word reads as negative where its first octet has the highest bit set. -/
theorem headD_octetsOf (iIn : Int32) :
    ((octetsOf iIn).headD 0 < 0x80 ↔ 0 ≤ iIn.toInt) ∧
      iIn.toInt = if 0 ≤ iIn.toInt then (iIn.toUInt32.toNat : Int)
        else iIn.toUInt32.toNat - 2 ^ 32 := by
  have value : iIn.toInt = if 2 * iIn.toUInt32.toNat < 2 ^ 32 then (iIn.toUInt32.toNat : Int)
      else (iIn.toUInt32.toNat : Int) - (2 ^ 32 : Nat) :=
    BitVec.toInt_eq_toNat_cond iIn.toBitVec
  have bound := iIn.toUInt32.toNat_lt
  have head : ((octetsOf iIn).headD 0).toNat = iIn.toUInt32.toNat / 2 ^ 24 := by
    have digits := congrArg (·.headD 0) (toNat_octetsOf iIn)
    exact digits
  have top : (0x80 : UInt8).toNat = 128 := rfl
  rw [UInt8.lt_iff_toNat_lt, head, top]
  split at value
  · rw [if_pos (by omega)]
    omega
  · rw [if_neg (by omega)]
    omega

theorem signedOf_octetsOf (iIn : Int32) : signedOf (octetsOf iIn) = iIn.toInt := by
  obtain ⟨sign, value⟩ := headD_octetsOf iIn
  have number := ofOctets_octetsOf iIn
  have size : (octetsOf iIn).length = 4 := rfl
  rw [octetsOf] at sign number size ⊢
  rw [List.headD_cons] at sign
  rw [signedOf, number, size, value]
  by_cases nonneg : 0 ≤ iIn.toInt
  · rw [if_pos nonneg, if_pos (sign.mpr nonneg)]
  · rw [if_neg nonneg, if_neg fun positive => nonneg (sign.mp positive)]
    norm_num

/-- A number is kept in at most four octets that stand for it. -/
theorem set_spec (iIn : Int32) :
    ∃ x, AsnInt.set iIn = .ok x ∧ x.mBytes ≠ [] ∧ x.mBytes.length ≤ 4 ∧
      signedOf x.mBytes = iIn.toInt ∧ (0 ≤ iIn.toInt → x.mBytes = dropZeros (octetsOf iIn)) := by
  have some : octetsOf iIn ≠ [] := List.cons_ne_nil _ _
  have sign := (headD_octetsOf iIn).1
  have signed := signedOf_octetsOf iIn
  have flag : (0 ≤ iIn) = (0 ≤ iIn.toInt) := by
    rw [Int32.le_iff_toInt_le, Int32.toInt_zero]
  rw [AsnInt.set]
  simp only [flag]
  by_cases nonneg : 0 ≤ iIn.toInt
  · -- The number does not read as negative, so that no octet is put in front.
    obtain ⟨kept, short, same⟩ := dropZeros_shortened some
    have positive := headD_dropZeros (sign.mpr nonneg)
    refine ⟨⟨dropZeros (octetsOf iIn)⟩, ?_, kept, short, same.trans signed, fun _ => rfl⟩
    rw [decide_eq_true nonneg]
    change Except.ok (AsnInt.mk (if 0x80 ≤ (dropZeros (octetsOf iIn)).headD 0 then _ else _)) = _
    rw [if_neg (UInt8.not_le.mpr positive)]
  · have ones := dropOnes_shortened some
    obtain ⟨kept, short, same⟩ := ones.trans (dropZeros_shortened ones.some)
    refine ⟨⟨dropZeros (dropOnes (octetsOf iIn))⟩, ?_, kept, short, same.trans signed,
      fun yes => absurd yes nonneg⟩
    rw [decide_eq_false nonneg]
    rfl

/-! ## Reading a number -/

theorem toNat_or_octet (n : UInt32) (c : UInt8) :
    (n <<< 8 ||| c.toUInt32).toNat = (256 * n.toNat + c.toNat) % 2 ^ 32 := by
  have eight : (8 : UInt32).toNat % 32 = 8 := rfl
  have digit := c.toNat_lt
  have split : n.toNat <<< 8 % 2 ^ 32 = (n.toNat % 2 ^ 24) <<< 8 := by
    rw [Nat.shiftLeft_eq, Nat.shiftLeft_eq]
    omega
  rw [UInt32.toNat_or, UInt32.toNat_shiftLeft, UInt8.toNat_toUInt32, eight, split,
    shiftLeft_or_octet]
  omega

theorem toNat_foldl_octets (octets : List UInt8) (n : UInt32) :
    (octets.foldl (fun (n : UInt32) c => n <<< 8 ||| c.toUInt32) n).toNat =
      (n.toNat * 256 ^ octets.length + ofOctets octets) % 2 ^ 32 := by
  induction octets generalizing n with
  | nil =>
    simp
  | cons c rest ih =>
    rw [List.foldl_cons, ih, toNat_or_octet, ofOctets_cons, List.length_cons, Nat.pow_succ,
      Nat.add_mod, Nat.mod_mul_mod, ← Nat.add_mod]
    ring_nf

/-- The number kept is what the octets stand for. -/
theorem toInteger_eq {x : AsnInt} (some : x.mBytes ≠ []) (short : x.mBytes.length ≤ 4) :
    x.toInteger = .ok (Int32.ofInt (signedOf x.mBytes)) := by
  obtain ⟨octets⟩ := x
  obtain ⟨first, rest, rfl⟩ := List.exists_cons_of_ne_nil some
  dsimp only at short
  rw [AsnInt.toInteger]
  dsimp only
  rw [if_neg (Nat.not_lt.mpr short)]
  refine congrArg Except.ok (Int32.toInt_inj.mp ?_)
  have joined := toNat_foldl_octets (first :: rest) (if 0x80 ≤ first then 0xFFFFFFFF else 0)
  have read : ∀ w : UInt32, w.toInt32.toInt = (w.toNat : Int).bmod (2 ^ 32) :=
    fun w => BitVec.toInt_eq_toNat_bmod _
  rw [Int32.toInt_ofInt, read, joined, signedOf, Int.natCast_emod]
  change ((_ : Int) % (2 ^ 32 : Nat)).bmod (2 ^ 32) = Int.bmod _ (2 ^ 32)
  rw [Int.emod_bmod]
  by_cases positive : first < 0x80
  · rw [if_pos positive, if_neg (UInt8.not_le.mpr positive)]
    simp
  · -- All ones in front of the octets stand for -1.
    rw [if_neg positive, if_pos (UInt8.not_lt.mp positive)]
    have ones : (0xFFFFFFFF : UInt32).toNat = 2 ^ 32 - 1 := rfl
    have around : ((((0xFFFFFFFF : UInt32).toNat * 256 ^ (first :: rest).length +
        ofOctets (first :: rest) : Nat) : Int)) =
        (ofOctets (first :: rest) - 256 ^ (first :: rest).length : Int) +
          (2 ^ 32 : Nat) * 256 ^ (first :: rest).length := by
      rw [ones]
      push_cast
      ring
    rw [around, Int.add_mul_bmod_self_left]

end Esnacc.Cxx
