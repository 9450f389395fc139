import Esnacc.Ber.Decoding
import Mathlib.Tactic.IntervalCases

/-! Tags: their representation in a word, reading them, and the bits of their octets. -/

namespace Esnacc

/-! ## Tags in a word -/

section

/-- Tag classes. -/
def UNIV : UInt32 := 0
def APPL : UInt32 := 0x40
def CNTX : UInt32 := 0x80
def PRIV : UInt32 := 0xC0

/-- Tag forms. -/
def PRIM : UInt32 := 0
def CONS : UInt32 := 0x20

/-- Universal tag codes. -/
def BOOLEAN_TAG_CODE : UInt32 := 1
def INTEGER_TAG_CODE : UInt32 := 2
def BITSTRING_TAG_CODE : UInt32 := 3
def OCTETSTRING_TAG_CODE : UInt32 := 4
def NULLTYPE_TAG_CODE : UInt32 := 5
def OID_TAG_CODE : UInt32 := 6

/-- The word of a tag code: one octet for a small code, `31` and up to three octets otherwise. -/
def makeTagIdCode (cd : UInt32) : AsnTag :=
  if cd < 31 then cd <<< 24
  else if cd < 128 then (31 : UInt32) <<< 24 ||| cd <<< 16
  else if cd < 16384 then
    (31 : UInt32) <<< 24 ||| (cd &&& 0x3f80) <<< 9 ||| (0x80 : UInt32) <<< 16 |||
      (cd &&& 0x7F) <<< 8
  else
    (31 : UInt32) <<< 24 ||| (cd &&& 0x1fc000) <<< 2 ||| (0x80 : UInt32) <<< 16 |||
      (cd &&& 0x3f80) <<< 1 ||| (0x80 : UInt32) <<< 8 ||| (cd &&& 0x7F)

/-- The low five bits of a tag's first octet; a long tag has all of them set. -/
def LONG_TAG : AsnTag := (0x1f : UInt32) <<< 24

/-- The word of a tag of the given class, form and code. -/
def makeTagId (cl fm cd : UInt32) : AsnTag :=
  cl <<< 24 ||| fm <<< 24 ||| makeTagIdCode cd

/-- The constructed bit of a tag is set. -/
def tagIsCons (tag : AsnTag) : Bool :=
  tag &&& (CONS <<< 24) != 0

/-- The first octet of an end-of-contents marker, read as a tag. -/
def EOC_TAG_ID : AsnTag := 0

variable {β : Type} [GenBuf β]

/--
The octets of a long tag after the first, with the place `i` the next one would have had.

The count is of the octets that still fit the word.
-/
def bDecTagLoop : Nat → AsnTag → AsnLen → Dec β (Nat × AsnTag × AsnLen)
  | 0, tagId, bytesDecoded => return (5, tagId, bytesDecoded)
  | room + 1, tagId, bytesDecoded => do
    let tmpTagId ← bufGetByte
    -- The octet at place `i` is shifted to its own octet of the word.
    let tagId := tagId ||| tmpTagId.toUInt32 <<< UInt32.ofNat (8 * room)
    if tmpTagId &&& 0x80 != 0 then bDecTagLoop room tagId (bytesDecoded + 1)
    else return (5 - room, tagId, bytesDecoded + 1)

/-- Read a tag. -/
def bDecTag (bytesDecoded : AsnLen) : Dec β (AsnTag × AsnLen) := do
  let byte ← bufGetByte
  let tagId := byte.toUInt32 <<< 24
  let (i, tagId, bytesDecoded) ←
    (if tagId &&& LONG_TAG == LONG_TAG then bDecTagLoop 3 tagId (bytesDecoded + 1)
    else pure (2, tagId, bytesDecoded + 1))
  -- The loop never leaves a place above five, so an overlong tag is not refused here.
  if i > 5 then asn1Error "BDecTag: ERROR - tag value overflow\n" (-25)
  else if ← bufReadError then asn1Error "BDecTag: ERROR - decoded past the end of data\n" (-26)
  else return (tagId, bytesDecoded)

end

/-! ## Bits of tags -/

theorem getElem_eq_false {cd : UInt32} {k i : Nat} (small : cd.toNat < 2 ^ k) (above : k ≤ i)
    (less : i < 32) : cd.toBitVec[i] = false :=
  Nat.testBit_lt_two_pow (Nat.lt_of_lt_of_le small (Nat.pow_le_pow_right (by decide) above))

theorem toUInt32_toUInt8 (x : UInt32) : x.toUInt8.toUInt32 = x &&& 0xFF := by
  have mask : (0xFF : UInt32).toNat = 2 ^ 8 - 1 := rfl
  rw [← UInt32.toNat_inj, UInt32.toNat_and, mask, Nat.and_two_pow_sub_one_eq_mod,
    UInt8.toNat_toUInt32, UInt32.toNat_toUInt8]

theorem and_shiftLeft_24 (x : UInt32) : (x &&& 0xFF) <<< 24 = x <<< 24 := by
  apply UInt32.eq_of_toBitVec_eq
  apply BitVec.eq_of_getLsbD_eq
  intro i small
  interval_cases i <;> simp

theorem top_bit_set (x : UInt32) : (0x80 ||| x.toUInt8) &&& 0x80 ≠ 0 := by
  intro clear
  have bit := congrArg (fun y : UInt8 => y.toBitVec.getLsbD 7) clear
  simp at bit

theorem top_bit_clear (x : UInt32) : (x &&& 0x7F).toUInt8 &&& 0x80 = 0 := by
  apply UInt8.eq_of_toBitVec_eq
  apply BitVec.eq_of_getLsbD_eq
  intro i small
  interval_cases i <;> simp

theorem top_bit_clear_of_lt {cd : UInt32} (small : cd.toNat < 2 ^ 7) : cd.toUInt8 &&& 0x80 = 0 := by
  apply UInt8.eq_of_toBitVec_eq
  apply BitVec.eq_of_getLsbD_eq
  intro i less
  interval_cases i <;> simp [getElem_eq_false small]

section

variable (cl fm cd : UInt32)

theorem word_two {cd : UInt32} (small : cd.toNat < 2 ^ 7) :
    (cl ||| fm ||| 31) <<< 24 ||| (cd &&& 0xFF) <<< 16 =
      cl <<< 24 ||| fm <<< 24 ||| ((31 : UInt32) <<< 24 ||| cd <<< 16) := by
  apply UInt32.eq_of_toBitVec_eq
  apply BitVec.eq_of_getLsbD_eq
  intro i less
  interval_cases i <;> simp [getElem_eq_false small, Bool.or_comm]

theorem word_three :
    (cl ||| fm ||| 31) <<< 24 ||| ((0x80 : UInt32) ||| (cd >>> 7 &&& 0xFF)) <<< 16 |||
        ((cd &&& 0x7F) &&& 0xFF) <<< 8 =
      cl <<< 24 ||| fm <<< 24 ||| ((31 : UInt32) <<< 24 ||| (cd &&& 0x3f80) <<< 9 |||
        (0x80 : UInt32) <<< 16 ||| (cd &&& 0x7F) <<< 8) := by
  apply UInt32.eq_of_toBitVec_eq
  apply BitVec.eq_of_getLsbD_eq
  intro i less
  interval_cases i <;> simp [Bool.or_comm]

theorem word_four :
    (cl ||| fm ||| 31) <<< 24 ||| ((0x80 : UInt32) ||| (cd >>> 14 &&& 0xFF)) <<< 16 |||
        ((0x80 : UInt32) ||| (cd >>> 7 &&& 0xFF)) <<< 8 |||
        ((cd &&& (0x7F : UInt32)) &&& (0xFF : UInt32)) =
      cl <<< 24 ||| fm <<< 24 ||| ((31 : UInt32) <<< 24 ||| (cd &&& 0x1fc000) <<< 2 |||
        (0x80 : UInt32) <<< 16 ||| (cd &&& 0x3f80) <<< 1 ||| (0x80 : UInt32) <<< 8 |||
        (cd &&& (0x7F : UInt32))) := by
  apply UInt32.eq_of_toBitVec_eq
  apply BitVec.eq_of_getLsbD_eq
  intro i less
  interval_cases i <;> simp [Bool.or_comm]

end

theorem short_octet (code : Fin 31) : ∀ cl ∈ [UNIV, APPL, CNTX, PRIV], ∀ fm ∈ [PRIM, CONS],
    (cl ||| fm ||| UInt32.ofNat code).toUInt8 &&& 0x1F ≠ 0x1F ∧
      (cl ||| fm ||| UInt32.ofNat code).toUInt8.toUInt32 <<< 24 =
        cl <<< 24 ||| fm <<< 24 ||| UInt32.ofNat code <<< 24 := by
  revert code
  -- The classes and the forms are written out, so that only the codes are gone through.
  simp only [List.forall_mem_cons, List.not_mem_nil, false_implies, implies_true, and_true]
  decide

theorem long_octet : ∀ cl ∈ [UNIV, APPL, CNTX, PRIV], ∀ fm ∈ [PRIM, CONS],
    (cl ||| fm ||| 31).toUInt8 &&& 0x1F = 0x1F := by
  simp only [List.forall_mem_cons, List.not_mem_nil, false_implies, implies_true, and_true]
  decide

theorem short_octet_ne_zero (code : Fin 31) : ∀ cl ∈ [UNIV, APPL, CNTX, PRIV],
    ∀ fm ∈ [PRIM, CONS], ¬ (cl = UNIV ∧ fm = PRIM ∧ code = 0) →
      (cl ||| fm ||| UInt32.ofNat code).toUInt8 ≠ 0 := by
  revert code
  simp only [List.forall_mem_cons, List.not_mem_nil, false_implies, implies_true, and_true]
  decide

end Esnacc
