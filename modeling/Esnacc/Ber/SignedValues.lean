import Esnacc.Ber.Numbers

/-! INTEGERs with a sign in the C library, behind their tags and lengths. -/

namespace Esnacc

open Lib

/-! ## Source -/

/-- The loop that finds how many octets a negative number needs: while the bits under the mask are set,
the mask slides down an octet. -/
def negativeLenLoop (val : UInt64) : Nat → UInt64 → Nat
  | len + 2, mask =>
    if val &&& mask == mask then negativeLenLoop val (len + 1) (mask >>> 8) else len + 2
  | len, _ => len

/-- Put the low octets of a number with a sign, the last one first. -/
def putSignedOctets : Nat → Int64 → Enc Unit
  | 0, _ => return
  | i + 1, dataCpy => do
    bufPutByteRvs dataCpy.toUInt64.toUInt8
    putSignedOctets i (dataCpy >>> 8)

/-- Write the content of an INTEGER. -/
def bEncAsnIntContent (data : Int32) : Enc AsnLen := do
  let dataCpy := data.toInt64
  let len := if dataCpy < 0 then negativeLenLoop dataCpy.toUInt64 4 INT_MASK
    else octetLenLoop dataCpy.toUInt64 4 INT_MASK
  putSignedOctets len dataCpy
  return UInt64.ofNat len

/-- Write an INTEGER: its content, then its length and tag. -/
def bEncAsnInt (data : Int32) : Enc AsnLen := do
  let len ← bEncAsnIntContent data
  let len := len + (← bEncDefLen len)
  return len + (← bEncTag1 UNIV PRIM INTEGER_TAG_CODE)

/-- Read an INTEGER. -/
def bDecAsnInt {β : Type} [GenBuf β] (bytesDecoded : AsnLen) : Dec β (Int32 × AsnLen) := do
  let (tag, bytesDecoded) ← bDecTag bytesDecoded
  if tag != makeTagId UNIV PRIM INTEGER_TAG_CODE then
    asn1Error "BDecAsnInt: ERROR wrong tag on INTEGER.\n" (-40)
  else
    let (elmtLen, bytesDecoded) ← bDecLen bytesDecoded
    bDecAsnIntContent tag elmtLen bytesDecoded

/-! ## What is written -/

/-- The low octets are put, as the shift keeps the sign. -/
theorem run_putSignedOctets (k : Nat) (number : Int64) (held : List UInt8) :
    (putSignedOctets k number).run held = ((), lowOctets k number.toInt ++ held) := by
  induction k generalizing number held with
  | zero => rfl
  | succ k ih =>
    have shifted : (number >>> 8).toInt = number.toInt / 256 := by
      rw [Int64.toInt, Int64.toBitVec_shiftRight, BitVec.toInt_sshiftRight']
      change number.toInt >>> (8 : Nat) = _
      rw [Int.shiftRight_eq_div_pow]
      rfl
    have low : number.toUInt64.toUInt8 = UInt8.ofNat (number.toInt % 256).toNat := by
      have residue : (number.toUInt64.toNat : Int) = number.toInt % 2 ^ 64 := by
        have value := BitVec.toInt_eq_toNat_cond number.toBitVec
        have bound := number.toBitVec.isLt
        change (number.toBitVec.toNat : Int) = number.toBitVec.toInt % 2 ^ 64
        split at value <;> omega
      apply UInt8.toNat_inj.mp
      rw [UInt64.toNat_toUInt8, UInt8.toNat_ofNat']
      omega
    change (putSignedOctets k (number >>> 8)).run (number.toUInt64.toUInt8 :: held) = _
    rw [ih, shifted, lowOctets, List.append_assoc, low]
    rfl

theorem and_eq_mask_iff (val mask : UInt64) : val &&& mask = mask ↔ ~~~val &&& mask = 0 := by
  simp only [← UInt64.toBitVec_inj, UInt64.toBitVec_and, UInt64.toBitVec_not, UInt64.toBitVec_zero,
    BitVec.eq_of_getLsbD_eq_iff, BitVec.getLsbD_and, BitVec.getLsbD_not, BitVec.getLsbD_zero]
  refine forall_congr' fun i => forall_congr' fun bit => ?_
  cases val.toBitVec.getLsbD i <;> cases mask.toBitVec.getLsbD i <;> simp [bit]

/-- The loop for negative numbers is the one for their complements. -/
theorem negativeLenLoop_eq (val : UInt64) (len : Nat) (mask : UInt64) :
    negativeLenLoop val len mask = octetLenLoop (~~~val) len mask := by
  fun_induction negativeLenLoop val len mask with
  | case1 len mask set ih =>
    rw [beq_iff_eq, and_eq_mask_iff] at set
    rw [octetLenLoop, if_pos (beq_iff_eq.mpr set), ih]
  | case2 len mask notSet =>
    rw [beq_iff_eq, and_eq_mask_iff] at notSet
    rw [octetLenLoop, if_neg fun clear => notSet (beq_iff_eq.mp clear)]
  | case3 len mask few =>
    rw [octetLenLoop]
    exact few

/-- A number and its complement need the same octets. -/
theorem leastOctets_complement {z : Int} {k : Nat} (least : LeastOctets (-1 - z) k) :
    LeastOctets z k := by
  have fits : ∀ j, 0 < j → (FitsOctets (-1 - z) j ↔ FitsOctets z j) := by
    intro j some
    obtain ⟨i, rfl⟩ : ∃ i, j = i + 1 := ⟨j - 1, by omega⟩
    have even : (256 : Int) ^ (i + 1) = 2 * (128 * 256 ^ i) := by ring
    unfold FitsOctets
    rw [even]
    omega
  exact ⟨least.some, (fits k least.some).mp least.fits,
    fun some enough => least.least some ((fits _ some).mpr enough)⟩

/-- The content of an INTEGER is the shortest there is. -/
theorem bEncAsnIntContent_writes (v : Int32) :
    ∃ octets, (bEncAsnIntContent v).Writes octets ∧ ShortestSigned v.toInt octets ∧
      octets.length ≤ 4 := by
  have low := v.le_toInt
  have high := v.toInt_lt
  have wide : v.toInt64.toInt = v.toInt := Int32.toInt_toInt64 v
  have negative : v.toInt64 < 0 ↔ v.toInt < 0 := by
    rw [Int64.lt_iff_toInt_lt, wide]
    rfl
  have masked : ∀ m, 4 = m + 2 → INT_MASK.toNat = 0xFF <<< (8 * m + 7) := by
    intro m size
    obtain rfl : m = 2 := by omega
    rfl
  have word : (v.toInt64.toUInt64.toNat : Int) = v.toInt % 2 ^ 64 := toNat_ulongOf v
  obtain ⟨k, found, least, few⟩ : ∃ k, (if v.toInt64 < 0 then
      negativeLenLoop v.toInt64.toUInt64 4 INT_MASK else
      octetLenLoop v.toInt64.toUInt64 4 INT_MASK) = k ∧ LeastOctets v.toInt k ∧ k ≤ 4 := by
    by_cases less : v.toInt < 0
    · have complement : ((~~~v.toInt64.toUInt64).toNat : Int) = -1 - v.toInt := by
        rw [UInt64.toNat_not]
        have bound := UInt64.toNat_lt v.toInt64.toUInt64
        change ((2 ^ 64 - 1 - v.toInt64.toUInt64.toNat : Nat) : Int) = _
        omega
      rw [if_pos (negative.mpr less), negativeLenLoop_eq]
      have least := @octetLenLoop_spec (~~~v.toInt64.toUInt64) 4 INT_MASK (by decide) masked
        (by omega)
      rw [complement] at least
      exact ⟨_, rfl, leastOctets_complement least, octetLenLoop_le ..⟩
    · have same : (v.toInt64.toUInt64.toNat : Int) = v.toInt := by omega
      rw [if_neg fun h => less (negative.mp h)]
      have least := @octetLenLoop_spec v.toInt64.toUInt64 4 INT_MASK (by decide) masked (by omega)
      rw [same] at least
      exact ⟨_, rfl, least, octetLenLoop_le ..⟩
  refine ⟨lowOctets k v.toInt, fun held => ?_, least.shortestSigned, by rwa [length_lowOctets]⟩
  rw [bEncAsnIntContent, found]
  change (fun p : Unit × List UInt8 => (UInt64.ofNat k, p.2)) ((putSignedOctets _ _).run held) = _
  rw [run_putSignedOctets, wide, length_lowOctets]

section

variable {β : Type} [GenBuf β] {inv : β → Prop} {handles : UInt64 → Prop}
  {unread : β → List UInt8}

/-- At most four octets that stand for a number are read as it. -/
theorem InOrder.bDecAsnIntContent_takes (inOrder : InOrder inv handles unread) (tag : AsnTag)
    {octets : List UInt8} {v : Int32} (some : octets ≠ []) (few : octets.length ≤ 4)
    (signed : signedOf octets = v.toInt) :
    (decTape inv unread).Takes (bDecAsnIntContent tag (UInt64.ofNat octets.length)) octets v := by
  intro s rest valid held n
  obtain ⟨first, more, rfl⟩ := List.exists_cons_of_ne_nil some
  rw [List.length_cons] at few
  have count : (UInt64.ofNat (more.length + 1)).toNat = more.length + 1 :=
    UInt64.toNat_ofNat_of_lt' (by rw [UInt64.size]; omega)
  have notBig : ¬ UInt64.ofNat (more.length + 1) > 4 := by
    rw [gt_iff_lt, UInt64.lt_iff_toNat_lt, count, show (4 : UInt64).toNat = 4 from rfl]
    omega
  have turns : turnsUpTo (UInt64.ofNat (more.length + 1)) 1 = more.length := by
    rw [turnsUpTo, toInt_intOf_of_lt (by rw [count]; omega), count]
    omega
  -- The first octet is widened with its sign, as far as an `unsigned int` goes.
  obtain ⟨init, widened, low⟩ : ∃ init : UInt64,
      (if first &&& 0x80 != 0 then 0xffffff00 ||| first.toUInt64 else first.toUInt64) = init ∧
        (init.toNat : Int) = if first < 0x80 then (first.toNat : Int) else first.toNat - 256 + 2 ^ 32 := by
    have all : ∀ k : Fin 256, UInt8.ofNat k &&& 0x80 != 0 ↔ ¬ UInt8.ofNat k < 0x80 := by
      decide +kernel
    have top := all ⟨first.toNat, first.toNat_lt⟩
    rw [show UInt8.ofNat (⟨first.toNat, first.toNat_lt⟩ : Fin 256) = first from
      UInt8.ofNat_toNat] at top
    refine ⟨_, rfl, ?_⟩
    by_cases positive : first < 0x80
    · rw [if_neg fun set => top.mp set positive, if_pos positive, UInt8.toNat_toUInt64]
    · have sum := Nat.shiftLeft_add_eq_or_of_lt (i := 8) first.toNat_lt 0xffffff
      rw [if_pos (top.mpr positive), if_neg positive, UInt64.toNat_or, UInt8.toNat_toUInt64]
      change ((0xffffff <<< 8 ||| first.toNat : Nat) : Int) = _
      rw [← sum]
      push_cast
      omega
  obtain ⟨octet, valid', left⟩ := inOrder.getByte_held valid held
  obtain ⟨s', ran, valid'', left'⟩ := inOrder.shiftOctetsIn_held init valid' left
  have value : intOf (UInt64.ofNat (init.toNat * 256 ^ more.length + ofOctets more)) = v := by
    have bound := ofOctets_lt more
    have least := v.le_toInt
    have most := v.toInt_lt
    rw [← Int32.toInt_inj, toInt_intOf, ← signed, signedOf, ofOctets_cons, Int.bmod_def,
      UInt64.toNat_ofNat', List.length_cons]
    rw [← signed, signedOf, ofOctets_cons, List.length_cons] at least most
    generalize more.length = k at few bound least most ⊢
    obtain rfl | rfl | rfl | rfl : k = 0 ∨ k = 1 ∨ k = 2 ∨ k = 3 := by omega
    all_goals
      split_ifs at low least most ⊢ <;> push_cast at low bound least most ⊢ <;> omega
  refine ⟨s', ?_, valid'', left'⟩
  simp only [bDecAsnIntContent, List.length_cons, if_neg notBig, EStateM.run_bind (x := bufGetByte),
    run_bufGetByte, octet, widened, turns]
  rw [run_bind_of_ok ran, checked_eq_ok, value]
  exact ⟨rfl, valid''.2, rfl⟩

/-- A content of at most four octets is read behind the tag and the length. -/
theorem InOrder.bDecAsnInt_takes (inOrder : InOrder inv handles unread) {octets : List UInt8}
    {v : Int32} (some : octets ≠ []) (few : octets.length ≤ 4) (signed : signedOf octets = v.toInt) :
    (decTape inv unread).Takes bDecAsnInt (0x02 :: UInt8.ofNat octets.length :: octets) v := by
  intro s rest valid tape n
  have isTag : TagRead [0x02] (makeTagId UNIV PRIM INTEGER_TAG_CODE) :=
    ⟨0x02, [], rfl, by decide, by rw [if_neg (by decide)]⟩
  have count : (UInt8.ofNat octets.length).toNat = octets.length := by
    rw [UInt8.toNat_ofNat']
    omega
  have isLen : LenRead [UInt8.ofNat octets.length] (UInt64.ofNat octets.length) := by
    refine .inr ⟨_, isLength_short ?_, by simp, by rw [count]⟩
    rw [UInt8.lt_iff_toNat_lt, count]
    exact Nat.lt_of_le_of_lt few (by decide)
  obtain ⟨s₁, ranTag, valid₁, tape₁⟩ := inOrder.bDecTag_recognises.takes isTag s _ valid tape n
  obtain ⟨s₂, ranLen, valid₂, tape₂⟩ :=
    inOrder.bDecLen_recognises.takes isLen s₁ (octets ++ rest) valid₁ tape₁ _
  obtain ⟨s', ran, done⟩ :=
    inOrder.bDecAsnIntContent_takes (makeTagId UNIV PRIM INTEGER_TAG_CODE) some few signed s₂ rest
      valid₂ tape₂ _
  refine ⟨s', ?_, done⟩
  have same : (makeTagId UNIV PRIM INTEGER_TAG_CODE != makeTagId UNIV PRIM INTEGER_TAG_CODE) =
      false := by simp
  rw [bDecAsnInt, run_bind_of_ok ranTag]
  dsimp only
  rw [same, if_neg Bool.false_ne_true, run_bind_of_ok ranLen]
  dsimp only
  rw [ran, (decTape inv unread).advance_add, (decTape inv unread).advance_add,
    ← List.length_append, ← List.length_append]
  rfl

end

/-- Every INTEGER is written with the shortest content there is, and read back from simple buffers and
from chains. -/
theorem asnInt_roundTrips (v : Int32) :
    ∃ content, ShortestSigned v.toInt content ∧
      (bEncAsnInt v).Writes (0x02 :: UInt8.ofNat content.length :: content) ∧
      (decTape (fun _ => True) SBuf.unread).Takes bDecAsnInt
        (0x02 :: UInt8.ofNat content.length :: content) v ∧
      (decTape ExpBufRef.Steady ExpBufRef.unread).Takes bDecAsnInt
        (0x02 :: UInt8.ofNat content.length :: content) v := by
  obtain ⟨content, writes, shortest, few⟩ := bEncAsnIntContent_writes v
  refine ⟨content, shortest, fun held => ?_,
    sBuf_inOrder.bDecAsnInt_takes shortest.some few shortest.signed,
    expBuf_inOrder.bDecAsnInt_takes shortest.some few shortest.signed⟩
  have count : (UInt64.ofNat content.length).toNat = content.length :=
    UInt64.toNat_ofNat_of_lt' (by rw [UInt64.size]; omega)
  have less : UInt64.ofNat content.length < 128 := by
    rw [UInt64.lt_iff_toNat_lt, count]
    exact Nat.lt_of_le_of_lt few (by decide)
  have octet : (UInt64.ofNat content.length).toUInt8 = UInt8.ofNat content.length := by
    apply UInt8.toNat_inj.mp
    rw [UInt64.toNat_toUInt8, UInt8.toNat_ofNat', count]
  have sum : UInt64.ofNat (0x02 :: UInt8.ofNat content.length :: content).length =
      UInt64.ofNat content.length + 1 + 1 := by
    rw [List.length_cons, List.length_cons, UInt64.ofNat_add, UInt64.ofNat_add]
    rfl
  have len := bEncDefLen_writes (UInt64.ofNat content.length) (content ++ held)
  rw [unrolledOctets, if_pos less, octet] at len
  change (fun p : AsnLen × List UInt8 => (fun q : AsnLen × List UInt8 => (p.1 + q.1 + 1, 0x02 :: q.2))
    ((bEncDefLen p.1).run p.2)) ((bEncAsnIntContent v).run held) = _
  rw [writes held]
  dsimp only
  rw [len, sum]
  rfl

end Esnacc
