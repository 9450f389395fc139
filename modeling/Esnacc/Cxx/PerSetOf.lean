import Esnacc.Cxx.Appending
import Esnacc.Cxx.ListSizes
import Esnacc.Lib.ListSort

/-! The PER of a C++ SET OF is never read back, as the bits of its size are counted on one side only. -/

namespace Esnacc.Cxx

open Lib

variable {β : Type}

/-! ## Source -/

/-- Read the next octet of a copy, or nothing at its end. -/
def AsnBufBits.nextByte (tmpBuf : AsnBufBits) : Option UInt8 × AsnBufBits :=
  match readByte.run tmpBuf with
  | .ok ch tmpBuf => (some ch, tmpBuf)
  | .error _ tmpBuf => (none, tmpBuf)

/-- Compare copies of two buffers octet by octet. -/
def lessBits : Nat → Bool → AsnBufBits → AsnBufBits → Except Thrown Bool
  | 0, _, _, _ => throw .outOfTurns
  | turns + 1, firstTime, tmpBuf1, tmpBuf2 =>
    match tmpBuf1.nextByte, tmpBuf2.nextByte with
    -- Buffers that end together are in order, unless nothing was read of them.
    | (none, _), (none, _) => return !firstTime
    | (some _, _), (none, _) => return false
    | (none, _), (some _, _) => return true
    | (some ch1, tmpBuf1), (some ch2, tmpBuf2) =>
      if ch2 < ch1 then return false
      else if ch1 < ch2 then return true
      else lessBits turns false tmpBuf1 tmpBuf2

/--
The comparison of two buffers, which stay as they are.

The turns allow for every octet of the left one, for its partial octet and for the end.
-/
def AsnBufBits.lessThan (lhs rhs : AsnBufBits) : Except Thrown (Bool × AsnBufBits × AsnBufBits) := do
  return (← lessBits (lhs.pbuf.length + 3) true lhs rhs, lhs, rhs)

/-- Put each element into a buffer of its own, and add up the numbers of bits. -/
def AsnSetOf.encodeEach (pEnc : β → BitsM UInt64) (bAlign : Bool) :
    List β → UInt64 → Except Thrown (List AsnBufBits × UInt64)
  | [], totalLen => return ([], totalLen)
  | i :: rest, totalLen =>
    match (pEnc i).run (.make bAlign) with
    | .ok len bufRef => do
      let (bufList, totalLen) ← AsnSetOf.encodeEach pEnc bAlign rest (totalLen + len)
      return (bufRef :: bufList, totalLen)
    | .error e _ => throw e

/-- Append buffers to a buffer. -/
def appendEach (bufList : List AsnBufBits) (b : AsnBufBits) : AsnBufBits :=
  bufList.foldl (fun b iBuf => (iBuf.appendTo b).2) b

/-- Put a set: its size, and its elements in the order of their encodings. -/
def AsnSetOf.pEnc (pEnc : β → BitsM UInt64) (xs : List β) : BitsM UInt64 := do
  let intSetOfLength ← ofExcept (AsnInt.set (intOf (.ofNat xs.length)))
  -- The bits of the size are not added.
  let _ ← intSetOfLength.pEnc []
  let b ← get
  let (bufList, totalLen) ← ofExcept (AsnSetOf.encodeEach pEnc b.bAlign xs 0)
  let bufList ← ofExcept (listSort AsnBufBits.lessThan bufList)
  set (appendEach bufList b)
  return totalLen

/-- Get a set. -/
def AsnSetOf.pDec (pDec : AsnLen → BitsM (β × AsnLen)) (turns : Nat) (bitsDecoded : AsnLen) :
    BitsM (List β × AsnLen) := do
  let (intSetOfLength, bitsDecoded) ← AsnInt.pDec turns [] bitsDecoded
  let intSetOfLength ← ofExcept intSetOfLength.toInteger
  decodeElements pDec intSetOfLength.toInt.toNat bitsDecoded

/-! ## The comparison ends -/

/-- The octets that can still be read of a buffer: those stored, the partial one and one more. -/
def AsnBufBits.readable (b : AsnBufBits) : Nat :=
  b.pbuf.length + (if b.writeBitPos < 8 then 1 else 0) + if 0 < b.bitsLeft then 1 else 0

/-- Reading an octet leaves fewer octets to be read. -/
theorem AsnBufBits.readable_nextByte {b b' : AsnBufBits} {ch : UInt8}
    (read : b.nextByte = (some ch, b')) : b'.readable < b.readable := by
  unfold nextByte at read
  cases pbuf : b.pbuf with
  | cons c rest =>
    have ran : readByte.run b = .ok c { b with pbuf := rest } := by
      rw [readByte, run_bind_of_ok (EStateM.run_get b), pbuf]
      rfl
    rw [ran] at read
    cases read
    simp only [readable, pbuf, List.length_cons]
    omega
  | nil =>
    rw [readByte, run_bind_of_ok (EStateM.run_get b), pbuf] at read
    dsimp only at read
    -- The partial octet comes before the octet being read.
    by_cases partly : b.writeBitPos < 8
    · rw [if_pos partly] at read
      cases read
      simp only [readable, pbuf, if_pos partly]
      simp
    · rw [if_neg partly] at read
      by_cases left : 0 < b.bitsLeft
      · rw [if_pos left] at read
        cases read
        simp only [readable, pbuf, if_pos left, if_neg partly]
        simp
      · rw [if_neg left] at read
        cases read

theorem lessBits_ends {turns : Nat} (firstTime : Bool) {lhs : AsnBufBits}
    (enough : lhs.readable < turns) (rhs : AsnBufBits) : ∃ before, lessBits turns firstTime lhs rhs = .ok before := by
  induction turns generalizing firstTime lhs rhs with
  | zero => exact absurd enough (Nat.not_lt_zero _)
  | succ turns ih =>
    rw [lessBits]
    cases left : lhs.nextByte with
    | mk ch1 lhs' =>
      cases right : rhs.nextByte with
      | mk ch2 rhs' =>
        cases ch1 with
        | none => cases ch2 <;> exact ⟨_, rfl⟩
        | some ch1 =>
          cases ch2 with
          | none => exact ⟨_, rfl⟩
          | some ch2 =>
            dsimp only
            by_cases above : ch2 < ch1
            · exact ⟨false, by rw [if_pos above]; rfl⟩
            · by_cases below : ch1 < ch2
              · exact ⟨true, by rw [if_neg above, if_pos below]; rfl⟩
              · -- Equal octets leave fewer to be read.
                have fewer := AsnBufBits.readable_nextByte left
                rw [if_neg above, if_neg below]
                exact ih false (by omega) rhs'

theorem AsnBufBits.lessThan_leaves (lhs rhs : AsnBufBits) :
    ∃ before, lhs.lessThan rhs = .ok (before, lhs, rhs) := by
  have enough : lhs.readable < lhs.pbuf.length + 3 := by
    unfold readable
    split <;> split <;> omega
  obtain ⟨before, ran⟩ := lessBits_ends true enough rhs
  refine ⟨before, ?_⟩
  rw [lessThan, ran]
  rfl

/-! ## What is put -/

/-- A fresh buffer that an element was put into, with the number of its bits. -/
def Filled (bAlign : Bool) (buf : AsnBufBits) : Prop :=
  ∃ bits, (AsnBufBits.make bAlign).Wrote bits buf ∧ buf.bitsLeft.toNat = bits.length

/-- The number of bits of some elements, each put into a buffer of its own. -/
def PerElement.bitsEach (element : PerElement β) (bAlign : Bool) (xs : List β) : Nat :=
  (xs.map fun x => (element.bits x bAlign 0).length).sum

/-- The numbers of bits of some buffers. -/
def bitsOfEach (bufList : List AsnBufBits) : Nat :=
  (bufList.map fun buf => buf.bitsLeft.toNat).sum

/-- Each element is put into a buffer of its own. -/
theorem PerElement.encodeEach_spec (element : PerElement β) (bAlign : Bool) (xs : List β)
    (small : element.bitsEach bAlign xs < 2 ^ 63) (totalLen : UInt64) :
    ∃ bufList, AsnSetOf.encodeEach element.pEnc bAlign xs totalLen =
        .ok (bufList, totalLen + .ofNat (element.bitsEach bAlign xs)) ∧
      (∀ buf ∈ bufList, Filled bAlign buf) ∧ bitsOfEach bufList = element.bitsEach bAlign xs := by
  induction xs generalizing totalLen with
  | nil =>
    refine ⟨[], ?_, fun buf listed => absurd listed List.not_mem_nil, rfl⟩
    exact congrArg (fun len => Except.ok (([] : List AsnBufBits), len)) (UInt64.add_zero totalLen).symm
  | cons x rest ih =>
    have sum : element.bitsEach bAlign (x :: rest) =
        (element.bits x bAlign 0).length + element.bitsEach bAlign rest := List.sum_cons
    rw [sum] at small ⊢
    obtain ⟨buf, ran, wrote⟩ := element.puts x _ (AsnBufBits.make_wellFormed bAlign)
    change (AsnBufBits.make bAlign).Wrote (element.bits x bAlign 0) buf at wrote
    have left := wrote.octets.2.2.2.1
    have word : buf.bitsLeft.toNat = (element.bits x bAlign 0).length := by
      rw [left, UInt64.toNat_ofNat']
      omega
    obtain ⟨bufList, ranRest, filled, total⟩ :=
      ih (by omega) (totalLen + .ofNat (element.bits x bAlign 0).length)
    refine ⟨buf :: bufList, ?_, ?_, ?_⟩
    · rw [AsnSetOf.encodeEach, ran]
      change (do
        let (bufList, totalLen) ← AsnSetOf.encodeEach element.pEnc bAlign rest
          (totalLen + UInt64.ofNat (element.bits x bAlign 0).length)
        return (buf :: bufList, totalLen)) = _
      rw [ranRest, UInt64.ofNat_add, ← UInt64.add_assoc]
      rfl
    · intro other listed
      rcases List.mem_cons.mp listed with rfl | behind
      · exact ⟨_, wrote, word⟩
      · exact filled other behind
    · rw [bitsOfEach, List.map_cons, List.sum_cons, word, ← total]
      rfl

/-- Of some buffers all bits are appended, or many bits are not. -/
theorem appendEach_wrote {bAlign : Bool} {bufList : List AsnBufBits}
    (filled : ∀ buf ∈ bufList, Filled bAlign buf) (small : bitsOfEach bufList < 2 ^ 63)
    {b : AsnBufBits} (wellFormed : b.WellFormed) :
    ∃ more, b.Wrote more (appendEach bufList b) ∧
      (more.length = bitsOfEach bufList ∨ more.length + 2 ^ 31 ≤ bitsOfEach bufList) := by
  induction bufList generalizing b with
  | nil => exact ⟨[], .refl wellFormed, .inl rfl⟩
  | cons buf bufList ih =>
    have sum : bitsOfEach (buf :: bufList) = buf.bitsLeft.toNat + bitsOfEach bufList := List.sum_cons
    rw [sum] at small ⊢
    obtain ⟨bits, wrote, size⟩ := filled buf List.mem_cons_self
    have first : ∃ more, b.Wrote more (buf.appendTo b).2 ∧
        (more.length = bits.length ∨ more.length + 2 ^ 31 ≤ bits.length) := by
      by_cases few : bits.length < 2 ^ 31
      · exact ⟨buf.moved, wrote.appendTo few wellFormed, .inl wrote.length_moved⟩
      · obtain ⟨more, moved, fewer⟩ :=
          wrote.appendTo_fewer (Nat.le_of_not_lt few) (by omega) wellFormed
        exact ⟨more, moved, .inr fewer⟩
    obtain ⟨more, moved, many⟩ := first
    obtain ⟨others, movedRest, manyRest⟩ :=
      ih (fun other listed => filled other (List.mem_cons_of_mem _ listed)) (by omega) moved.wellFormed
    refine ⟨more ++ others, moved.trans movedRest, ?_⟩
    rw [List.length_append]
    omega

/-- A set is put behind its size; what is returned does not count the size. -/
theorem AsnSetOf.pEnc_wrote (element : PerElement β) (xs : List β) {b : AsnBufBits}
    (wellFormed : b.WellFormed) {pos : Nat} (position : (8 - b.writeBitPos) % 8 = pos % 8)
    (small : element.bitsEach b.bAlign xs < 2 ^ 63) :
    ∃ listLen b' more, AsnInt.set (intOf (.ofNat xs.length)) = .ok listLen ∧
      (AsnSetOf.pEnc element.pEnc xs).run b = .ok (.ofNat (element.bitsEach b.bAlign xs)) b' ∧
      b.Wrote (List.replicate (padding b.bAlign pos) false ++
        lengthCoded 8 listLen.mBytes.length (listLen.mBytes.flatMap bitsOf) ++ more) b' ∧
      (more.length = element.bitsEach b.bAlign xs ∨
        more.length + 2 ^ 31 ≤ element.bitsEach b.bAlign xs) := by
  obtain ⟨listLen, stored, -, -, -, -⟩ := set_spec (intOf (.ofNat xs.length))
  have size : (listLen.mBytes.flatMap bitsOf).length = listLen.mBytes.length * 8 := by
    rw [length_flatMap_bitsOf, Nat.mul_comm]
  obtain ⟨b₁, ran₁, wrote₁⟩ :=
    encodeGeneral_puts listLen.interpret_interprets.putsUnits size wellFormed
  rw [AsnBufBits.gap_eq position] at wrote₁
  obtain ⟨bufList, encoded, filled, total⟩ := element.encodeEach_spec b.bAlign xs small 0
  rw [UInt64.zero_add] at encoded
  obtain ⟨sorted, ranSort, perm⟩ := listSort_perm AsnBufBits.lessThan_leaves bufList
  -- Sorting moves the buffers only, and so there are as many bits as before.
  have same : bitsOfEach sorted = element.bitsEach b.bAlign xs := by
    rw [← total]
    exact (perm.map _).sum_nat
  obtain ⟨more, moved, many⟩ := appendEach_wrote
    (fun buf listed => filled buf (perm.mem_iff.mp listed)) (by omega) wrote₁.wellFormed
  rw [same] at many
  refine ⟨listLen, _, more, stored, ?_, wrote₁.trans moved, many⟩
  rw [AsnSetOf.pEnc, stored, ofExcept_ok, pure_bind, AsnInt.pEnc_nil, PERGeneral.encodeGeneral,
    run_bind_of_ok ran₁, run_bind_of_ok (EStateM.run_get b₁), wrote₁.bAlign, encoded, ofExcept_ok,
    pure_bind]
  dsimp only
  rw [ranSort, ofExcept_ok, pure_bind]
  rfl

/-! ## The round trip -/

/-- The routine that gets elements counts the bits that it takes, however many elements it gets. -/
def PerElement.CountsTaken (element : PerElement β) : Prop :=
  ∀ count bitsDecoded r pos bits rest, AsnBufBits.Stands r pos (bits ++ rest) →
    (bits ++ rest).length < 2 ^ 64 →
    ∀ ys len r', (decodeElements element.pDec count bitsDecoded).run r = .ok (ys, len) r' →
      r'.Stands (pos + bits.length) rest → len = bitsDecoded + .ofNat bits.length

/--
No set is read back with as many bits as were returned where it was put.

The bits of the size are counted where the set is read, and not where it is put.
-/
theorem AsnSetOf.never_round_trips {element : PerElement β} (counts : element.CountsTaken)
    {xs : List β} {bAlign : Bool} (small : element.bitsEach bAlign xs < 2 ^ 63) {turns : Nat}
    (enough : 0 < turns) (pos : Nat) :
    ¬RoundTrips bAlign pos (AsnSetOf.pEnc element.pEnc xs) (AsnSetOf.pDec element.pDec turns)
      (fun ys => ys.Perm xs) := by
  intro trips
  obtain ⟨b, wellFormed, mode, position, len, b₁, ran, reads⟩ := trips.got
  subst mode
  obtain ⟨listLen, b', more, stored, ran', wrote, many⟩ :=
    AsnSetOf.pEnc_wrote element xs wellFormed position small
  rw [ran] at ran'
  cases ran'
  obtain ⟨listLen', stored', some, short, -, -⟩ := set_spec (intOf (.ofNat xs.length))
  rw [stored] at stored'
  cases stored'
  have read := toInteger_eq some short
  have one : 0 < listLen.mBytes.length := List.length_pos_iff.mpr some
  have few : listLen.mBytes.length / 16384 < turns := by omega
  have gets := listLen.decodeGeneral_gets few b.bAlign pos
  have width : padding b.bAlign pos ≤ 7 := by
    rw [padding]
    split <;> omega
  have size : (List.replicate (padding b.bAlign pos) false ++
      lengthCoded 8 listLen.mBytes.length (listLen.mBytes.flatMap bitsOf)).length =
      padding b.bAlign pos + (8 + 8 * listLen.mBytes.length) := by
    rw [lengthCoded_of_lt_128 (by omega), List.length_append, List.length_append,
      List.length_replicate, length_bitsOf, length_flatMap_bitsOf]
  generalize List.replicate (padding b.bAlign pos) false ++
    lengthCoded 8 listLen.mBytes.length (listLen.mBytes.flatMap bitsOf) = front at wrote gets size
  have short : (front ++ more).length < 2 ^ 63 + 47 := by
    rw [List.length_append]
    omega
  have room : Countable pos (front ++ more) := by
    unfold Countable
    omega
  obtain ⟨r, ys, r', modeRead, stands, got, -, behind⟩ := reads _ wrote room
  obtain ⟨x, r₁, rfl, -, stands₁, later⟩ := gets.behind modeRead stands (by omega) 0
  have ranDec := later fun x bitsDecoded => do
    let intSetOfLength ← ofExcept x.toInteger
    decodeElements element.pDec intSetOfLength.toInt.toNat bitsDecoded
  have decoded := ranDec.symm.trans got
  rw [read, ofExcept_ok, pure_bind] at decoded
  -- Behind the size, the reader counts the bits that were appended.
  rw [← List.append_nil more] at stands₁
  have rest : (more ++ []).length < 2 ^ 64 := by
    rw [List.append_nil]
    omega
  rw [List.length_append, ← Nat.add_assoc] at behind
  have counted := counts _ _ r₁ _ more [] stands₁ rest ys _ r' decoded behind
  have numbers := congrArg UInt64.toNat counted
  simp only [UInt64.zero_add, UInt64.toNat_add, UInt64.toNat_ofNat'] at numbers
  omega

/-- Octets that were got are the first ones of those that came next. -/
theorem decodeElements_octets {count : Nat} {bitsDecoded len : AsnLen} {r r' : AsnBufBits}
    {pos : Nat} {bits : List Bool} (stands : r.Stands pos bits) (countable : bits.length < 2 ^ 64)
    {ys : List UInt8}
    (ran : (decodeElements octetElement.pDec count bitsDecoded).run r = .ok (ys, len) r') :
    8 * count ≤ bits.length ∧ len = bitsDecoded + .ofNat (8 * count) ∧
      r'.bitsLeft = .ofNat (bits.length - 8 * count) := by
  induction count generalizing bitsDecoded r pos bits ys with
  | zero =>
    cases ran
    exact ⟨Nat.zero_le _, (UInt64.add_zero len).symm, stands.left⟩
  | succ count ih =>
    rw [decodeElements] at ran
    obtain ⟨⟨c, first⟩, r₁, ranFirst, later⟩ := run_bind_eq_ok.mp ran
    obtain ⟨⟨rest, behind⟩, r₂, others, last⟩ := run_bind_eq_ok.mp later
    cases last
    obtain ⟨octets, r₃, ranOctet, kept⟩ := run_bind_eq_ok.mp ranFirst
    cases kept
    have eight : (8 : UInt64).toNat = 8 := rfl
    -- An octet is refused where fewer bits are left.
    have enough : 8 ≤ bits.length := by
      by_contra fewer
      have refused : r.bitsLeft < 8 := by
        rw [UInt64.lt_iff_toNat_lt, stands.left, UInt64.toNat_ofNat', eight]
        omega
      rw [getBits, run_bind_of_ok (EStateM.run_get r), if_pos refused] at ranOctet
      cases ranOctet
    have split := stands
    rw [← List.take_append_drop 8 bits] at split
    have width : (bits.take 8).length = 8 := by
      rw [List.length_take]
      omega
    obtain ⟨octets', r₄, ranBits, -, -, stands₁⟩ :=
      split.getBits (by rwa [List.take_append_drop]) width
    change (getBits 8).run r = _ at ranBits
    rw [ranOctet] at ranBits
    cases ranBits
    have size : (bits.drop 8).length = bits.length - 8 := List.length_drop
    obtain ⟨most, counted, left⟩ := ih stands₁ (by omega) others
    refine ⟨by omega, ?_, ?_⟩
    · have next : UInt64.ofNat (8 * (count + 1)) = 8 + .ofNat (8 * count) := by
        rw [Nat.mul_succ, Nat.add_comm, UInt64.ofNat_add]
        rfl
      rw [counted, next, UInt64.add_assoc]
    · rw [left, size]
      congr 1
      omega

theorem octetElement_countsTaken : octetElement.CountsTaken := by
  intro count bitsDecoded r pos bits rest stands countable ys len r' ran behind
  obtain ⟨most, counted, left⟩ := decodeElements_octets stands countable ran
  -- As many bits are left as come next.
  have lengths := congrArg UInt64.toNat (left.symm.trans behind.left)
  rw [UInt64.toNat_ofNat', UInt64.toNat_ofNat'] at lengths
  rw [List.length_append] at most countable lengths
  have all : 8 * count = bits.length := by omega
  rw [counted, all]

/-- Two octets in an aligned buffer, behind three bits of it. -/
theorem AsnSetOf.never_round_trips_octets :
    ¬RoundTrips true 3 (AsnSetOf.pEnc octetElement.pEnc [7, 9])
      (AsnSetOf.pDec octetElement.pDec 1) (fun ys => ys.Perm [7, 9]) :=
  AsnSetOf.never_round_trips octetElement_countsTaken (by decide) (by decide) 3

/-- The size of an empty set is counted where the set is read only. -/
theorem empty_set_counts_differ :
    ¬∀ (element : PerElement UInt8), element.CountsTaken → ∀ (xs : List UInt8) (bAlign : Bool),
      element.bitsEach bAlign xs < 2 ^ 63 → ∀ turns, 0 < turns → ∀ pos,
        RoundTrips bAlign pos (AsnSetOf.pEnc element.pEnc xs) (AsnSetOf.pDec element.pDec turns)
          (fun ys => ys.Perm xs) := by
  intro always
  have trips := always octetElement octetElement_countsTaken [] false (by decide) 1 (by decide) 0
  obtain ⟨len, b₁, ran, reads⟩ := trips [] [] rfl (.make false) [] rfl rfl
  -- Sixteen bits are put, and none of them counted.
  have put : (AsnSetOf.pEnc octetElement.pEnc []).run (.make false) =
      .ok 0 ⟨[1, 0], false, 0, 8, 0, 8, 16, 16⟩ := rfl
  rw [ran] at put
  cases put
  obtain ⟨r, answers, ys, r', rest, reaches, got, -⟩ := reads [] _ [] rfl (by decide) 0
  cases reaches
  have counted := congrArg (fun result : EStateM.Result Thrown AsnBufBits (List UInt8 × AsnLen) =>
    match result with
    | .ok (_, len) _ => len
    | .error _ _ => 0) got
  change _ = (0 : UInt64) at counted
  exact absurd counted (by decide)

end Esnacc.Cxx
