import Esnacc.Cxx.StoredInts
import Esnacc.Lib.ExchangeSort

/-! The C++ enumerations, which go into PER as places in the list of their values. -/

namespace Esnacc.Cxx

open Lib

namespace AsnEnum

/-- The place of the value in the list, which is left sorted. -/
def indexedVal (x : AsnInt) (penumList : List Int) : Except Thrown Int × List Int :=
  if 4 < x.mBytes.length then (throw (integerError "enumerated value is too big"), penumList)
  else
    let indexedList := everyPairSort penumList
    let index := do
      let temp ← x.toInteger
      match indexedList.idxOf? temp.toInt with
      | some count1 => return (count1 : Int)
      | none => throw (integerError "value is not in enumerated List")
    (index, indexedList)

/-- Take the value at a place of the list, which is left sorted. -/
def setIndex (penumList : List Int) (index : Int) : Except Thrown AsnInt × List Int :=
  let indexedList := everyPairSort penumList
  -- Outside the list there is other memory.
  let value := if index < 0 then throw .fault else
    match indexedList[index.toNat]? with
    | some val => AsnInt.set (.ofInt val)
    | none => throw .fault
  (value, indexedList)

end AsnEnum

/-! ## Places -/

/-- The place that PER gives a value: the number of smaller ones. -/
def rank (values : List Int) (v : Int) : Nat :=
  values.countP (· < v)

/-- From whatever order of the values, a value goes as its rank, and comes back from it. -/
def RanksRight (values : List Int) (x : AsnInt) : Prop :=
  ∀ penumList, penumList.Perm values →
    (∃ indexedList, AsnEnum.indexedVal x penumList = (.ok (rank values x.value), indexedList) ∧
      indexedList.Perm penumList) ∧
    ∃ y indexedList, AsnEnum.setIndex penumList (rank values x.value) = (.ok y, indexedList) ∧
      y.value = x.value ∧ indexedList.Perm penumList

section

variable {x : AsnInt} (some : x.mBytes ≠ []) (short : x.mBytes.length ≤ 4)

include some short

theorem toInt_ofInt_value : (Int32.ofInt x.value).toInt = x.value := by
  obtain ⟨least, most⟩ := fitsOctets_signedOf some
  have word : (256 : Int) ^ x.mBytes.length ≤ 256 ^ 4 := pow_le_pow_right₀ (by decide) short
  change -(256 : Int) ^ x.mBytes.length ≤ 2 * x.value at least
  change 2 * x.value < (256 : Int) ^ x.mBytes.length at most
  exact Int32.toInt_ofInt_of_le (by omega) (by omega)

variable {values : List Int} (distinct : values.Nodup) (listed : x.value ∈ values)

include distinct listed

theorem indexedVal_spec :
    AsnEnum.indexedVal x values = (.ok (values.countP (x.value < ·)), everyPairSort values) := by
  have place := idxOf?_everyPairSort distinct listed
  have read := toInteger_eq some short
  change x.toInteger = .ok (Int32.ofInt x.value) at read
  rw [AsnEnum.indexedVal, if_neg (Nat.not_lt.mpr short), read]
  dsimp only [bind, Except.bind]
  rw [toInt_ofInt_value some short, place]
  rfl

theorem setIndex_spec : ∃ y, AsnEnum.setIndex values (values.countP (x.value < ·)) =
    (.ok y, everyPairSort values) ∧ y.value = x.value := by
  obtain ⟨inside, here, -⟩ := List.idxOf?_eq_some_iff.mp (idxOf?_everyPairSort distinct listed)
  obtain ⟨y, set, -, -, same, -⟩ := set_spec (Int32.ofInt x.value)
  refine ⟨y, ?_, same.trans (toInt_ofInt_value some short)⟩
  have nonneg : ¬((values.countP (x.value < ·) : Nat) : Int) < 0 := by omega
  rw [AsnEnum.setIndex, if_neg nonneg, Int.toNat_natCast, List.getElem?_eq_getElem inside, here]
  dsimp only
  rw [set]

end

/--
Where the place is the rank of the value.

The sort puts the greatest value first, so that the places count down where PER counts up: only a value in the middle has one for the other.
-/
theorem ranksRight_iff {x : AsnInt} (stored : x.Stored) {values : List Int}
    (distinct : values.Nodup) (listed : x.value ∈ values) :
    RanksRight values x ↔
      x.mBytes.length ≤ 4 ∧ values.countP (x.value < ·) = values.countP (· < x.value) := by
  have some := stored.shortest.some
  constructor
  · intro ranks
    obtain ⟨⟨indexedList, ran, -⟩, -⟩ := ranks values (List.Perm.refl _)
    by_cases short : x.mBytes.length ≤ 4
    · rw [indexedVal_spec some short distinct listed] at ran
      have place := Except.ok.inj (congrArg Prod.fst ran)
      exact ⟨short, Int.ofNat_inj.mp place⟩
    · rw [AsnEnum.indexedVal, if_pos (Nat.not_le.mp short)] at ran
      cases congrArg Prod.fst ran
  · rintro ⟨short, middle⟩ penumList perm
    have apart := perm.nodup_iff.mpr distinct
    have member := perm.mem_iff.mpr listed
    have place : penumList.countP (x.value < ·) = rank values x.value :=
      (perm.countP_eq _).trans middle
    have sorted := everyPairSort_perm penumList
    constructor
    · refine ⟨_, ?_, sorted⟩
      rw [indexedVal_spec some short apart member, place]
    · obtain ⟨y, set, same⟩ := setIndex_spec some short apart member
      rw [place] at set
      exact ⟨y, _, set, same, sorted⟩

/-- The middle one of three values. -/
theorem ranksRight_iff_middle : RanksRight [5, 1, 3] ⟨[3]⟩ ↔
    [(3 : UInt8)].length ≤ 4 ∧ [(5 : Int), 1, 3].countP (3 < ·) = [(5 : Int), 1, 3].countP (· < 3) :=
  ranksRight_iff (x := ⟨[3]⟩) ⟨[3], true, rfl⟩ (by decide) (by decide)

/-- The greater one of two values gets the place 0. -/
theorem not_ranksRight :
    ¬∀ (x : AsnInt) (values : List Int), x.Stored → values.Nodup → x.value ∈ values →
      RanksRight values x := by
  intro always
  have ranks := always ⟨[1]⟩ [0, 1] ⟨[1], true, rfl⟩ (by decide) (by decide)
  obtain ⟨⟨indexedList, ran, -⟩, -⟩ := ranks [0, 1] (List.Perm.refl _)
  rw [indexedVal_spec (by decide) (by decide) (by decide) (by decide)] at ran
  have place := Except.ok.inj (congrArg Prod.fst ran)
  revert place
  decide

end Esnacc.Cxx
