import Mathlib.Data.List.Basic
import Mathlib.Tactic.Common

/-! The bits of octets, most significant first, and how shifts and masks move them. -/

namespace Lib

/-- The bits of an octet, the most significant one first. -/
def bitsOf (c : UInt8) : List Bool :=
  (List.range 8).map c.toBitVec.getMsbD

/-- A left shift of an octet, narrowed to an octet again. -/
def shl (c : UInt8) (n : Nat) : UInt8 :=
  -- The shift is made in a wider word: a count of 8 clears the octet.
  .ofBitVec (c.toBitVec <<< n)

/-- A right shift of an octet. -/
def shr (c : UInt8) (n : Nat) : UInt8 :=
  .ofBitVec (c.toBitVec >>> n)

@[simp] theorem length_bitsOf (c : UInt8) : (bitsOf c).length = 8 := rfl

@[simp] theorem getElem_bitsOf (c : UInt8) (i : Nat) (inside : i < (bitsOf c).length) :
    (bitsOf c)[i] = c.toBitVec.getMsbD i := by
  simp [bitsOf]

theorem bitsOf_injective : Function.Injective bitsOf := by
  intro c d same
  apply UInt8.toBitVec_inj.mp
  apply BitVec.eq_of_getMsbD_eq
  intro i inside
  have here := congrArg (·[i]?) same
  simpa [bitsOf, inside] using here

theorem bitsOf_shl {c : UInt8} {n : Nat} (small : n ≤ 8) :
    bitsOf (shl c n) = (bitsOf c).drop n ++ List.replicate n false := by
  apply List.ext_getElem
  · simp [small]
  · intro i inside _
    rw [List.getElem_append]
    by_cases kept : i < 8 - n
    · simp [shl, kept, Nat.add_comm]
    · -- The bit taken here would stand behind the octet.
      have past : 8 ≤ i + n := by omega
      simp [shl, kept, BitVec.getMsbD_of_ge _ _ past]

theorem bitsOf_shr {c : UInt8} {n : Nat} (small : n ≤ 8) :
    bitsOf (shr c n) = List.replicate n false ++ (bitsOf c).take (8 - n) := by
  apply List.ext_getElem
  · simp
    omega
  · intro i inside _
    have octet : i < 8 := inside
    rw [List.getElem_append]
    by_cases new : i < n
    · simp [shr, new, octet, BitVec.getMsbD_ushiftRight]
    · simp [shr, new, octet, BitVec.getMsbD_ushiftRight]

@[simp] theorem shr_zero (c : UInt8) : shr c 0 = c := by
  simp [shr]

theorem getMsbD_shl_one {k j : Nat} (place : k < 8) (other : j < 8) :
    (shl 1 (7 - k)).toBitVec.getMsbD j = decide (k = j) := by
  -- There are few enough places to look at each pair of them.
  have each : ∀ k j : Fin 8, (shl 1 (7 - k)).toBitVec.getMsbD j = decide (k.val = j.val) := by
    decide
  exact each ⟨k, place⟩ ⟨j, other⟩

/-- An octet has a bit set where it has one in common with the octet of that bit alone. -/
theorem and_shl_one (c : UInt8) {k : Nat} (place : k < 8) :
    decide (c &&& shl 1 (7 - k) ≠ 0) = c.toBitVec.getMsbD k := by
  have zero : c &&& shl 1 (7 - k) = 0 ↔ c.toBitVec.getMsbD k = false := by
    rw [← bitsOf_injective.eq_iff, List.ext_getElem_iff]
    constructor
    · intro same
      have inside : ∀ d, k < (bitsOf d).length := fun _ => place
      have here := same.2 k (inside _) (inside _)
      rw [getElem_bitsOf, getElem_bitsOf, UInt8.toBitVec_and, BitVec.getMsbD_and,
        getMsbD_shl_one place place, decide_eq_true rfl, Bool.and_true] at here
      rw [here]
      exact BitVec.getMsbD_zero
    · intro clear
      refine ⟨rfl, fun j inside _ => ?_⟩
      rw [getElem_bitsOf, getElem_bitsOf, UInt8.toBitVec_and, BitVec.getMsbD_and,
        getMsbD_shl_one place inside]
      -- Every other bit is masked out.
      by_cases here : k = j
      · subst here
        rw [clear]
        exact BitVec.getMsbD_zero.symm
      · rw [decide_eq_false here, Bool.and_false]
        exact BitVec.getMsbD_zero.symm
  by_cases set : c.toBitVec.getMsbD k = false
  · rw [set, decide_eq_false (not_not.mpr (zero.mpr set))]
  · rw [Bool.not_eq_false] at set
    rw [set, decide_eq_true (mt zero.mp (by rw [set]; decide))]

theorem bitsOf_or_shl_one (c : UInt8) {k : Nat} (place : k < 8) :
    bitsOf (c ||| shl 1 (7 - k)) = (bitsOf c).set k true := by
  refine List.ext_getElem (by rw [List.length_set, length_bitsOf, length_bitsOf]) ?_
  intro j inside _
  rw [getElem_bitsOf, List.getElem_set, getElem_bitsOf, UInt8.toBitVec_or, BitVec.getMsbD_or,
    getMsbD_shl_one place inside]
  by_cases here : k = j
  · rw [if_pos here, decide_eq_true here, Bool.or_true]
  · rw [if_neg here, decide_eq_false here, Bool.or_false]

theorem bitsOf_and_not_shl_one (c : UInt8) {k : Nat} (place : k < 8) :
    bitsOf (c &&& ~~~shl 1 (7 - k)) = (bitsOf c).set k false := by
  refine List.ext_getElem (by rw [List.length_set, length_bitsOf, length_bitsOf]) ?_
  intro j inside _
  have other : j < 8 := inside
  rw [getElem_bitsOf, List.getElem_set, getElem_bitsOf, UInt8.toBitVec_and, UInt8.toBitVec_not,
    BitVec.getMsbD_and, BitVec.getMsbD_not, getMsbD_shl_one place inside, decide_eq_true other,
    Bool.true_and]
  by_cases here : k = j
  · rw [if_pos here, decide_eq_true here, Bool.not_true, Bool.and_false]
  · rw [if_neg here, decide_eq_false here, Bool.not_false, Bool.and_true]

theorem length_flatMap_bitsOf (octets : List UInt8) :
    (octets.flatMap bitsOf).length = 8 * octets.length := by
  simp [List.length_flatMap, Nat.mul_comm]

/-- A bit of some octets stands in one of them. -/
theorem getElem?_flatMap_bitsOf (octets : List UInt8) (i : Nat) :
    (octets.flatMap bitsOf)[i]? = octets[i / 8]?.map (·.toBitVec.getMsbD (i % 8)) := by
  induction octets generalizing i with
  | nil => simp
  | cons c octets ih =>
    rw [List.flatMap_cons, List.getElem?_append, length_bitsOf]
    by_cases first : i < 8
    · -- The bit is one of the first octet.
      have octet : i / 8 = 0 := by omega
      have inside : i % 8 = i := by omega
      rw [if_pos first, octet, inside]
      simp [bitsOf, first]
    · have octet : i / 8 = (i - 8) / 8 + 1 := by omega
      have inside : i % 8 = (i - 8) % 8 := by omega
      rw [if_neg first, ih, octet, inside, List.getElem?_cons_succ]

theorem eq_append_of_getElem? {octets : List UInt8} {q : Nat} {c : UInt8}
    (held : octets[q]? = some c) :
    octets = octets.take q ++ c :: octets.drop (q + 1) ∧ (octets.take q).length = q := by
  obtain ⟨inside, rfl⟩ := List.getElem?_eq_some_iff.mp held
  exact ⟨by rw [List.getElem_cons_drop, List.take_append_drop],
    by rw [List.length_take, Nat.min_eq_left (Nat.le_of_lt inside)]⟩

/-- An octet in which one bit is changed changes the bits of all octets there. -/
theorem flatMap_bitsOf_set {octets : List UInt8} {i : Nat} {c d : UInt8} {bit : Bool}
    (held : octets[i / 8]? = some c) (changed : bitsOf d = (bitsOf c).set (i % 8) bit) :
    (octets.set (i / 8) d).flatMap bitsOf = (octets.flatMap bitsOf).set i bit := by
  obtain ⟨parts, size⟩ := eq_append_of_getElem? held
  generalize octets.take (i / 8) = front, octets.drop (i / 8 + 1) = rest at parts size
  have bits : (front.flatMap bitsOf).length = 8 * (i / 8) := by rw [length_flatMap_bitsOf, size]
  have place : i - 8 * (i / 8) = i % 8 := by omega
  -- The bits in front of the octet stay, and the place is counted from there.
  rw [parts, List.set_append_right _ _ (Nat.le_of_eq size), size, Nat.sub_self, List.set_cons_zero,
    List.flatMap_append, List.flatMap_append, List.flatMap_cons, List.flatMap_cons, changed,
    List.set_append_right _ _ (by omega), bits, place,
    List.set_append_left _ _ (by rw [length_bitsOf]; omega)]

theorem take_flatMap_bitsOf {octets : List UInt8} {q : Nat} {c : UInt8}
    (held : octets[q]? = some c) {r : Nat} (place : r ≤ 8) :
    (octets.flatMap bitsOf).take (8 * q + r) =
      (octets.take q).flatMap bitsOf ++ (bitsOf c).take r := by
  obtain ⟨parts, size⟩ := eq_append_of_getElem? held
  have bits : ((octets.take q).flatMap bitsOf).length = 8 * q := by
    rw [length_flatMap_bitsOf, size]
  conv_lhs => rw [parts]
  rw [List.flatMap_append, List.flatMap_cons, ← bits, List.take_length_add_append,
    List.take_append_of_le_length (by rw [length_bitsOf]; exact place)]

/-- Whole octets in front are dropped with their bits. -/
theorem flatMap_bitsOf_drop (octets : List UInt8) (n : Nat) :
    (octets.drop n).flatMap bitsOf = (octets.flatMap bitsOf).drop (8 * n) := by
  by_cases short : octets.length ≤ n
  · -- All the octets are dropped.
    have all : (octets.flatMap bitsOf).length ≤ 8 * n := by
      rw [length_flatMap_bitsOf]
      omega
    rw [List.drop_of_length_le short, List.drop_of_length_le all, List.flatMap_nil]
  · have front : ((octets.take n).flatMap bitsOf).length = 8 * n := by
      rw [length_flatMap_bitsOf, List.length_take]
      omega
    conv_rhs => rw [← List.take_append_drop n octets, List.flatMap_append, ← front]
    rw [List.drop_left]

/-- Octets are known by their bits. -/
theorem flatMap_bitsOf_injective {octets others : List UInt8}
    (same : octets.flatMap bitsOf = others.flatMap bitsOf) : octets = others := by
  have sizes := congrArg List.length same
  rw [length_flatMap_bitsOf, length_flatMap_bitsOf] at sizes
  induction octets generalizing others with
  | nil => exact (List.eq_nil_of_length_eq_zero (by rw [List.length_nil] at sizes; omega)).symm
  | cons c octets ih =>
    cases others with
    | nil => simp at sizes
    | cons d others =>
      -- The first octets have the same bits, and so have the others.
      rw [List.flatMap_cons, List.flatMap_cons] at same
      obtain ⟨first, rest⟩ := List.append_inj same rfl
      rw [List.length_cons, List.length_cons] at sizes
      rw [bitsOf_injective first, ih rest (by omega)]

theorem flatMap_bitsOf_take {octets : List UInt8} {n : Nat} (enough : n ≤ octets.length) :
    (octets.take n).flatMap bitsOf = (octets.flatMap bitsOf).take (8 * n) := by
  have size : ((octets.take n).flatMap bitsOf).length = 8 * n := by
    rw [length_flatMap_bitsOf, List.length_take, Nat.min_eq_left enough]
  conv_rhs => rw [← List.take_append_drop n octets, List.flatMap_append]
  rw [List.take_left' size]

theorem flatMap_bitsOf_append_inj {octets others : List UInt8} {bits more : List Bool}
    (size : octets.length = others.length) :
    octets.flatMap bitsOf ++ bits = others.flatMap bitsOf ++ more ↔
      octets = others ∧ bits = more := by
  constructor
  · intro same
    obtain ⟨front, rest⟩ := List.append_inj same (by rw [length_flatMap_bitsOf,
      length_flatMap_bitsOf, size])
    exact ⟨flatMap_bitsOf_injective front, rest⟩
  · rintro ⟨rfl, rfl⟩
    rfl

set_option maxRecDepth 4096 in
theorem head_bitsOf (c : UInt8) : (bitsOf c).take 1 = [decide (c &&& 0x80 ≠ 0)] := by
  -- There are few enough octets to look at each of them.
  cases c with
  | ofBitVec c =>
    cases c with
    | ofFin c =>
      revert c
      decide

/-- The octets that hold some bits at their front and zeros behind them. -/
@[grind =] def Holds (c : UInt8) (bits : List Bool) : Prop :=
  bitsOf c = bits ++ List.replicate (8 - bits.length) false

theorem Holds.length_le {c : UInt8} {bits : List Bool} (holds : Holds c bits) :
    bits.length ≤ 8 := by
  have sizes := congrArg List.length holds
  simp only [length_bitsOf, List.length_append, List.length_replicate] at sizes
  omega

theorem holds_zero : Holds 0 [] := rfl

theorem holds_bitsOf (c : UInt8) : Holds c (bitsOf c) := by
  simp [Holds]

theorem holds_shl {c : UInt8} {n : Nat} (small : n ≤ 8) :
    Holds (shl c n) ((bitsOf c).drop n) := by
  rw [Holds, bitsOf_shl small]
  congr 2
  simp only [List.length_drop, length_bitsOf]
  omega

theorem Holds.shl {c : UInt8} {bits : List Bool} {n : Nat} (holds : Holds c bits)
    (small : n ≤ bits.length) : Holds (shl c n) (bits.drop n) := by
  have most := holds.length_le
  rw [Holds, bitsOf_shl (by omega), holds, List.drop_append_of_le_length small,
    List.append_assoc, List.replicate_append_replicate, List.length_drop]
  congr 2
  omega

theorem bitsOf_or (c d : UInt8) : bitsOf (c ||| d) = List.zipWith or (bitsOf c) (bitsOf d) := by
  apply List.ext_getElem
  · simp
  · intro i _ _
    simp

theorem zipWith_or_zeros (bits : List Bool) {n : Nat} (size : n = bits.length) :
    List.zipWith or bits (List.replicate n false) = bits := by
  subst size
  induction bits with
  | nil => rfl
  | cons bit bits ih => simp [List.replicate_succ, ih]

theorem Holds.or_shr {c : UInt8} {bits : List Bool} (holds : Holds c bits) (d : UInt8) :
    bitsOf (c ||| Lib.shr d bits.length) = bits ++ (bitsOf d).take (8 - bits.length) := by
  have most := holds.length_le
  rw [bitsOf_or, holds, bitsOf_shr most, List.zipWith_append (by simp)]
  -- Each side is zero where the other one has bits.
  rw [zipWith_or_zeros bits rfl, List.zipWith_comm_of_comm Bool.or_comm,
    zipWith_or_zeros _ (by simp)]

end Lib
