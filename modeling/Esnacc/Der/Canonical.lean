import Esnacc.Der.ElmtBuffers
import Esnacc.Lib.ListSort
import Esnacc.Lib.Qsort
import Mathlib.Data.List.Lex
import Mathlib.Data.List.Pairwise
import Mathlib.Data.List.Zip

/-! For which elements the DER encoder of a SET OF is canonical. -/

namespace Esnacc

open Lib

/-- Octets are ordered as numbers, and strings of octets as in a dictionary. -/
instance octetOrder : LinearOrder UInt8 := byteOrder

/-! ## Pairs of encodings -/

/-- The last octets that differ, each increased by one, are in the order of the encodings. -/
def Agree (x y : List UInt8) : Prop :=
  ∃ data, lastDifference x y = some data ∧ (data.1 + 1 < data.2 + 1 ↔ x < y)

theorem lastDifference_swap (x y : List UInt8) :
    lastDifference y x = (lastDifference x y).map Prod.swap := by
  have differ : (fun data : UInt8 × UInt8 => decide (data.1 ≠ data.2)) ∘ Prod.swap =
      fun data => decide (data.1 ≠ data.2) := by
    funext data
    simp [eq_comm]
  rw [lastDifference, ← List.zip_swap, List.filter_map, differ, List.getLast?_map]
  rfl

theorem lastDifference_self (x : List UInt8) : lastDifference x x = none := by
  have none : (x.zip x).filter (fun data => data.1 ≠ data.2) = [] := by
    induction x with
    | nil => rfl
    | cons c rest ih => rw [List.zip_cons_cons, List.filter_cons_of_neg (by simp), ih]
  rw [lastDifference, none]
  rfl

theorem lastDifference_ne {x y : List UInt8} {data : UInt8 × UInt8}
    (last : lastDifference x y = some data) : data.1 + 1 ≠ data.2 + 1 := by
  have inside := List.mem_of_getLast? last
  have differ : data.1 ≠ data.2 := by
    simpa using (List.mem_filter.mp inside).2
  intro same
  have numbers := congrArg UInt8.toNat same
  rw [UInt8.toNat_add, UInt8.toNat_add] at numbers
  have bound := data.1.toNat_lt
  have boundRight := data.2.toNat_lt
  exact differ (UInt8.toNat_inj.mp (by change (_ + 1) % 2 ^ 8 = (_ + 1) % 2 ^ 8 at numbers; omega))

theorem Agree.ne {x y : List UInt8} (agree : Agree x y) : x ≠ y := by
  rintro rfl
  obtain ⟨data, last, -⟩ := agree
  rw [lastDifference_self] at last
  cases last

theorem Agree.symm {x y : List UInt8} (agree : Agree x y) : Agree y x := by
  have other := agree.ne
  obtain ⟨data, last, order⟩ := agree
  have differ := lastDifference_ne last
  refine ⟨data.swap, by rw [lastDifference_swap, last]; rfl, ?_⟩
  -- Both sides turn into their opposites.
  constructor
  · intro less
    have notLess : ¬x < y := fun before => lt_asymm less (order.mpr before)
    exact lt_of_le_of_ne (not_lt.mp notLess) other.symm
  · intro less
    have notLess : ¬data.1 + 1 < data.2 + 1 := fun before => lt_asymm less (order.mp before)
    exact lt_of_le_of_ne (not_lt.mp notLess) differ.symm

instance : Std.Symm Agree where
  symm _ _ := Agree.symm

theorem verdict_cases (x y : List UInt8) : verdict x y = -1 ∨ verdict x y = 1 := by
  rw [verdict_eq]
  split
  · exact .inl rfl
  · split
    · exact .inl rfl
    · exact .inr rfl

theorem verdict_self (x : List UInt8) : verdict x x = -1 := by
  rw [verdict_eq, lastDifference_self]

theorem Agree.verdict {x y : List UInt8} (agree : Agree x y) :
    (verdict x y = -1 ∧ x < y) ∨ (Esnacc.verdict x y = 1 ∧ y < x) := by
  have other := agree.ne
  obtain ⟨data, last, order⟩ := agree
  rw [verdict_eq, last]
  by_cases less : data.1 + 1 < data.2 + 1
  · exact .inl ⟨if_pos less, order.mp less⟩
  · have notLess : ¬x < y := fun before => less (order.mpr before)
    exact .inr ⟨if_neg less, lt_of_le_of_ne (not_lt.mp notLess) other.symm⟩

/-- Encodings on which the verdicts are opposite, and one of them is their order, agree. -/
theorem agree_of_verdict {x y : List UInt8} (less : verdict x y = -1) (more : verdict y x = 1)
    (before : x < y) : Agree x y := by
  rw [verdict_eq] at less more
  cases last : lastDifference x y with
  | none =>
    -- Without a difference the verdict is the same both ways.
    rw [lastDifference_swap, last] at more
    cases more
  | some data =>
    rw [last] at less
    refine ⟨data, last, fun _ => before, fun _ => ?_⟩
    by_contra notLess
    dsimp only at less
    rw [if_neg notLess] at less
    cases less

/-- A result of a comparison that tells the order of two encodings. -/
def Tells (x y : List UInt8) (cmp : Int) : Prop :=
  (cmp < 0 ↔ x < y) ∧ (cmp = 0 ↔ x = y)

/-- The comparison tells the order of two encodings, both ways, exactly where they agree. -/
theorem tells_iff_agree {a b : EncodedElmt} {x y : List UInt8} (left : a.Loaded x)
    (right : b.Loaded y) :
    Tells x y (encodedElmtCmp a b).1 ∧ Tells y x (encodedElmtCmp b a).1 ↔ Agree x y := by
  rw [encodedElmtCmp_eq left right, encodedElmtCmp_eq right left]
  unfold Tells
  constructor
  · rintro ⟨⟨order, same⟩, orderBack, -⟩
    rcases verdict_cases x y with less | more
    · have before := order.mp (by omega)
      rcases verdict_cases y x with lessBack | moreBack
      · exact absurd (orderBack.mp (by omega)) (lt_asymm before)
      · exact agree_of_verdict less moreBack before
    · have notBefore : ¬x < y := fun before => by
        have negative := order.mpr before
        omega
      have other : x ≠ y := fun equal => by
        have zero := same.mpr equal
        omega
      have after : y < x := lt_of_le_of_ne (not_lt.mp notBefore) other.symm
      rcases verdict_cases y x with lessBack | moreBack
      · exact (agree_of_verdict lessBack more after).symm
      · have negative := orderBack.mpr after
        omega
  · intro agree
    have other := agree.ne
    rcases agree.verdict with ⟨less, before⟩ | ⟨more, after⟩ <;>
      rcases agree.symm.verdict with ⟨lessBack, beforeBack⟩ | ⟨moreBack, afterBack⟩
    · exact absurd before (lt_asymm beforeBack)
    · refine ⟨⟨⟨fun _ => before, fun _ => by omega⟩, by omega, fun same => absurd same other⟩,
        ⟨fun _ => by omega, fun no => absurd no (lt_asymm before)⟩, by omega,
        fun same => absurd same.symm other⟩
    · refine ⟨⟨⟨fun _ => by omega, fun no => absurd no (lt_asymm after)⟩, by omega,
        fun same => absurd same other⟩, ⟨fun _ => after, fun _ => by omega⟩, by omega,
        fun same => absurd same.symm other⟩
    · exact absurd after (lt_asymm afterBack)

/-! ## Lists of encodings -/

/-- The comparison orders encodings that agree, as the dictionary does. -/
theorem consistent_of_agree {es : List (List UInt8)} (agree : es.Pairwise Agree) :
    Consistent verdict es ∧ ∀ x ∈ es, ∀ y ∈ es, verdict x y ≤ 0 ↔ x ≤ y := by
  have order : ∀ x ∈ es, ∀ y ∈ es, verdict x y ≤ 0 ↔ x ≤ y := by
    intro x inX y inY
    by_cases same : x = y
    · subst same
      rw [verdict_self]
      exact ⟨fun _ => le_rfl, fun _ => by decide⟩
    · rcases (agree.forall inX inY same).verdict with
        ⟨less, before⟩ | ⟨more, after⟩
      · exact ⟨fun _ => before.le, fun _ => by omega⟩
      · exact ⟨fun _ => by omega, fun no => absurd after (not_lt.mpr no)⟩
  refine ⟨⟨agree.imp fun {x y} agrees => ?_, ?_⟩, order⟩
  · rcases agrees.verdict with ⟨less, before⟩ | ⟨more, after⟩ <;>
      rcases agrees.symm.verdict with ⟨lessBack, beforeBack⟩ | ⟨moreBack, afterBack⟩
    · exact absurd before (lt_asymm beforeBack)
    · omega
    · omega
    · exact absurd after (lt_asymm afterBack)
  · intro x inX y inY z inZ first second
    exact (order x inX z inZ).mpr
      (((order x inX y inY).mp first).trans ((order y inY z inZ).mp second))

/-- Encodings that the comparison orders, and sorts as the dictionary does, agree. -/
theorem agree_of_sorted {es : List (List UInt8)} (consistent : Consistent verdict es)
    (sorted : es.Pairwise fun x y => verdict x y ≤ 0) (ascending : es.Pairwise (· ≤ ·)) :
    es.Pairwise Agree := by
  have all := (sorted.and ascending).and consistent.opposite
  refine all.imp fun {x y} facts => ?_
  obtain ⟨⟨notMore, order⟩, opposite⟩ := facts
  have less : verdict x y = -1 := by
    rcases verdict_cases x y with less | more <;> omega
  have more : verdict y x = 1 := by
    rcases verdict_cases y x with lessBack | moreBack <;> omega
  -- Equal encodings would be less than each other.
  have other : x ≠ y := by
    rintro rfl
    omega
  exact agree_of_verdict less more (lt_of_le_of_ne order other)

end Esnacc
