import Mathlib.Data.List.Nodup
import Mathlib.Data.List.Perm.Subperm

/-! Counting the elements of a list with a property by their places. -/

namespace Lib

variable {α : Type}

/-- The element at a place has a property. -/
def holdsAt (p : α → Bool) (xs : List α) (i : Nat) : Bool :=
  (xs[i]?.map p).getD false

theorem holdsAt_eq {p : α → Bool} {xs : List α} {i : Nat} {x : α} (here : xs[i]? = some x) :
    holdsAt p xs i = p x := by
  rw [holdsAt, here]
  rfl

theorem lt_of_holdsAt {p : α → Bool} {xs : List α} {i : Nat} (holds : holdsAt p xs i = true) :
    i < xs.length := by
  -- Behind the end there is no element.
  by_contra outside
  rw [holdsAt, List.getElem?_eq_none (Nat.le_of_not_lt outside)] at holds
  cases holds

theorem countP_eq_range (p : α → Bool) (xs : List α) :
    xs.countP p = (List.range xs.length).countP (holdsAt p xs) := by
  -- The induction is on the list: the places behind the first are shifted by one.
  induction xs with
  | nil => rfl
  | cons x rest ih =>
    rw [List.countP_cons, List.length_cons, List.range_succ_eq_map, List.countP_cons,
      List.countP_map, ih]
    rfl

section

variable {p : α → Bool} {xs : List α} {places : List Nat} (once : places.Nodup)
include once

theorem countP_holdsAt_le : places.countP (holdsAt p xs) ≤ xs.countP p := by
  -- They are among all places of the list.
  have among : places.filter (holdsAt p xs) ⊆ (List.range xs.length).filter (holdsAt p xs) := by
    intro i isMet
    obtain ⟨-, holds⟩ := List.mem_filter.1 isMet
    exact List.mem_filter.2 ⟨List.mem_range.2 (lt_of_holdsAt holds), holds⟩
  have fewer := (List.subperm_of_subset (once.filter _) among).length_le
  rw [← List.countP_eq_length_filter, ← List.countP_eq_length_filter, ← countP_eq_range] at fewer
  exact fewer

theorem mem_of_countP (enough : xs.countP p ≤ places.countP (holdsAt p xs)) {i : Nat}
    (holds : holdsAt p xs i = true) : i ∈ places := by
  -- The places met are among those of the list, and are no fewer.
  have among : places.filter (holdsAt p xs) ⊆ (List.range xs.length).filter (holdsAt p xs) := by
    intro j isMet
    obtain ⟨-, isOne⟩ := List.mem_filter.1 isMet
    exact List.mem_filter.2 ⟨List.mem_range.2 (lt_of_holdsAt isOne), isOne⟩
  rw [countP_eq_range, List.countP_eq_length_filter, List.countP_eq_length_filter] at enough
  have same := (List.subperm_of_subset (once.filter _) among).perm_of_length_le enough
  have isOne := List.mem_filter.2 ⟨List.mem_range.2 (lt_of_holdsAt holds), holds⟩
  exact (List.mem_filter.1 (same.mem_iff.2 isOne)).1

end

end Lib
