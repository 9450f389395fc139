import Mathlib.Data.List.Perm.Basic
import Mathlib.Order.Defs.LinearOrder
import Mathlib.Order.Lattice
import Mathlib.Tactic.Common

/-! A bottom-up merge sort whose comparisons may fail and may change what they compare. -/

namespace Lib

/-- Octets are ordered as numbers. -/
abbrev byteOrder : LinearOrder UInt8 where
  le_refl := UInt8.le_refl
  le_trans := fun _ _ _ => UInt8.le_trans
  le_antisymm := fun _ _ => UInt8.le_antisymm
  le_total := UInt8.le_total
  lt_iff_le_not_ge := fun a b => by
    rw [UInt8.not_le]
    exact ⟨fun less => ⟨UInt8.le_of_lt less, less⟩, And.right⟩
  toDecidableLE := inferInstance
  toDecidableLT := inferInstance

variable {ε α κ : Type}

/-! ## The sort -/

section

variable (less : α → α → Except ε (Bool × α × α))

/-- Merge an element and the merge of those behind it with a list. -/
def mergeInto (rest : List α → Except ε (List α)) : α → List α → Except ε (List α)
  | x, [] => do return x :: (← rest [])
  | x, y :: ys => do
    let (before, y, x) ← less y x
    -- An element of the right list goes first only where it is less.
    if before then return y :: (← mergeInto rest x ys)
    else return x :: (← rest (y :: ys))

/-- Merge two lists. -/
def merge : List α → List α → Except ε (List α)
  | [], ys => return ys
  | x :: xs, ys => mergeInto less (merge xs) x ys

/-- Put a list into the first empty slot, merged with those of the slots in front of it. -/
def addCarry : List α → List (List α) → Except ε (List (List α))
  | carry, [] => return [carry]
  | carry, [] :: slots => return carry :: slots
  | carry, slot :: slots => do return [] :: (← addCarry (← merge less slot carry) slots)

/-- Put the elements of a list into slots, one after the other. -/
def fillSlots : List α → List (List α) → Except ε (List (List α))
  | [], slots => return slots
  | a :: as, slots => do fillSlots as (← addCarry less [a] slots)

/-- Merge the lists of some slots, each with what is in front of it. -/
def collect : List α → List (List α) → Except ε (List α)
  | merged, [] => return merged
  | merged, slot :: slots => do collect (← merge less slot merged) slots

/-- Sort a list. -/
def listSort (as : List α) : Except ε (List α) := do
  collect less [] (← fillSlots less as [])

end

/-! ## What the sort does to elements that comparing leaves as they are -/

section

variable {less : α → α → Except ε (Bool × α × α)}
  (leaves : ∀ a b, ∃ before, less a b = .ok (before, a, b))

include leaves

theorem mergeInto_perm {rest : List α → Except ε (List α)} {xs : List α}
    (merges : ∀ ys, ∃ zs, rest ys = .ok zs ∧ zs.Perm (xs ++ ys)) (x : α) (ys : List α) :
    ∃ zs, mergeInto less rest x ys = .ok zs ∧ zs.Perm (x :: xs ++ ys) := by
  induction ys with
  | nil =>
    obtain ⟨zs, ran, perm⟩ := merges []
    refine ⟨x :: zs, ?_, perm.cons x⟩
    rw [mergeInto, ran]
    rfl
  | cons y ys ih =>
    obtain ⟨before, compared⟩ := leaves y x
    rw [mergeInto, compared]
    cases before with
    | true =>
      -- The element of the right list goes first.
      obtain ⟨zs, ran, perm⟩ := ih
      refine ⟨y :: zs, ?_, (perm.cons y).trans List.perm_middle.symm⟩
      change (do return y :: (← mergeInto less rest x ys)) = _
      rw [ran]
      rfl
    | false =>
      obtain ⟨zs, ran, perm⟩ := merges (y :: ys)
      refine ⟨x :: zs, ?_, perm.cons x⟩
      change (do return x :: (← rest (y :: ys))) = _
      rw [ran]
      rfl

theorem merge_perm (xs ys : List α) : ∃ zs, merge less xs ys = .ok zs ∧ zs.Perm (xs ++ ys) := by
  induction xs generalizing ys with
  | nil => exact ⟨ys, rfl, .refl ys⟩
  | cons x xs ih => exact mergeInto_perm leaves ih x ys

theorem addCarry_perm (carry : List α) (slots : List (List α)) :
    ∃ slots', addCarry less carry slots = .ok slots' ∧
      slots'.flatten.Perm (carry ++ slots.flatten) := by
  induction slots generalizing carry with
  | nil => exact ⟨[carry], rfl, .refl _⟩
  | cons slot slots ih =>
    cases slot with
    | nil => exact ⟨carry :: slots, rfl, .refl _⟩
    | cons a slot =>
      obtain ⟨merged, ranMerge, permMerge⟩ := merge_perm leaves (a :: slot) carry
      obtain ⟨slots', ran, perm⟩ := ih merged
      refine ⟨[] :: slots', ?_, ?_⟩
      · change (do return [] :: (← addCarry less (← merge less (a :: slot) carry) slots)) = _
        rw [ranMerge]
        change (do return [] :: (← addCarry less merged slots)) = _
        rw [ran]
        rfl
      · -- The list of the slot comes in front of the one that was carried.
        have moved := permMerge.trans List.perm_append_comm
        rw [List.flatten_cons, List.flatten_cons, ← List.append_assoc]
        exact perm.trans (moved.append_right _)

theorem fillSlots_perm (as : List α) (slots : List (List α)) :
    ∃ slots', fillSlots less as slots = .ok slots' ∧
      slots'.flatten.Perm (as ++ slots.flatten) := by
  induction as generalizing slots with
  | nil => exact ⟨slots, rfl, .refl _⟩
  | cons a as ih =>
    obtain ⟨carried, ranCarry, permCarry⟩ := addCarry_perm leaves [a] slots
    obtain ⟨slots', ran, perm⟩ := ih carried
    refine ⟨slots', ?_, perm.trans ((permCarry.append_left as).trans List.perm_middle)⟩
    rw [fillSlots, ranCarry]
    exact ran

theorem collect_perm (merged : List α) (slots : List (List α)) :
    ∃ zs, collect less merged slots = .ok zs ∧ zs.Perm (merged ++ slots.flatten) := by
  induction slots generalizing merged with
  | nil =>
    refine ⟨merged, rfl, ?_⟩
    rw [List.flatten_nil, List.append_nil]
  | cons slot slots ih =>
    obtain ⟨joined, ranMerge, permMerge⟩ := merge_perm leaves slot merged
    obtain ⟨zs, ran, perm⟩ := ih joined
    refine ⟨zs, ?_, ?_⟩
    · rw [collect, ranMerge]
      exact ran
    · have moved := permMerge.trans List.perm_append_comm
      rw [List.flatten_cons, ← List.append_assoc]
      exact perm.trans (moved.append_right _)

theorem listSort_perm (as : List α) : ∃ zs, listSort less as = .ok zs ∧ zs.Perm as := by
  obtain ⟨slots, ranFill, permFill⟩ := fillSlots_perm leaves as []
  obtain ⟨zs, ran, perm⟩ := collect_perm leaves [] slots
  rw [List.flatten_nil, List.append_nil] at permFill
  refine ⟨zs, ?_, perm.trans permFill⟩
  rw [listSort, ranFill]
  exact ran

end

/-! ## What the sort does to the keys -/

variable [LinearOrder κ]

/-- A comparison of keys, which are kept; equal keys may compare either way. -/
def Compares (key : α → κ) (done : α → Prop) (less : α → α → Except ε (Bool × α × α)) : Prop :=
  ∀ a b, ∃ before a' b', less a b = .ok (before, a', b') ∧ key a' = key a ∧ key b' = key b ∧
    (before = true → key a ≤ key b) ∧ (before = false → key b ≤ key a) ∧ done a' ∧ done b'

/-- A list whose keys are in ascending order. -/
def Ascending (key : α → κ) (as : List α) : Prop :=
  (as.map key).Pairwise (· ≤ ·)

/-- A list with the keys of another one in ascending order, compared where that one was. -/
structure Ordered (key : α → κ) (done : α → Prop) (as zs : List α) : Prop where
  perm : (zs.map key).Perm (as.map key)
  ascending : Ascending key zs
  compared : (∀ a ∈ as, done a) → ∀ z ∈ zs, done z

variable {key : α → κ} {done : α → Prop} {less : α → α → Except ε (Bool × α × α)}

/-- An element that is not above any other goes in front of their order. -/
theorem Ordered.cons {x : α} {as zs : List α} (ordered : Ordered key done as zs)
    (least : ∀ a ∈ as, key x ≤ key a) : Ordered key done (x :: as) (x :: zs) where
  perm := ordered.perm.cons (key x)
  ascending := by
    refine List.pairwise_cons.mpr ⟨?_, ordered.ascending⟩
    intro k listed
    obtain ⟨a, among, rfl⟩ := List.mem_map.mp (ordered.perm.mem_iff.mp listed)
    exact least a among
  compared := by
    intro all z listed
    rcases List.mem_cons.mp listed with rfl | listed
    · exact all _ List.mem_cons_self
    · exact ordered.compared (fun a among => all a (List.mem_cons_of_mem x among)) z listed

theorem Ordered.congr {as bs zs : List α} (ordered : Ordered key done as zs)
    (same : (as.map key).Perm (bs.map key)) (all : (∀ b ∈ bs, done b) → ∀ a ∈ as, done a) :
    Ordered key done bs zs where
  perm := ordered.perm.trans same
  ascending := ordered.ascending
  compared := fun bsDone => ordered.compared (all bsDone)

theorem Ascending.le {x : α} {xs : List α} (ascending : Ascending key (x :: xs)) :
    (∀ a ∈ xs, key x ≤ key a) ∧ Ascending key xs := by
  obtain ⟨least, rest⟩ := List.pairwise_cons.mp ascending
  exact ⟨fun a listed => least (key a) (List.mem_map_of_mem listed), rest⟩

/-- Merging an element with a list, given a merge of those behind it with any list. -/
theorem mergeInto_ordered (compares : Compares key done less) {xs : List α}
    {rest : List α → Except ε (List α)}
    (merges : ∀ ys, Ascending key ys →
      ∃ zs, rest ys = .ok zs ∧ Ordered key done (xs ++ ys) zs)
    {x : α} (least : ∀ a ∈ xs, key x ≤ key a) {ys : List α} (ascending : Ascending key ys) :
    ∃ zs, mergeInto less rest x ys = .ok zs ∧ Ordered key done (x :: (xs ++ ys)) zs ∧
      (ys ≠ [] → (∀ a ∈ xs ++ ys.tail, done a) → ∀ z ∈ zs, done z) := by
  -- The induction is on the right list; the element in front of the left one may be replaced.
  induction ys generalizing x with
  | nil =>
    obtain ⟨zs, ran, ordered⟩ := merges [] .nil
    refine ⟨x :: zs, by rw [mergeInto, ran]; rfl, ordered.cons ?_, fun some => absurd rfl some⟩
    simpa using least
  | cons y ys ih =>
    obtain ⟨leastRight, ascendingRest⟩ := ascending.le
    obtain ⟨before, y', x', compared, sameY, sameX, less_, notLess, doneY, doneX⟩ :=
      compares y x
    cases before with
    | true =>
      have below := less_ rfl
      -- The element of the right list is not above any other.
      obtain ⟨zs, ran, ordered, -⟩ := ih (x := x') (fun a listed => sameX ▸ least a listed)
        ascendingRest
      have front : Ordered key done (y' :: x' :: (xs ++ ys)) (y' :: zs) := by
        refine ordered.cons fun a listed => ?_
        rw [sameY]
        rcases List.mem_cons.mp listed with rfl | listed
        · exact sameX.symm ▸ below
        · rcases List.mem_append.mp listed with left | right
          · exact le_trans below (least a left)
          · exact leastRight a right
      refine ⟨y' :: zs, ?_, ?_, ?_⟩
      · rw [mergeInto, compared]
        dsimp only [Bind.bind, Except.bind]
        rw [if_pos rfl, ran]
        rfl
      · refine front.congr ?_ ?_
        · simp only [List.map_cons, List.map_append, sameX, sameY]
          exact (List.Perm.swap _ _ _).trans (List.perm_middle.symm.cons _)
        · intro all a listed
          simp only [List.mem_cons, List.mem_append] at listed all
          rcases listed with rfl | rfl | left | right
          · exact doneY
          · exact doneX
          · exact all a (.inr (.inl left))
          · exact all a (.inr (.inr (.inr right)))
      · intro _ others
        refine front.compared fun a listed => ?_
        rcases List.mem_cons.mp listed with rfl | listed
        · exact doneY
        · rcases List.mem_cons.mp listed with rfl | listed
          · exact doneX
          · exact others a listed
    | false =>
      have below := notLess rfl
      have ascending' : Ascending key (y' :: ys) := by
        rw [Ascending, List.map_cons, sameY]
        exact ascending
      obtain ⟨zs, ran, ordered⟩ := merges (y' :: ys) ascending'
      have front : Ordered key done (x' :: (xs ++ y' :: ys)) (x' :: zs) := by
        refine ordered.cons fun a listed => ?_
        rw [sameX]
        rcases List.mem_append.mp listed with left | right
        · exact least a left
        · rcases List.mem_cons.mp right with rfl | right
          · exact sameY.symm ▸ below
          · exact le_trans below (leastRight a right)
      refine ⟨x' :: zs, ?_, ?_, ?_⟩
      · rw [mergeInto, compared]
        dsimp only [Bind.bind, Except.bind]
        rw [if_neg (by decide), ran]
        rfl
      · refine front.congr ?_ ?_
        · simp only [List.map_cons, List.map_append, sameX, sameY]
          rfl
        · intro all a listed
          simp only [List.mem_cons, List.mem_append] at listed all
          rcases listed with rfl | left | rfl | right
          · exact doneX
          · exact all a (.inr (.inl left))
          · exact doneY
          · exact all a (.inr (.inr (.inr right)))
      · intro _ others
        refine front.compared fun a listed => ?_
        rcases List.mem_cons.mp listed with rfl | listed
        · exact doneX
        · rcases List.mem_append.mp listed with left | right
          · exact others a (List.mem_append_left _ left)
          · rcases List.mem_cons.mp right with rfl | right
            · exact doneY
            · exact others a (List.mem_append_right _ right)

/-- A list whose elements were all compared, unless there is only one. -/
def Compared (done : α → Prop) (as : List α) : Prop :=
  as.length ≤ 1 ∨ ∀ a ∈ as, done a

theorem Compared.tail {as : List α} (compared : Compared done as) : ∀ a ∈ as.tail, done a := by
  intro a listed
  rcases compared with one | all
  · have none : as.tail = [] := List.eq_nil_of_length_eq_zero (by rw [List.length_tail]; omega)
    rw [none] at listed
    cases listed
  · exact all a (List.mem_of_mem_tail listed)

/-- Merging two ascending lists orders their elements, and compares all of them. -/
theorem merge_ordered (compares : Compares key done less) {xs ys : List α}
    (ascending : Ascending key xs) (ascendingRight : Ascending key ys) :
    ∃ zs, merge less xs ys = .ok zs ∧ Ordered key done (xs ++ ys) zs ∧
      (xs ≠ [] → ys ≠ [] → Compared done xs → Compared done ys → ∀ z ∈ zs, done z) := by
  induction xs generalizing ys with
  | nil => exact ⟨ys, rfl, ⟨.refl _, ascendingRight, id⟩, fun some => absurd rfl some⟩
  | cons x xs ih =>
    obtain ⟨least, rest⟩ := ascending.le
    have merges : ∀ ys, Ascending key ys →
        ∃ zs, merge less xs ys = .ok zs ∧ Ordered key done (xs ++ ys) zs := by
      intro ys right
      obtain ⟨zs, ran, ordered, -⟩ := ih rest right
      exact ⟨zs, ran, ordered⟩
    obtain ⟨zs, ran, ordered, all⟩ := mergeInto_ordered compares merges least ascendingRight
    refine ⟨zs, ran, ordered, fun _ some left right => all some fun a listed => ?_⟩
    rcases List.mem_append.mp listed with among | among
    · exact left.tail a among
    · exact right.tail a among

theorem merge_nil (xs : List α) : merge less xs [] = .ok xs := by
  induction xs with
  | nil => rfl
  | cons x xs ih =>
    rw [merge, mergeInto, ih]
    rfl

/-! ## Slots -/

/-- Lists that are ascending and compared. -/
def Sound (key : α → κ) (done : α → Prop) (slots : List (List α)) : Prop :=
  ∀ slot ∈ slots, Ascending key slot ∧ Compared done slot

/-- Putting a list into the slots keeps all elements. -/
theorem addCarry_sound (compares : Compares key done less) {carry : List α}
    {slots : List (List α)} (some : carry ≠ []) (ascending : Ascending key carry)
    (compared : Compared done carry) (sound : Sound key done slots) :
    ∃ slots', addCarry less carry slots = .ok slots' ∧ Sound key done slots' ∧
      (slots'.flatten.map key).Perm ((carry ++ slots.flatten).map key) := by
  induction slots generalizing carry with
  | nil =>
    refine ⟨[carry], rfl, ?_, by simp⟩
    intro slot listed
    obtain rfl := List.mem_singleton.mp listed
    exact ⟨ascending, compared⟩
  | cons slot slots ih =>
    have behind : Sound key done slots := fun t listed => sound t (List.mem_cons_of_mem slot listed)
    cases slot with
    | nil =>
      refine ⟨carry :: slots, rfl, ?_, by simp⟩
      intro t listed
      rcases List.mem_cons.mp listed with rfl | listed
      · exact ⟨ascending, compared⟩
      · exact behind t listed
    | cons a as =>
      obtain ⟨here, comparedHere⟩ := sound (a :: as) List.mem_cons_self
      obtain ⟨merged, ran, ordered, all⟩ := merge_ordered compares here ascending
      have filled : merged ≠ [] := by
        intro none
        have lengths := ordered.perm.length_eq
        simp [none] at lengths
      obtain ⟨slots', ranRest, soundRest, perm⟩ := ih filled ordered.ascending
        (.inr (all (by simp) some comparedHere compared)) behind
      refine ⟨[] :: slots', ?_, ?_, ?_⟩
      · rw [addCarry, ran]
        · dsimp only [Bind.bind, Except.bind]
          rw [ranRest]
          rfl
        · simp
      · intro t listed
        rcases List.mem_cons.mp listed with rfl | listed
        · exact ⟨.nil, .inl (by simp)⟩
        · exact soundRest t listed
      · have moved := ordered.perm
        simp only [List.flatten_cons, List.nil_append, List.map_append] at perm moved ⊢
        refine perm.trans ((moved.append_right _).trans ?_)
        exact (List.perm_append_comm.append_right _).trans (by simp)

theorem fillSlots_sound (compares : Compares key done less) (as : List α)
    {slots : List (List α)} (sound : Sound key done slots) :
    ∃ slots', fillSlots less as slots = .ok slots' ∧ Sound key done slots' ∧
      (slots'.flatten.map key).Perm ((as ++ slots.flatten).map key) := by
  induction as generalizing slots with
  | nil => exact ⟨slots, rfl, sound, .refl _⟩
  | cons a as ih =>
    have single : Ascending key [a] := List.pairwise_singleton _ (key a)
    have alone : Compared done [a] := .inl (Nat.le_refl 1)
    obtain ⟨mid, ran, soundMid, permMid⟩ :=
      addCarry_sound compares (List.cons_ne_nil a []) single alone sound
    obtain ⟨slots', ranRest, soundRest, perm⟩ := ih soundMid
    refine ⟨slots', ?_, soundRest, ?_⟩
    · rw [fillSlots, ran]
      exact ranRest
    · rw [List.map_append] at perm
      refine perm.trans ((permMid.append_left _).trans ?_)
      simp only [List.map_append, List.map_cons, List.cons_append, List.nil_append]
      exact List.perm_middle

/-- Merging the slots orders their elements. -/
theorem collect_sound (compares : Compares key done less) {merged : List α}
    {slots : List (List α)} (ascending : Ascending key merged) (compared : Compared done merged)
    (sound : Sound key done slots) :
    ∃ zs, collect less merged slots = .ok zs ∧ Ascending key zs ∧ Compared done zs ∧
      (zs.map key).Perm ((merged ++ slots.flatten).map key) := by
  induction slots generalizing merged with
  | nil => exact ⟨merged, rfl, ascending, compared, by simp⟩
  | cons slot slots ih =>
    have behind : Sound key done slots := fun t listed => sound t (List.mem_cons_of_mem slot listed)
    obtain ⟨here, comparedHere⟩ := sound slot List.mem_cons_self
    obtain ⟨next, ran, ordered, all⟩ := merge_ordered compares here ascending
    -- Where one of the two is empty, the other one is left as it is.
    have comparedNext : Compared done next := by
      cases slot with
      | nil =>
        cases ran
        exact compared
      | cons a as =>
        cases merged with
        | nil =>
          rw [merge_nil] at ran
          cases ran
          exact comparedHere
        | cons b bs => exact .inr (all (by simp) (by simp) comparedHere compared)
    obtain ⟨zs, ranRest, sorted, comparedAll, perm⟩ := ih ordered.ascending comparedNext behind
    refine ⟨zs, ?_, sorted, comparedAll, ?_⟩
    · rw [collect, ran]
      exact ranRest
    · have moved := ordered.perm
      simp only [List.flatten_cons, List.map_append] at perm moved ⊢
      refine perm.trans ((moved.append_right _).trans ?_)
      rw [← List.append_assoc]
      exact List.perm_append_comm.append_right _

/-- The sort orders a list by the keys and compares all elements, unless there is only one. -/
theorem listSort_ordered (compares : Compares key done less) (as : List α) :
    ∃ zs, listSort less as = .ok zs ∧ Ascending key zs ∧ Compared done zs ∧
      (zs.map key).Perm (as.map key) := by
  -- No slot is in use before the first element, and nothing is merged before the first slot.
  have empty : Sound key done [] := by
    intro slot listed
    cases listed
  have start : Ascending key ([] : List α) := .nil
  have none : Compared done ([] : List α) := .inl (Nat.zero_le 1)
  obtain ⟨slots, ran, sound, perm⟩ := fillSlots_sound compares as empty
  obtain ⟨zs, ranAll, ascending, compared, permAll⟩ := collect_sound compares start none sound
  refine ⟨zs, ?_, ascending, compared, permAll.trans ?_⟩
  · rw [listSort, ran]
    exact ranAll
  · simpa using perm

end Lib
