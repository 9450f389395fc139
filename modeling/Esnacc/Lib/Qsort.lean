import Mathlib.Data.List.Perm.Basic
import Mathlib.Data.List.Sort
import Mathlib.Tactic.Common

/-! What a sorting routine that is handed a comparison may be relied on for. -/

namespace Lib

variable {α : Type}

/-- Whether a comparison orders the objects at different places of a list. -/
structure Consistent (cmp : α → α → Int) (xs : List α) : Prop where
  opposite : xs.Pairwise fun x y => (cmp x y < 0 ↔ 0 < cmp y x) ∧ (0 < cmp x y ↔ cmp y x < 0)
  trans : ∀ x ∈ xs, ∀ y ∈ xs, ∀ z ∈ xs, cmp x y ≤ 0 → cmp y z ≤ 0 → cmp x z ≤ 0

/-- A sorting routine: it only moves objects, and sorts those that the comparison orders. -/
structure CorrectQsort (qsort : (α → α → Int) → List α → List α) : Prop where
  perm : ∀ cmp xs, (qsort cmp xs).Perm xs
  sorted : ∀ cmp xs, Consistent cmp xs → (qsort cmp xs).Pairwise fun x y => cmp x y ≤ 0

theorem Consistent.tail {cmp : α → α → Int} {x : α} {rest : List α}
    (consistent : Consistent cmp (x :: rest)) : Consistent cmp rest where
  opposite := consistent.opposite.tail
  trans a inA b inB c inC := consistent.trans a (List.mem_cons_of_mem x inA) b
    (List.mem_cons_of_mem x inB) c (List.mem_cons_of_mem x inC)

theorem Consistent.perm {cmp : α → α → Int} {xs ys : List α} (consistent : Consistent cmp xs)
    (moved : ys.Perm xs) : Consistent cmp ys where
  opposite := by
    apply (moved.pairwise_iff _).mpr consistent.opposite
    rintro x y ⟨less, more⟩
    exact ⟨more.symm, less.symm⟩
  trans a inA b inB c inC := consistent.trans a (moved.mem_iff.mp inA) b (moved.mem_iff.mp inB) c
    (moved.mem_iff.mp inC)

/-- Objects that a comparison orders can be sorted. -/
theorem exists_sorted {cmp : α → α → Int} {xs : List α} (consistent : Consistent cmp xs) :
    ∃ ys : List α, ys.Perm xs ∧ ys.Pairwise fun x y => cmp x y ≤ 0 := by
  induction xs with
  | nil => exact ⟨[], .nil, .nil⟩
  | cons x rest ih =>
    obtain ⟨ys, moved, sorted⟩ := ih consistent.tail
    -- The first object goes behind those that are not above it.
    refine ⟨ys.takeWhile (fun y => cmp y x ≤ 0) ++
      x :: ys.dropWhile (fun y => cmp y x ≤ 0), ?_, ?_⟩
    · refine List.perm_middle.trans (.cons x ?_)
      rwa [List.takeWhile_append_dropWhile]
    · have split := sorted
      rw [← @List.takeWhile_append_dropWhile _ (fun y => decide (cmp y x ≤ 0)) ys] at split
      obtain ⟨front, back, across⟩ := List.pairwise_append.mp split
      have below : ∀ y ∈ ys.takeWhile (fun y => cmp y x ≤ 0), cmp y x ≤ 0 := fun y inside =>
        of_decide_eq_true (List.all_eq_true.mp List.all_takeWhile y inside)
      have above : ∀ z ∈ ys.dropWhile (fun y => cmp y x ≤ 0), cmp x z ≤ 0 := by
        cases others : ys.dropWhile (fun y => cmp y x ≤ 0) with
        | nil => simp
        | cons first more =>
          rw [others] at back
          have member : ∀ z ∈ first :: more, z ∈ rest := by
            intro z inside
            rw [← others] at inside
            exact moved.mem_iff.mp ((List.dropWhile_sublist _).subset inside)
          -- The first of the others is above the object.
          have larger : ¬cmp first x ≤ 0 := by
            have some : ys.dropWhile (fun y => cmp y x ≤ 0) ≠ [] := by
              rw [others]
              exact List.cons_ne_nil first more
            have stops := List.head_dropWhile_not (fun y => decide (cmp y x ≤ 0)) some
            simpa only [others, List.head_cons, decide_eq_false_iff_not] using stops
          have least : cmp x first ≤ 0 := by
            have pair := List.rel_of_pairwise_cons consistent.opposite
              (member first List.mem_cons_self)
            omega
          intro z inside
          rcases List.mem_cons.mp inside with rfl | later
          · exact least
          · exact consistent.trans x List.mem_cons_self first
              (List.mem_cons_of_mem x (member first List.mem_cons_self)) z
              (List.mem_cons_of_mem x (member z inside)) least
              ((List.pairwise_cons.mp back).1 z later)
      refine List.pairwise_append.mpr ⟨front, List.pairwise_cons.mpr ⟨above, back⟩, ?_⟩
      intro y inside z there
      rcases List.mem_cons.mp there with rfl | later
      · exact below y inside
      · exact across y inside z later

/-- A sorting routine may leave objects as they are that a comparison does not order. -/
theorem exists_correctQsort : ∃ qsort : (α → α → Int) → List α → List α, CorrectQsort qsort ∧
    ∀ cmp xs, ¬Consistent cmp xs → qsort cmp xs = xs := by
  classical
  refine ⟨fun cmp xs => if consistent : Consistent cmp xs then (exists_sorted consistent).choose
    else xs, ⟨?_, ?_⟩, ?_⟩
  · intro cmp xs
    split
    next consistent => exact (exists_sorted consistent).choose_spec.1
    next => exact .refl xs
  · intro cmp xs consistent
    rw [dif_pos consistent]
    exact (exists_sorted consistent).choose_spec.2
  · intro cmp xs inconsistent
    exact dif_neg inconsistent

/-- Every list that a comparison takes as sorted is what some sorting routine gives. -/
theorem exists_correctQsort_eq {cmp : α → α → Int} {xs ys : List α} (moved : ys.Perm xs)
    (sorted : ys.Pairwise fun x y => cmp x y ≤ 0) :
    ∃ qsort : (α → α → Int) → List α → List α, CorrectQsort qsort ∧ qsort cmp xs = ys := by
  classical
  -- The routine is another one but for this comparison and this list.
  obtain ⟨other, correct, -⟩ := @exists_correctQsort α
  refine ⟨fun cmp' xs' => if cmp' = cmp ∧ xs' = xs then ys else other cmp' xs', ⟨?_, ?_⟩,
    if_pos ⟨rfl, rfl⟩⟩
  · intro cmp' xs'
    by_cases same : cmp' = cmp ∧ xs' = xs
    · rw [if_pos same, same.2]
      exact moved
    · rw [if_neg same]
      exact correct.perm cmp' xs'
  · intro cmp' xs' consistent
    by_cases same : cmp' = cmp ∧ xs' = xs
    · rw [if_pos same, same.1]
      exact sorted
    · rw [if_neg same]
      exact correct.sorted cmp' xs' consistent

section

variable {κ : Type*} [LinearOrder κ] {key : α → κ} {cmp : α → α → Int} {xs : List α}
  {R : α → α → Prop}

/-- A comparison that goes by keys of the objects. -/
structure ComparesBy (cmp : α → α → Int) (key : α → κ) : Prop where
  lt : ∀ a b, cmp a b < 0 ↔ key a < key b
  gt : ∀ a b, 0 < cmp a b ↔ key b < key a

theorem ComparesBy.le (compares : ComparesBy cmp key) (a b : α) :
    cmp a b ≤ 0 ↔ key a ≤ key b := by
  rw [← not_lt, compares.gt, not_lt]

theorem ComparesBy.consistent (compares : ComparesBy cmp key) : Consistent cmp xs where
  opposite := List.pairwise_of_forall fun a b => by
    rw [compares.lt, compares.gt, compares.lt, compares.gt]
    exact ⟨Iff.rfl, Iff.rfl⟩
  trans a _ b _ c _ := by
    rw [compares.le, compares.le, compares.le]
    exact le_trans

/-- Some sorting routine puts an object in front of another one that has no smaller key. -/
theorem ComparesBy.exists_before (compares : ComparesBy cmp key) {ys : List α}
    (moved : ys.Perm xs) {a b : α} (both : [a, b].Sublist ys) (ordered : key a ≤ key b) :
    ∃ qsort, CorrectQsort qsort ∧ [a, b].Sublist (qsort cmp xs) := by
  -- A sort that leaves what is in order keeps the two as they are.
  let le (x y : α) : Bool := key x ≤ key y
  have trans (x y z : α) (less : le x y = true) (more : le y z = true) : le x z = true :=
    decide_eq_true (le_trans (of_decide_eq_true less) (of_decide_eq_true more))
  have total (x y : α) : (le x y || le y x) = true := by
    simpa [le] using le_total (key x) (key y)
  have sorted : (ys.mergeSort le).Pairwise fun x y => cmp x y ≤ 0 := by
    refine (List.pairwise_mergeSort trans total ys).imp fun less => ?_
    exact (compares.le _ _).mpr (of_decide_eq_true less)
  have kept : [a, b].Sublist (ys.mergeSort le) :=
    List.sublist_mergeSort trans total (by simpa [le] using ordered) both
  obtain ⟨qsort, correct, given⟩ :=
    exists_correctQsort_eq ((List.mergeSort_perm ys le).trans moved) sorted
  exact ⟨qsort, correct, given ▸ kept⟩

/-- All sorting routines put each two objects of a list as a relation has them exactly where the
relation has those in order of their keys. -/
theorem ComparesBy.qsort_pairwise_iff (compares : ComparesBy cmp key) :
    (∀ qsort, CorrectQsort qsort → (qsort cmp xs).Pairwise R) ↔
      xs.Pairwise fun a b => (key a ≤ key b → R a b) ∧ (key b ≤ key a → R b a) := by
  constructor
  · intro each
    have inOrder {ys : List α} (moved : ys.Perm xs) {a b : α} (both : [a, b].Sublist ys)
        (ordered : key a ≤ key b) : R a b := by
      obtain ⟨qsort, correct, before⟩ := compares.exists_before moved both ordered
      exact List.pairwise_iff_forall_sublist.mp (each qsort correct) before
    refine List.pairwise_iff_forall_sublist.mpr fun {a b} both => ⟨inOrder (.refl xs) both, ?_⟩
    -- The other way round the two are in the reversed list.
    have turned : [b, a].Sublist xs.reverse := by
      simpa using both.reverse
    exact inOrder (List.reverse_perm xs) turned
  · intro pairs qsort correct
    have moved := correct.perm cmp xs
    have swapped := (moved.pairwise_iff fun {a b} pair => And.symm pair).mpr pairs
    refine ((correct.sorted cmp xs compares.consistent).and swapped).imp fun both => ?_
    exact both.2.1 ((compares.le _ _).mp both.1)

end

end Lib
