import Mathlib.Data.Finset.Card
import Mathlib.Data.Finset.Range
import Mathlib.Data.List.Pairwise

/-! Searches for what is not taken: among numbered candidates, and among the numbers from 0 on. -/

namespace Lib

/-! ## Candidates -/

section

variable {β : Type*} (taken : β → Prop) [DecidablePred taken] (candidate : ℤ → β)

/-- The first candidate from a number on that is not taken, or the last one of a number of turns. -/
@[grind =] def firstFree : ℕ → ℤ → β
  | 0, i => candidate i
  | turns + 1, i => if taken (candidate i) then firstFree turns (i + 1) else candidate i

theorem firstFree_eq_candidate (turns : ℕ) (i : ℤ) :
    ∃ j, firstFree taken candidate turns i = candidate j := by
  induction turns generalizing i with
  | zero => exact ⟨i, rfl⟩
  | succ turns ih =>
    rw [firstFree]
    split
    · exact ih (i + 1)
    · exact ⟨i, rfl⟩

/-- The search ends at a free candidate exactly when one of those it may try is free. -/
theorem not_taken_firstFree_iff (turns : ℕ) (i : ℤ) :
    ¬ taken (firstFree taken candidate turns i) ↔
      ∃ j, i ≤ j ∧ j ≤ i + turns ∧ ¬ taken (candidate j) := by
  induction turns generalizing i with
  | zero =>
    constructor
    · intro free
      exact ⟨i, le_refl i, by simp, free⟩
    · rintro ⟨j, above, below, free⟩
      have same : j = i := by omega
      rwa [same] at free
  | succ turns ih =>
    rw [firstFree]
    split
    next tried =>
      -- The first candidate is taken, so only the later ones count.
      rw [ih (i + 1)]
      constructor
      · rintro ⟨j, above, below, free⟩
        exact ⟨j, by omega, by push_cast; omega, free⟩
      · rintro ⟨j, above, below, free⟩
        have later : j ≠ i := by
          intro same
          exact free (same ▸ tried)
        exact ⟨j, by omega, by push_cast at below; omega, free⟩
    next free =>
      constructor
      · intro _
        exact ⟨i, le_refl i, by omega, free⟩
      · intro _
        exact free

theorem exists_free_of_card_lt [DecidableEq β] (numbers : Finset ℤ) (used : Finset β)
    (different : Set.InjOn candidate numbers) (fewer : used.card < numbers.card) :
    ∃ j ∈ numbers, candidate j ∉ used := by
  have many : used.card < (numbers.image candidate).card := by
    rwa [Finset.card_image_of_injOn different]
  obtain ⟨x, isCandidate, free⟩ := Finset.exists_mem_notMem_of_card_lt_card many
  obtain ⟨j, inNumbers, rfl⟩ := Finset.mem_image.mp isCandidate
  exact ⟨j, inNumbers, free⟩

end

/-! ## The lowest numbers -/

section

variable (used : List ℤ)

/-- The numbers of a list that lie above one in it are fewer. -/
theorem card_filter_succ_lt {start : ℕ} (isUsed : (start : ℤ) ∈ used) :
    (used.toFinset.filter fun x => (start : ℤ) + 1 ≤ x).card <
      (used.toFinset.filter fun x => (start : ℤ) ≤ x).card := by
  apply Finset.card_lt_card
  rw [Finset.ssubset_iff_of_subset]
  · refine ⟨start, ?_, ?_⟩
    · rw [Finset.mem_filter, List.mem_toFinset]
      exact ⟨isUsed, le_refl _⟩
    · rw [Finset.mem_filter]
      omega
  · intro x isIn
    rw [Finset.mem_filter] at isIn ⊢
    exact ⟨isIn.1, by omega⟩

/-- The lowest number from one on that is not used. -/
def nextFree (start : ℕ) : ℕ :=
  if (start : ℤ) ∈ used then nextFree (start + 1) else start
termination_by (used.toFinset.filter fun x => (start : ℤ) ≤ x).card
decreasing_by
  rename_i isUsed
  exact card_filter_succ_lt used isUsed

/-- How many numbers below one are not used. -/
def freeBelow (x : ℕ) : ℕ :=
  ((Finset.range x).filter fun y : ℕ => (y : ℤ) ∉ used).card

/-- So many of the lowest numbers that are not used. -/
@[grind =] def takeFree : ℕ → ℕ → List ℕ
  | 0, _ => []
  | k + 1, start => nextFree used start :: takeFree k (nextFree used start + 1)

variable {used}

theorem freeBelow_succ_of_mem {x : ℕ} (isUsed : (x : ℤ) ∈ used) :
    freeBelow used (x + 1) = freeBelow used x := by
  rw [freeBelow, Finset.range_add_one, Finset.filter_insert, if_neg (not_not_intro isUsed),
    freeBelow]

theorem freeBelow_succ_of_notMem {x : ℕ} (free : (x : ℤ) ∉ used) :
    freeBelow used (x + 1) = freeBelow used x + 1 := by
  rw [freeBelow, Finset.range_add_one, Finset.filter_insert, if_pos free,
    Finset.card_insert_of_notMem (by simp), freeBelow]

theorem freeBelow_mono {x y : ℕ} (below : x ≤ y) : freeBelow used x ≤ freeBelow used y := by
  induction y, below using Nat.le_induction with
  | base => exact le_refl _
  | succ y _ ih =>
    by_cases isUsed : (y : ℤ) ∈ used
    · rwa [freeBelow_succ_of_mem isUsed]
    · rw [freeBelow_succ_of_notMem isUsed]
      exact Nat.le_succ_of_le ih

/-- The next free number is not used, and all before it are. -/
theorem nextFree_spec (start : ℕ) :
    start ≤ nextFree used start ∧ (nextFree used start : ℤ) ∉ used ∧
      freeBelow used (nextFree used start) = freeBelow used start ∧
      ∀ x, start ≤ x → x < nextFree used start → (x : ℤ) ∈ used := by
  fun_induction nextFree used start with
  | case1 start isUsed ih =>
    obtain ⟨above, free, same, all⟩ := ih
    refine ⟨by omega, free, by rw [same, freeBelow_succ_of_mem isUsed], ?_⟩
    intro x from' below
    by_cases here : x = start
    · exact here ▸ isUsed
    · exact all x (by omega) below
  | case2 start free =>
    exact ⟨le_refl _, free, rfl, fun x from' below => absurd below (by omega)⟩

/-- The numbers handed out are those that are not used and have few of their kind below them. -/
theorem mem_takeFree_iff {k start x : ℕ} :
    x ∈ takeFree used k start ↔
      (x : ℤ) ∉ used ∧ start ≤ x ∧ freeBelow used x < freeBelow used start + k := by
  induction k generalizing start with
  | zero =>
    rw [takeFree]
    constructor
    · intro isIn
      exact absurd isIn List.not_mem_nil
    · rintro ⟨-, above, few⟩
      have : freeBelow used start ≤ freeBelow used x := freeBelow_mono above
      omega
  | succ k ih =>
    obtain ⟨above, free, same, all⟩ : start ≤ nextFree used start ∧ _ := nextFree_spec start
    rw [takeFree, List.mem_cons, ih, freeBelow_succ_of_notMem free, same]
    constructor
    · rintro (rfl | ⟨xFree, later, few⟩)
      · exact ⟨free, above, by omega⟩
      · exact ⟨xFree, by omega, by omega⟩
    · rintro ⟨xFree, from', few⟩
      by_cases first : x = nextFree used start
      · exact .inl first
      · refine .inr ⟨xFree, ?_, by omega⟩
        by_contra before
        exact xFree (all x from' (by omega))

theorem takeFree_pairwise (k start : ℕ) : (takeFree used k start).Pairwise (· < ·) := by
  induction k generalizing start with
  | zero => exact List.Pairwise.nil
  | succ k ih =>
    refine List.Pairwise.cons ?_ (ih _)
    intro x isIn
    have above := (mem_takeFree_iff.mp isIn).2.1
    omega

end

end Lib
